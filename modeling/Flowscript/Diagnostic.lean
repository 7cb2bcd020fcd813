/-
Messages about a workflow, attached to a node or an edge where they can be.
-/
import Flowscript.Json.Record

namespace Flowscript

/-- The part of the work in which a message arises. -/
inductive Phase
  | parse
  | validate
  | resolve
  | plan
  | codegen
  deriving DecidableEq, Repr, Inhabited

/-- How bad it is; only errors keep a workflow from being compiled. -/
inductive Severity
  | error
  | warning
  | info
  deriving DecidableEq, Repr, Inhabited

/-- A message about a workflow, with the node or the edge that it is about. -/
structure Diagnostic where
  severity : Severity
  code : String
  phase : Phase
  message : String
  nodeId : Option String := none
  edgeId : Option String := none
  deriving DecidableEq, Repr, Inhabited

def Phase.names : List (String × Phase) :=
  [("Parse", .parse), ("Validate", .validate), ("Resolve", .resolve), ("Plan", .plan),
    ("Codegen", .codegen)]

def Phase.name : Phase → String
  | .parse => "Parse"
  | .validate => "Validate"
  | .resolve => "Resolve"
  | .plan => "Plan"
  | .codegen => "Codegen"

def Severity.names : List (String × Severity) :=
  [("error", .error), ("warning", .warning), ("info", .info)]

def Severity.name : Severity → String
  | .error => "error"
  | .warning => "warning"
  | .info => "info"

namespace Diagnostic

def isError (d : Diagnostic) : Bool := d.severity == .error

/-- One line of text. -/
def display (d : Diagnostic) : String :=
  let head := "[" ++ d.phase.name ++ ":" ++ d.code ++ "] " ++ d.message
  let node := match d.nodeId with
    | some id => " (node '" ++ id ++ "')"
    | none => ""
  let edge := match d.edgeId with
    | some id => " (edge '" ++ id ++ "')"
    | none => ""
  head ++ node ++ edge

open Json

def record : Record Diagnostic where
  blank := { severity := .error, code := "", phase := .parse, message := "" }
  fields :=
    [ { name := "severity", presence := .required,
        put := fun d s => do return { d with severity := ← s.choice .streamed Severity.names } },
      { name := "code", presence := .required,
        put := fun d s => do return { d with code := ← s.text } },
      { name := "phase", presence := .required,
        put := fun d s => do return { d with phase := ← s.choice .streamed Phase.names } },
      { name := "message", presence := .required,
        put := fun d s => do return { d with message := ← s.text } },
      { name := "nodeId", presence := .omittable,
        put := fun d s => do return { d with nodeId := ← s.optional Source.text } },
      { name := "edgeId", presence := .omittable,
        put := fun d s => do return { d with edgeId := ← s.optional Source.text } } ]

def read : Source → Except Fault Diagnostic := record.read .streamed "Diagnostic"

/-- Diagnostics from a JSON text with an array of them. -/
def parseList (text : String) : Except Fault (List Diagnostic) :=
  readText (Source.list read) text

/-- A node or an edge that is not set is left out. -/
def toJson (d : Diagnostic) : Value :=
  .object
    ([ ("severity", .string d.severity.name),
       ("code", .string d.code),
       ("phase", .string d.phase.name),
       ("message", .string d.message) ] ++
      (d.nodeId.toList.map fun id => ("nodeId", .string id)) ++
      (d.edgeId.toList.map fun id => ("edgeId", .string id)))

end Diagnostic

/-- Whether one of the messages is an error. -/
def hasErrors (ds : List Diagnostic) : Bool := ds.any Diagnostic.isError

end Flowscript
