/-
Workflows from JSON texts.

A workflow is read straight from the text, up to its nodes.  A node is one
object with its kind among the members, so its other members are read as plain
values first and taken apart once the kind is known.  A compile request holds
the parts of a workflow beside the options; here only the options are read
straight from the text.
-/
import Flowscript.Workflow.Basic
import Flowscript.Options

namespace Flowscript

open Json

/-! ### Configurations -/

def Position.record : Record Position where
  blank := ⟨0, 0⟩
  fields :=
    [ { name := "x", presence := .required,
        put := fun p s => do return { p with x := ← s.double } },
      { name := "y", presence := .required,
        put := fun p s => do return { p with y := ← s.double } } ]

def Position.read : Source → Except Fault Position := Position.record.read .buffered "Position"

def OutputField.record : Record OutputField where
  blank := { name := "" }
  fields :=
    [ { name := "name", presence := .required,
        put := fun f s => do return { f with name := ← s.text } },
      { name := "type", presence := .defaulted,
        put := fun f s => do return { f with type := ← s.text } } ]

def OutputField.readList : Source → Except Fault (Option (List OutputField)) :=
  Source.optional (Source.list (OutputField.record.read .buffered "OutputField"))

def Trigger.record : Record Trigger where
  blank := {}
  fields :=
    [ { name := "triggerType", presence := .defaulted,
        put := fun c s => do
          return { c with triggerType := ← s.choice .buffered TriggerType.names } },
      { name := "schedule", presence := .defaulted,
        put := fun c s => do return { c with schedule := ← s.optional Source.text } },
      { name := "inputSchema", presence := .defaulted,
        put := fun c s => do return { c with inputSchema := ← s.optional Source.anything } } ]

def Agent.record : Record Agent where
  blank := {}
  fields :=
    [ { name := "model", presence := .defaulted,
        put := fun c s => do return { c with model := ← s.optional Source.text } },
      { name := "systemPrompt", presence := .defaulted,
        put := fun c s => do return { c with systemPrompt := ← s.optional Source.text } },
      { name := "prompt", presence := .defaulted,
        put := fun c s => do return { c with prompt := ← s.text } },
      { name := "tools", presence := .defaulted,
        put := fun c s => do return { c with tools := ← s.list Source.text } },
      { name := "temperature", presence := .defaulted,
        put := fun c s => do return { c with temperature := ← s.optional Source.double } },
      { name := "maxTokens", presence := .defaulted,
        put := fun c s => do return { c with maxTokens := ← s.optional Source.count } },
      { name := "outputFields", presence := .defaulted,
        put := fun c s => do return { c with outputFields := ← OutputField.readList s } } ]

def ToolCall.record : Record ToolCall where
  blank := {}
  fields :=
    [ { name := "tool", presence := .required,
        put := fun c s => do return { c with tool := ← s.text } },
      { name := "arguments", presence := .defaulted,
        put := fun c s => do return { c with arguments := ← s.textMap } },
      { name := "outputFields", presence := .defaulted,
        put := fun c s => do return { c with outputFields := ← OutputField.readList s } } ]

def Condition.record : Record Condition where
  blank := {}
  fields :=
    [ { name := "expression", presence := .required,
        put := fun c s => do return { c with expression := ← s.text } },
      { name := "trueLabel", presence := .defaulted,
        put := fun c s => do return { c with trueLabel := ← s.text } },
      { name := "falseLabel", presence := .defaulted,
        put := fun c s => do return { c with falseLabel := ← s.text } } ]

def Parallel.record : Record Parallel where
  blank := {}
  fields :=
    [ { name := "mergeStrategy", presence := .defaulted,
        put := fun c s => do return { c with merge := ← s.choice .buffered Merge.names } } ]

def FeedbackLoop.record : Record FeedbackLoop where
  blank := {}
  fields :=
    [ { name := "maxIterations", presence := .required,
        put := fun c s => do return { c with maxIterations := ← s.count } },
      { name := "stopCondition", presence := .defaulted,
        put := fun c s => do return { c with stopCondition := ← s.text } } ]

def Retrieval.record : Record Retrieval where
  blank := {}
  fields :=
    [ { name := "source", presence := .required,
        put := fun c s => do return { c with source := ← s.text } },
      { name := "query", presence := .required,
        put := fun c s => do return { c with query := ← s.text } },
      { name := "topK", presence := .defaulted,
        put := fun c s => do return { c with topK := ← s.optional Source.count } },
      { name := "outputFields", presence := .defaulted,
        put := fun c s => do return { c with outputFields := ← OutputField.readList s } } ]

def Member.record : Record Member where
  blank := {}
  fields :=
    [ { name := "name", presence := .required,
        put := fun m s => do return { m with name := ← s.text } },
      { name := "role", presence := .defaulted,
        put := fun m s => do return { m with role := ← s.optional Source.text } },
      { name := "model", presence := .defaulted,
        put := fun m s => do return { m with model := ← s.optional Source.text } },
      { name := "instructions", presence := .defaulted,
        put := fun m s => do return { m with instructions := ← s.optional Source.text } } ]

def Team.record : Record Team where
  blank := {}
  fields :=
    [ { name := "strategy", presence := .defaulted,
        put := fun c s => do
          return { c with strategy := ← s.choice .buffered TeamStrategy.names } },
      { name := "task", presence := .defaulted,
        put := fun c s => do return { c with task := ← s.text } },
      { name := "members", presence := .defaulted,
        put := fun c s => do
          return { c with members := ← s.list (Member.record.read .buffered "TeamMember") } },
      { name := "maxRounds", presence := .defaulted,
        put := fun c s => do return { c with maxRounds := ← s.optional Source.count } },
      { name := "outputFields", presence := .defaulted,
        put := fun c s => do return { c with outputFields := ← OutputField.readList s } } ]

/-- The configuration of a node of the given kind, from the members of its data. -/
def Config.ofMembers (kind : Kind) (members : List (Source × Source)) : Except Fault Config :=
  match kind with
  | .trigger => (Trigger.record.ofMembers members).map .trigger
  | .agent => (Agent.record.ofMembers members).map .agent
  | .toolCall => (ToolCall.record.ofMembers members).map .toolCall
  | .condition => (Condition.record.ofMembers members).map .condition
  | .parallel => (Parallel.record.ofMembers members).map .parallel
  | .feedbackLoop => (FeedbackLoop.record.ofMembers members).map .feedbackLoop
  | .retrieval => (Retrieval.record.ofMembers members).map .retrieval
  | .team => (Team.record.ofMembers members).map .team

/-! ### Nodes and edges -/

namespace Node

/-- Splits the label off the members of a node's data. -/
def splitLabel : Option (Option String) → List (Source × Source) →
    Except Fault (Option (Option String) × List (Source × Source))
  | label, [] => .ok (label, [])
  | label, (k, s) :: rest => do
    let key ← orFlaw k.name
    if key = "label" then
      if label.isSome then .error (.repeated "label")
      else splitLabel (some (← s.optional Source.text)) rest
    else
      let (label, others) ← splitLabel label rest
      return (label, (k, s) :: others)

/-- The data of a node: the label beside the fields of its configuration. -/
def readData (kind : Kind) : Source → Except Fault (Option String × Config)
  | .object members _ => do
    let (label, others) ← splitLabel none members
    return (label.getD none, ← Config.ofMembers kind others)
  | s => .error (s.mismatch (.record "NodeData"))

/-- The fields of a node of known kind. -/
def record (kind : Kind) : Record Node where
  blank := { id := "", config := .trigger {} }
  fields :=
    [ { name := "id", presence := .required,
        put := fun n s => do return { n with id := ← s.text } },
      { name := "position", presence := .defaulted,
        put := fun n s => do return { n with position := ← s.optional Position.read } },
      { name := "data", presence := .required,
        put := fun n s => do
          let (label, config) ← readData kind s
          return { n with label, config } } ]

/-- Reads the kind where it stands and every other member as a plain value. -/
def splitKind (mode : Mode) (room : Nat) : Option Kind → List (Source × Source) →
    Except Fault (Option Kind × List (Source × Source))
  | kind, [] => .ok (kind, [])
  | kind, (k, s) :: rest => do
    let key ← orFlaw k.name
    if key = "kind" then
      if kind.isSome then .error (.repeated "kind")
      else splitKind mode room (some (← s.tag mode Kind.names)) rest
    else
      let v ← orFlaw (s.read room)
      let (kind, others) ← splitKind mode room kind rest
      return (kind, (k, v.source) :: others)

/-- A node whose members may nest `room` arrays and objects. -/
def read (mode : Mode) (room : Nat) : Source → Except Fault Node
  | .object members ending => do
    let (kind, others) ← splitKind mode room none members
    checkEnding ending
    match kind with
    | none => .error (.missing "kind")
    | some kind => (record kind).read .buffered "NodeBase" (.object others none)
  | .array [] ending => do
    checkEnding ending
    .error (.missing "kind")
  | .array (first :: rest) ending => do
    let kind ← first.tag mode Kind.names
    let values ← rest.mapM fun s => orFlaw (s.read room)
    checkEnding ending
    (record kind).read .buffered "NodeBase" (.array (values.map Value.source) none)
  | s => .error (s.mismatch (.tagged "WorkflowNode"))

/-- A single node from a JSON text. -/
def parse (text : String) : Except Fault Node := readText (read .streamed 126) text

end Node

namespace Edge

def record (mode : Mode) : Record Edge where
  blank := { id := "", source := "", target := "" }
  fields :=
    [ { name := "id", presence := .required,
        put := fun e s => do return { e with id := ← s.text } },
      { name := "sourceNodeId", alias? := some "source", presence := .required,
        put := fun e s => do return { e with source := ← s.text } },
      { name := "targetNodeId", alias? := some "target", presence := .required,
        put := fun e s => do return { e with target := ← s.text } },
      { name := "branchLabel", presence := .defaulted,
        put := fun e s => do
          return { e with branch := ← s.optional (Source.choice mode branchNames) } },
      { name := "outputSlot", presence := .defaulted,
        put := fun e s => do return { e with slot := ← s.optional Source.text } } ]

def read (mode : Mode) : Source → Except Fault Edge := (record mode).read mode "WorkflowEdge"

end Edge

/-! ### Whole texts -/

namespace Workflow

/-- Arrays and objects may nest 127 deep; three of them stand around the members of a node. -/
def record (mode : Mode) : Record Workflow where
  blank := {}
  fields :=
    [ { name := "nodes", presence := .defaulted,
        put := fun w s => do return { w with nodes := ← s.list (Node.read mode 124) } },
      { name := "edges", presence := .defaulted,
        put := fun w s => do return { w with edges := ← s.list (Edge.read mode) } } ]

/-- A workflow from a JSON text. -/
def parse (text : String) : Except Fault Workflow :=
  readText ((record .streamed).read .streamed "Workflow") text

/-- What is said of a text that is no workflow; the flaws of a text have no words. -/
def parseMessage? (f : Fault) : Option String :=
  f.describe?.map ("failed to parse workflow JSON: " ++ ·)

end Workflow

/-- A workflow to compile, and how. -/
structure Request where
  workflow : Workflow := {}
  options : Options := {}
  deriving Repr, Inhabited

namespace Request

/-- Reads the options where they stand and every other member as a plain value. -/
def splitOptions : Option Options → List (Source × Source) →
    Except Fault (Option Options × List (Source × Source))
  | options, [] => .ok (options, [])
  | options, (k, s) :: rest => do
    let key ← orFlaw k.name
    if key = "options" then
      if options.isSome then .error (.repeated "options")
      else splitOptions (some (← Options.read s)) rest
    else
      let v ← orFlaw (s.read 126)
      let (options, others) ← splitOptions options rest
      return (options, (k, v.source) :: others)

def read : Source → Except Fault Request
  | .object members ending => do
    let (options, others) ← splitOptions none members
    checkEnding ending
    let workflow ← (Workflow.record .buffered).ofMembers others
    return { workflow, options := options.getD {} }
  | s => .error (s.mismatch (.record "CompileRequest"))

/-- A compile request from a JSON text. -/
def parse (text : String) : Except Fault Request := readText read text

/-- What is said of a text that is no compile request; the flaws of a text have no words. -/
def parseMessage? (f : Fault) : Option String :=
  f.describe?.map ("failed to parse compile request: " ++ ·)

end Request

end Flowscript
