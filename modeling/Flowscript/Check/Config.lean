/-
Rules on the configuration of a single node.

Each finding is a warning: a node that is configured badly still has a meaning
in the emitted program, so only the shape of a workflow can stop it.
-/
import Flowscript.Diagnostic
import Flowscript.Sorting
import Flowscript.Workflow.Basic

namespace Flowscript

inductive ConfigNote
  | noSchedule
  | noPrompt
  | temperature (value : Float)
  | noTool
  | noExpression
  | noIterations
  | noStop (iterations : Nat)
  | noSource
  | noQuery
  | noMembers
  | unnamedMember
  | repeatedMember (name : String)
  | outputField (name : String)
  deriving DecidableEq, Repr

/-- Doubles in messages and in the emitted program: all digits in place and no needless `.0`. -/
def plainLayout : Decimal.Layout where
  positional _ := true
  point := false
  tie := .away

namespace ConfigNote

def code : ConfigNote → String
  | noSchedule => "N001"
  | noPrompt => "N002"
  | temperature _ => "N002"
  | noTool => "N003"
  | noExpression => "N004"
  | noIterations => "N005"
  | noStop _ => "N006"
  | noSource => "N007"
  | noQuery => "N007"
  | noMembers => "N008"
  | unnamedMember => "N008"
  | repeatedMember _ => "N008"
  | outputField _ => "N009"

def message : ConfigNote → String
  | noSchedule => "Schedule trigger must define a schedule"
  | noPrompt => "Agent prompt is empty; the agent will only see its system prompt"
  | temperature t => "Agent temperature " ++ plainLayout.write t ++ " is outside 0.0..=2.0"
  | noTool => "Tool call must name a tool"
  | noExpression => "Condition expression must not be empty"
  | noIterations => "Feedback loop maxIterations must be at least 1"
  | noStop n =>
    "Feedback loop has no stop condition; it always runs " ++ toString n ++ " iteration(s)"
  | noSource => "Retrieval source must not be empty"
  | noQuery => "Retrieval query must not be empty"
  | noMembers => "Multi-agent team must have at least one member"
  | unnamedMember => "Team member name must not be empty"
  | repeatedMember name => "Duplicate team member '" ++ name ++ "'"
  | outputField name => "Output field name '" ++ name ++ "' is empty or repeated"

def toDiagnostic (id : String) (n : ConfigNote) : Diagnostic :=
  { severity := .warning, code := n.code, phase := .validate, message := n.message,
    nodeId := some id }

end ConfigNote

namespace Check

open ConfigNote

/-- A note if the text has nothing to see. -/
def needText (text : String) (note : ConfigNote) : List ConfigNote :=
  if Text.isEmptyOrBlank text then [note] else []

/-- Goes through the names of a team's members with those seen so far. -/
def memberNotes : List String → List String → List ConfigNote
  | _, [] => []
  | seen, name :: rest =>
    if Text.isEmptyOrBlank name then unnamedMember :: memberNotes seen rest
    else if seen.contains name then repeatedMember name :: memberNotes seen rest
    else memberNotes (name :: seen) rest

/-- Goes through the names of output fields with those seen so far. -/
def fieldNotes : List String → List String → List ConfigNote
  | _, [] => []
  | seen, name :: rest =>
    if Text.isEmptyOrBlank name || seen.contains name then
      outputField name :: fieldNotes seen rest
    else fieldNotes (name :: seen) rest

/-- The rules for a node of each kind. -/
def kindNotes : Config → List ConfigNote
  | .trigger c =>
    if c.triggerType == .schedule then needText (c.schedule.getD "") noSchedule else []
  | .agent c =>
    needText c.prompt noPrompt ++
      match c.temperature with
      | some t => if 0 ≤ t && t ≤ 2 then [] else [temperature t]
      | none => []
  | .toolCall c => needText c.tool noTool
  | .condition c => needText c.expression noExpression
  | .parallel _ => []
  | .feedbackLoop c =>
    (if c.maxIterations < 1 then [noIterations] else []) ++
      needText c.stopCondition (noStop c.maxIterations)
  | .retrieval c => needText c.source noSource ++ needText c.query noQuery
  | .team c =>
    (if c.members.isEmpty then [noMembers] else []) ++ memberNotes [] (c.members.map Member.name)

/-- All that is to be said about the configuration of a node. -/
def configNotes (n : Node) : List ConfigNote :=
  kindNotes n.config ++
    match n.outputFields? with
    | some fields => fieldNotes [] (fields.map OutputField.name)
    | none => []

/-- The warnings about the configuration of a node. -/
def nodeDiagnostics (n : Node) : List Diagnostic :=
  (configNotes n).map (ConfigNote.toDiagnostic n.id)

end Check

end Flowscript
