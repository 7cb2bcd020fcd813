/-
Workflows and compile requests as JSON values, every field written out.
-/
import Flowscript.Workflow.Read

namespace Flowscript

open Json

def Json.Value.ofNat (n : Nat) : Value := .number (.integer n)

def Json.Value.ofReal (x : Float) : Value := .number (.real x)

def Position.toJson (p : Position) : Value :=
  .object [("x", Value.ofReal p.x), ("y", Value.ofReal p.y)]

def OutputField.toJson (f : OutputField) : Value :=
  .object [("name", .string f.name), ("type", .string f.type)]

/-- The declared fields, or null. -/
def OutputField.listToJson (fields : Option (List OutputField)) : Value :=
  Value.ofOption (fun fs => .array (fs.map OutputField.toJson)) fields

def Member.toJson (m : Member) : Value :=
  .object
    [ ("name", .string m.name),
      ("role", Value.ofOption .string m.role),
      ("model", Value.ofOption .string m.model),
      ("instructions", Value.ofOption .string m.instructions) ]

/-- The fields of a configuration. -/
def Config.members : Config → List (String × Value)
  | .trigger c =>
    [ ("triggerType", .string c.triggerType.name),
      ("schedule", Value.ofOption .string c.schedule),
      ("inputSchema", c.inputSchema.getD .null) ]
  | .agent c =>
    [ ("model", Value.ofOption .string c.model),
      ("systemPrompt", Value.ofOption .string c.systemPrompt),
      ("prompt", .string c.prompt),
      ("tools", .array (c.tools.map .string)),
      ("temperature", Value.ofOption .ofReal c.temperature),
      ("maxTokens", Value.ofOption .ofNat c.maxTokens),
      ("outputFields", OutputField.listToJson c.outputFields) ]
  | .toolCall c =>
    [ ("tool", .string c.tool),
      ("arguments", .object (c.arguments.map fun (n, t) => (n, .string t))),
      ("outputFields", OutputField.listToJson c.outputFields) ]
  | .condition c =>
    [ ("expression", .string c.expression),
      ("trueLabel", .string c.trueLabel),
      ("falseLabel", .string c.falseLabel) ]
  | .parallel c => [("mergeStrategy", .string c.merge.name)]
  | .feedbackLoop c =>
    [ ("maxIterations", Value.ofNat c.maxIterations),
      ("stopCondition", .string c.stopCondition) ]
  | .retrieval c =>
    [ ("source", .string c.source),
      ("query", .string c.query),
      ("topK", Value.ofOption .ofNat c.topK),
      ("outputFields", OutputField.listToJson c.outputFields) ]
  | .team c =>
    [ ("strategy", .string c.strategy.name),
      ("task", .string c.task),
      ("members", .array (c.members.map Member.toJson)),
      ("maxRounds", Value.ofOption .ofNat c.maxRounds),
      ("outputFields", OutputField.listToJson c.outputFields) ]

/-- A position that is not set is left out. -/
def Node.toJson (n : Node) : Value :=
  .object
    ([("kind", .string n.kind.name), ("id", .string n.id)] ++
      (n.position.toList.map fun p => ("position", p.toJson)) ++
      [("data", .object (("label", Value.ofOption .string n.label) :: n.config.members))])

def Edge.toJson (e : Edge) : Value :=
  .object
    [ ("id", .string e.id),
      ("sourceNodeId", .string e.source),
      ("targetNodeId", .string e.target),
      ("branchLabel", Value.ofOption (fun b => .string (branchName b)) e.branch),
      ("outputSlot", Value.ofOption .string e.slot) ]

def Workflow.members (w : Workflow) : List (String × Value) :=
  [ ("nodes", .array (w.nodes.map Node.toJson)),
    ("edges", .array (w.edges.map Edge.toJson)) ]

def Workflow.toJson (w : Workflow) : Value := .object w.members

def Request.toJson (r : Request) : Value :=
  .object (r.workflow.members ++ [("options", r.options.toJson)])

end Flowscript
