/-
Workflows: the nodes and edges of a canvas.

A node is of one of eight kinds, and each kind has a configuration of its own.
An edge may carry the outcome of a condition (`branch`) or the name of an
output of a parallel node (`slot`).
-/
import Flowscript.Json.Value
import Flowscript.Text.Basic

namespace Flowscript

/-- Where a node is drawn. -/
structure Position where
  x : Float
  y : Float
  deriving DecidableEq, Repr, Inhabited

/-- A value that a node offers to the nodes after it. -/
structure OutputField where
  name : String
  type : String := "string"
  deriving DecidableEq, Repr, Inhabited

/-- What starts a workflow. -/
inductive TriggerType
  | manual
  | webhook
  | schedule
  deriving DecidableEq, Repr, Inhabited

/-- Where a workflow starts. -/
structure Trigger where
  triggerType : TriggerType := .manual
  schedule : Option String := none
  /-- Any JSON value, its objects ordered by name. -/
  inputSchema : Option Json.Value := none
  deriving Repr, Inhabited

/-- A call of a language model. -/
structure Agent where
  model : Option String := none
  systemPrompt : Option String := none
  prompt : String := ""
  tools : List String := []
  temperature : Option Float := none
  maxTokens : Option Nat := none
  outputFields : Option (List OutputField) := none
  deriving Repr, Inhabited

/-- A call of a tool with named arguments. -/
structure ToolCall where
  tool : String := ""
  /-- Templates by argument name, in the order of the names. -/
  arguments : List (String × String) := []
  outputFields : Option (List OutputField) := none
  deriving Repr, Inhabited

/-- A choice between two ways, by an expression. -/
structure Condition where
  expression : String := ""
  trueLabel : String := "true"
  falseLabel : String := "false"
  deriving Repr, Inhabited

/-- How the arms of a parallel node come together: all of them, or the first to settle. -/
inductive Merge
  | all
  | first
  deriving DecidableEq, Repr, Inhabited

/-- Several ways at the same time. -/
structure Parallel where
  merge : Merge := .all
  deriving Repr, Inhabited

/-- Repeats a part of the workflow until a condition holds, so many times at most. -/
structure FeedbackLoop where
  maxIterations : Nat := 0
  stopCondition : String := ""
  deriving Repr, Inhabited

/-- A query to a source of documents. -/
structure Retrieval where
  source : String := ""
  query : String := ""
  topK : Option Nat := none
  outputFields : Option (List OutputField) := none
  deriving Repr, Inhabited

/-- How the members of a team work together. -/
inductive TeamStrategy
  | coordinator
  | roundRobin
  | debate
  | mapReduce
  deriving DecidableEq, Repr, Inhabited

/-- A member of a team. -/
structure Member where
  name : String := ""
  role : Option String := none
  model : Option String := none
  instructions : Option String := none
  deriving Repr, Inhabited

/-- A task for several members. -/
structure Team where
  strategy : TeamStrategy := .coordinator
  task : String := ""
  members : List Member := []
  maxRounds : Option Nat := none
  outputFields : Option (List OutputField) := none
  deriving Repr, Inhabited

/-- The kinds of nodes. -/
inductive Kind
  | trigger
  | agent
  | toolCall
  | condition
  | parallel
  | feedbackLoop
  | retrieval
  | team
  deriving DecidableEq, Repr, Inhabited

/-- The kind of a node with all that is configured for it. -/
inductive Config
  | trigger (config : Trigger)
  | agent (config : Agent)
  | toolCall (config : ToolCall)
  | condition (config : Condition)
  | parallel (config : Parallel)
  | feedbackLoop (config : FeedbackLoop)
  | retrieval (config : Retrieval)
  | team (config : Team)
  deriving Repr, Inhabited

def Config.kind : Config → Kind
  | .trigger _ => .trigger
  | .agent _ => .agent
  | .toolCall _ => .toolCall
  | .condition _ => .condition
  | .parallel _ => .parallel
  | .feedbackLoop _ => .feedbackLoop
  | .retrieval _ => .retrieval
  | .team _ => .team

/-- A step of a workflow. -/
structure Node where
  id : String
  position : Option Position := none
  label : Option String := none
  config : Config
  deriving Repr, Inhabited

/-- Leads from one node to another, maybe for one outcome of a condition or in a slot of a parallel
node. -/
structure Edge where
  id : String
  source : String
  target : String
  branch : Option Bool := none
  slot : Option String := none
  deriving DecidableEq, Repr, Inhabited

/-- Nodes and the edges between them, as they are given: ids may repeat, and edges may name unknown
nodes. -/
structure Workflow where
  nodes : List Node := []
  edges : List Edge := []
  deriving Repr, Inhabited

/-! ### Names in texts -/

def Kind.names : List (String × Kind) :=
  [("trigger", .trigger), ("agent", .agent), ("toolCall", .toolCall), ("condition", .condition),
    ("parallel", .parallel), ("feedbackLoop", .feedbackLoop), ("retrieval", .retrieval),
    ("multiAgentTeam", .team)]

def Kind.name : Kind → String
  | .trigger => "trigger"
  | .agent => "agent"
  | .toolCall => "toolCall"
  | .condition => "condition"
  | .parallel => "parallel"
  | .feedbackLoop => "feedbackLoop"
  | .retrieval => "retrieval"
  | .team => "multiAgentTeam"

def TriggerType.names : List (String × TriggerType) :=
  [("manual", .manual), ("webhook", .webhook), ("schedule", .schedule)]

def TriggerType.name : TriggerType → String
  | .manual => "manual"
  | .webhook => "webhook"
  | .schedule => "schedule"

def Merge.names : List (String × Merge) := [("all", .all), ("first", .first)]

def Merge.name : Merge → String
  | .all => "all"
  | .first => "first"

def TeamStrategy.names : List (String × TeamStrategy) :=
  [("coordinator", .coordinator), ("round_robin", .roundRobin), ("debate", .debate),
    ("map_reduce", .mapReduce)]

def TeamStrategy.name : TeamStrategy → String
  | .coordinator => "coordinator"
  | .roundRobin => "round_robin"
  | .debate => "debate"
  | .mapReduce => "map_reduce"

/-- The outcomes of a condition as an edge names them. -/
def branchNames : List (String × Bool) := [("true", true), ("false", false)]

def branchName (b : Bool) : String := if b then "true" else "false"

/-! ### Nodes -/

namespace Node

def kind (n : Node) : Kind := n.config.kind

def isTrigger (n : Node) : Bool := n.kind == .trigger

def isFeedbackLoop (n : Node) : Bool := n.kind == .feedbackLoop

/-- The label, or the id where there is no label to see. -/
def title (n : Node) : String :=
  match n.label with
  | some l => if Text.isEmptyOrBlank l then n.id else l
  | none => n.id

/-- The declared output fields, of a kind that can declare them, if there are any. -/
def outputFields? (n : Node) : Option (List OutputField) :=
  let declared :=
    match n.config with
    | .agent c => c.outputFields
    | .toolCall c => c.outputFields
    | .retrieval c => c.outputFields
    | .team c => c.outputFields
    | _ => none
  declared.filter fun fields => !fields.isEmpty

/-- The names that a reference to the node can use: `output` where nothing is declared. -/
def fieldNames (n : Node) : List String :=
  match n.outputFields? with
  | some fields => fields.map (·.name)
  | none => ["output"]

end Node

namespace Workflow

/-- The first node of an id. -/
def node? (w : Workflow) (id : String) : Option Node := w.nodes.find? fun n => n.id == id

/-- The first trigger. -/
def trigger? (w : Workflow) : Option Node := w.nodes.find? Node.isTrigger

end Workflow

end Flowscript
