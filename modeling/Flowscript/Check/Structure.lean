/-
Rules on the shape of a workflow.

`structuralFaults` lists every violation, rule after rule.
-/
import Flowscript.Diagnostic
import Flowscript.Graph.Search

namespace Flowscript

/-- A violation of a rule on the shape. -/
inductive ShapeFault
  | triggerCount (count : Nat)
  | unknownSource (edge : Edge)
  | unknownTarget (edge : Edge)
  | repeatedEdge (id : String)
  | repeatedNode (id : String)
  /-- The edge from `source` to `target` closes a cycle without a feedback loop. -/
  | unguardedCycle (edge source target : String)
  | unreachable (id : String)
  | enteredTrigger (id : String)
  | conditionEdges (id : String) (count : Nat)
  | conditionLabels (id : String)
  | parallelEdges (id : String) (count : Nat)
  | slotMissing (id edge : String)
  | slotRepeated (id slot edge : String)
  | selfLoop (edge : Edge)
  | strayBranch (edge : Edge) (kind : Kind)
  | straySlot (edge : Edge) (kind : Kind)
  deriving DecidableEq, Repr

namespace ShapeFault

def code : ShapeFault → String
  | triggerCount _ => "V001"
  | unknownSource _ => "V002"
  | unknownTarget _ => "V002"
  | repeatedEdge _ => "V003"
  | repeatedNode _ => "V011"
  | unguardedCycle _ _ _ => "V004"
  | unreachable _ => "V005"
  | enteredTrigger _ => "V006"
  | conditionEdges _ _ => "V008"
  | conditionLabels _ => "V008"
  | parallelEdges _ _ => "V009"
  | slotMissing _ _ => "V009"
  | slotRepeated _ _ _ => "V009"
  | selfLoop _ => "V010"
  | strayBranch _ _ => "V014"
  | straySlot _ _ => "V014"

/-- A stray mark on an edge does no harm; all else is an error. -/
def severity : ShapeFault → Severity
  | strayBranch _ _ => .warning
  | straySlot _ _ => .warning
  | _ => .error

def message : ShapeFault → String
  | triggerCount n => "Workflow must have exactly 1 trigger node, found " ++ toString n
  | unknownSource e => "Edge '" ++ e.id ++ "' references unknown source node '" ++ e.source ++ "'"
  | unknownTarget e => "Edge '" ++ e.id ++ "' references unknown target node '" ++ e.target ++ "'"
  | repeatedEdge id => "Duplicate edge id '" ++ id ++ "'"
  | repeatedNode id => "Duplicate node id '" ++ id ++ "'"
  | unguardedCycle e u v =>
    "Accidental cycle: edge '" ++ e ++ "' from '" ++ u ++ "' back to '" ++ v ++
      "' closes a cycle that passes through no feedback loop node"
  | unreachable id => "Node '" ++ id ++ "' is not reachable from the trigger"
  | enteredTrigger id => "Trigger node '" ++ id ++ "' must not have incoming edges"
  | conditionEdges id n =>
    "Condition node '" ++ id ++ "' must have exactly 2 outgoing edges (true/false), found " ++
      toString n
  | conditionLabels id =>
    "Condition node '" ++ id ++ "' outgoing edges must carry branchLabel 'true' and 'false'"
  | parallelEdges id n =>
    "Parallel node '" ++ id ++ "' must have at least 2 outgoing edges, found " ++ toString n
  | slotMissing id e => "Edge '" ++ e ++ "' leaving parallel node '" ++ id ++ "' has no outputSlot"
  | slotRepeated id slot _ =>
    "Parallel node '" ++ id ++ "' uses outputSlot '" ++ slot ++ "' more than once"
  | selfLoop e => "Self-loop detected on node '" ++ e.source ++ "'"
  | strayBranch e k =>
    "branchLabel on edge '" ++ e.id ++ "' is ignored: source '" ++ e.source ++ "' is a " ++
      k.name ++ " node"
  | straySlot e k =>
    "outputSlot on edge '" ++ e.id ++ "' is ignored: source '" ++ e.source ++ "' is a " ++
      k.name ++ " node"

def node? : ShapeFault → Option String
  | triggerCount _ => none
  | unknownSource _ => none
  | unknownTarget _ => none
  | repeatedEdge _ => none
  | repeatedNode id => some id
  | unguardedCycle _ _ v => some v
  | unreachable id => some id
  | enteredTrigger id => some id
  | conditionEdges id _ => some id
  | conditionLabels id => some id
  | parallelEdges id _ => some id
  | slotMissing id _ => some id
  | slotRepeated id _ _ => some id
  | selfLoop e => some e.source
  | strayBranch e _ => some e.source
  | straySlot e _ => some e.source

def edge? : ShapeFault → Option String
  | unknownSource e => some e.id
  | unknownTarget e => some e.id
  | repeatedEdge id => some id
  | unguardedCycle e _ _ => some e
  | slotMissing _ e => some e
  | slotRepeated _ _ e => some e
  | selfLoop e => some e.id
  | strayBranch e _ => some e.id
  | straySlot e _ => some e.id
  | _ => none

def toDiagnostic (f : ShapeFault) : Diagnostic :=
  { severity := f.severity, code := f.code, phase := .validate, message := f.message,
    nodeId := f.node?, edgeId := f.edge? }

end ShapeFault

namespace Check

open ShapeFault

/-- There is exactly one trigger. -/
def oneTrigger (w : Workflow) : List ShapeFault :=
  let n := w.nodes.countP Node.isTrigger
  if n = 1 then [] else [triggerCount n]

/-- Both ends of an edge are nodes of the workflow. -/
def knownEndpoints (w : Workflow) (g : Graph) : List ShapeFault :=
  w.edges.flatMap fun e =>
    (if g.contains e.source then [] else [unknownSource e]) ++
      (if g.contains e.target then [] else [unknownTarget e])

/-- No two edges have one id. -/
def distinctEdges (w : Workflow) : List ShapeFault :=
  (repetitions [] (w.edges.map Edge.id)).map repeatedEdge

/-- No two nodes have one id. -/
def distinctNodes (w : Workflow) : List ShapeFault :=
  (repetitions [] (w.nodes.map Node.id)).map repeatedNode

/-- Whether the first node of an id is a feedback loop. -/
def isGuard (w : Workflow) (id : String) : Bool :=
  (w.node? id).any Node.isFeedbackLoop

/-- With the feedback loops taken out no cycle may be left. -/
def guardedCycles (w : Workflow) (g : Graph) : List ShapeFault :=
  let unguarded := fun id => !isGuard w id
  let next := fun id => (g.nextNewest id).filter unguarded
  let back := (g.trace next (g.ids.filter unguarded)).retreating.reverse
  (distinct back).map fun (u, v) =>
    unguardedCycle (((g.between? u v).map fun l => l.edge.id).getD "") u v

/-- Nothing is said about a workflow without any trigger. -/
def reachableNodes (w : Workflow) (g : Graph) : List ShapeFault :=
  let triggers := (w.nodes.filter Node.isTrigger).map Node.id
  if triggers.isEmpty then []
  else
    let found := g.reach g.nextNewest triggers
    (g.ids.filter fun id => !found.contains id).map unreachable

/-- No edge leads to a trigger. -/
def freeTriggers (w : Workflow) (g : Graph) : List ShapeFault :=
  (w.nodes.filter fun n => n.isTrigger && !(g.incoming n.id).isEmpty).map fun n =>
    enteredTrigger n.id

/-- A condition has two edges, one for each outcome. -/
def conditionOutcomes (w : Workflow) (g : Graph) : List ShapeFault :=
  (w.nodes.filter fun n => n.kind == .condition).flatMap fun n =>
    let links := g.outgoing n.id
    if links.length ≠ 2 then [conditionEdges n.id links.length]
    else
      let labels := links.map fun l => l.edge.branch
      if labels.contains (some true) && labels.contains (some false) then []
      else [conditionLabels n.id]

/-- The slot of an edge without blanks around it; none if nothing is left. -/
def slotOf (e : Edge) : Option String :=
  (e.slot.map Text.trim).filter fun s => !s.isEmpty

/-- Goes through the edges of a parallel node with the slots seen so far. -/
def slotFaults (id : String) : List String → List Edge → List ShapeFault
  | _, [] => []
  | seen, e :: rest =>
    match slotOf e with
    | none => slotMissing id e.id :: slotFaults id seen rest
    | some slot =>
      if seen.contains slot then slotRepeated id slot e.id :: slotFaults id seen rest
      else slotFaults id (slot :: seen) rest

/-- A parallel node has at least two edges, each in a slot of its own. -/
def parallelSlots (w : Workflow) (g : Graph) : List ShapeFault :=
  (w.nodes.filter fun n => n.kind == .parallel).flatMap fun n =>
    let links := g.outgoing n.id
    (if links.length < 2 then [parallelEdges n.id links.length] else []) ++
      slotFaults n.id [] (links.map Link.edge)

/-- No edge leads from a node to itself. -/
def selfLoops (w : Workflow) : List ShapeFault :=
  (w.edges.filter fun e => e.source == e.target).map selfLoop

/-- The kind of the last node of an id. -/
def kindOf? (w : Workflow) (id : String) : Option Kind :=
  (w.nodes.reverse.find? fun n => n.id == id).map Node.kind

/-- Branches belong to the edges of conditions, and slots to those of parallel nodes. -/
def strayMarks (w : Workflow) : List ShapeFault :=
  w.edges.flatMap fun e =>
    match kindOf? w e.source with
    | none => []
    | some kind =>
      (if e.branch.isSome && kind != .condition then [strayBranch e kind] else []) ++
        (if e.slot.isSome && kind != .parallel then [straySlot e kind] else [])

/-- All violations of the rules on the shape. -/
def structuralFaults (w : Workflow) (g : Graph) : List ShapeFault :=
  oneTrigger w ++ knownEndpoints w g ++ distinctEdges w ++ distinctNodes w ++
    guardedCycles w g ++ reachableNodes w g ++ freeTriggers w g ++ conditionOutcomes w g ++
    parallelSlots w g ++ selfLoops w ++ strayMarks w

end Check

end Flowscript
