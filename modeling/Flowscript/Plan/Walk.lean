/-
From an accepted workflow to a tree of blocks.

Planning walks forward from the trigger.  The arms of a condition, and the
several successors of a plain node, stop at the node where they come together,
which is planned once behind them.  The arms of a parallel node run at the same
time, so they stop at every node that two of them lead to; those are planned
behind the merge.  A node is planned when all nodes that lead to it by forward
links are, so the order of the plan respects what depends on what.

`blockFrom` is given the nodes at which it has to stop and the body of the loop
it is in (`Scope`), and what was planned so far (`Progress`).  Each call that
calls itself marks a node first; the depth it is given bounds the nesting.
-/
import Flowscript.Order
import Flowscript.Plan.Audit

namespace Flowscript

/-- What a plan tells the user about its shape. -/
inductive PlanNote
  | reachedAgain (node : String)
  | joinPostponed (node : String)
  | loopExit (node loop : String)
  | emptyArm (slot parallel target : String)
  | race (node parallel : String)
  deriving DecidableEq, Repr

namespace PlanNote

def code : PlanNote → String
  | reachedAgain _ => "L001"
  | joinPostponed _ => "L001"
  | loopExit _ _ => "L002"
  | emptyArm _ _ _ => "L003"
  | race _ _ => "L004"

def severity : PlanNote → Severity
  | race _ _ => .warning
  | _ => .info

def message : PlanNote → String
  | reachedAgain node =>
    "Node '" ++ node ++ "' is reached again after it was emitted; the later path reuses its result"
  | joinPostponed node =>
    "Node '" ++ node ++ "' joins paths of different depth; it runs after its last predecessor"
  | loopExit node loop =>
    "Node '" ++ node ++ "' is reached from inside feedback loop '" ++ loop ++
      "' and runs after the loop finishes"
  | emptyArm slot parallel target =>
    "Arm '" ++ slot ++ "' of parallel '" ++ parallel ++ "' is empty; '" ++ target ++
      "' runs outside it and the arm is left out of the merge"
  | race node parallel =>
    "Node '" ++ node ++ "' runs after parallel '" ++ parallel ++
      "' settles on its first arm; the other arms may still be running"

def node : PlanNote → String
  | reachedAgain node => node
  | joinPostponed node => node
  | loopExit node _ => node
  | emptyArm _ parallel _ => parallel
  | race node _ => node

def toDiagnostic (n : PlanNote) : Diagnostic :=
  { severity := n.severity, code := n.code, phase := .plan, message := n.message,
    nodeId := some n.node }

end PlanNote

namespace Plan

/-- Where planning is: what stays the same while a part of the tree is built. -/
structure Scope where
  /-- Nodes that a block further out will plan. -/
  reserved : List String := []
  /-- The body of the innermost loop. -/
  within : Option (List String) := none

/-- How far planning has come. -/
structure Progress where
  planned : List String := []
  /-- Nodes that were reached before they could be planned. -/
  waiting : List String := []
  /-- Nodes outside the innermost loop that were reached from inside it. -/
  outside : List String := []
  notes : List PlanNote := []

namespace Progress

/-- A node counts as planned. -/
def mark (p : Progress) (id : String) : Progress := { p with planned := id :: p.planned }

/-- One more note. -/
def note (p : Progress) (n : PlanNote) : Progress := { p with notes := p.notes ++ [n] }

/-- A node outside the loop is kept for later, once. -/
def leave (p : Progress) (id : String) : Progress :=
  if p.outside.contains id then p else { p with outside := p.outside ++ [id] }

/-- A node that is not ready is noted, once. -/
def postpone (p : Progress) (id : String) : Progress :=
  if p.waiting.contains id then p
  else { p with waiting := id :: p.waiting, notes := p.notes ++ [.joinPostponed id] }

end Progress

/-- Plans from a node on. -/
abbrev Walk := Scope → String → Progress → Block × Progress

/-- Plans from each of several nodes. -/
def walkEach (walk : Walk) (scope : Scope) : List String → Progress → List Block × Progress
  | [], p => ([], p)
  | id :: ids, p =>
    let (block, p) := walk scope id p
    let (blocks, p) := walkEach walk scope ids p
    (block :: blocks, p)

/-- What forward links lead to, without going on behind reserved nodes. -/
def forwardReach (a : Accepted) (scope : Scope) (id : String) : List String :=
  a.graph.reach
    (fun v => if scope.reserved.contains v then [] else (a.forwardOut v).map Link.target) [id]

/-- The first node in the order that all arms lead to. -/
def meeting? (a : Accepted) (order : List String) (scope : Scope) (arms : List String) :
    Option String :=
  let reaches := arms.map (forwardReach a scope)
  order.find? fun id => reaches.all fun r => r.contains id

/-- The nodes that two arms lead to and no block further out will plan, in order. -/
def common (a : Accepted) (order : List String) (scope : Scope) (arms : List String) :
    List String :=
  let reaches := arms.map (forwardReach a scope)
  order.filter fun id =>
    1 < reaches.countP (fun r => r.contains id) && !scope.reserved.contains id

/-- Those of some nodes that no forward link from another of them leads to. -/
def earliest (a : Accepted) (nodes : List String) : List String :=
  nodes.filter fun id => !(a.forwardIn id).any fun l => nodes.contains l.source

/-- The links that leave a node, by target and then by edge. -/
def outByTarget (a : Accepted) (id : String) : List Link :=
  let le := fun (l m : Link) =>
    (compareText l.target m.target).then (compareText l.edge.id m.edge.id) != .gt
  sortBy le (a.graph.outgoing id)

/-- The links that leave a parallel node, by slot, then by edge, then by target. -/
def outBySlot (a : Accepted) (id : String) : List Link :=
  let slot := fun (l : Link) => l.edge.slot.getD ""
  let le := fun (l m : Link) =>
    ((compareText (slot l) (slot m)).then (compareText l.edge.id m.edge.id)).then
      (compareText l.target m.target) != .gt
  sortBy le (a.graph.outgoing id)

/-- Whether all nodes that lead to a node by forward links are planned. -/
def isDue (a : Accepted) (p : Progress) (id : String) : Bool :=
  (a.forwardIn id).all fun l => p.planned.contains l.source

/-- Plans arms up to the node where they come together, and then that node. -/
def armsFrom (a : Accepted) (order : List String) (walk : Walk) (scope : Scope)
    (arms : List String) (p : Progress) : List Block × Block × Progress :=
  match if arms.length > 1 then meeting? a order scope arms else none with
  | none =>
    let (blocks, p) := walkEach walk scope arms p
    (blocks, .done, p)
  | some meeting =>
    let (blocks, p) := walkEach walk { scope with reserved := scope.reserved ++ [meeting] } arms p
    let (next, p) := walk scope meeting p
    (blocks, next, p)

/-- Plans what comes behind a node. -/
def behind (a : Accepted) (order : List String) (walk : Walk) (scope : Scope)
    (targets : List String) (p : Progress) : Block × Progress :=
  match distinct targets with
  | [] => (.done, p)
  | [only] => walk scope only p
  | targets =>
    let (blocks, next, p) := armsFrom a order walk scope targets p
    (.fork blocks next, p)

/-- A condition: its two arms, and what they lead to together.  An outcome without a link has no arm. -/
def branchAt (a : Accepted) (order : List String) (walk : Walk) (scope : Scope)
    (id : String) (p : Progress) : Block × Progress :=
  let links := a.graph.outgoing id
  let target := fun b => (links.find? fun l => l.edge.branch == some b).map Link.target
  match target true, target false with
  | some t, some f =>
    match armsFrom a order walk scope [t, f] p with
    | ([onTrue, onFalse], next, p) => (.branch id onTrue onFalse next, p)
    | (_, next, p) => (.branch id .done .done next, p)
  | some t, none =>
    let (onTrue, p) := walk scope t p
    (.branch id onTrue .done .done, p)
  | none, some f =>
    let (onFalse, p) := walk scope f p
    (.branch id .done onFalse .done, p)
  | none, none => (.branch id .done .done .done, p)

/-- What is to be said about the arms of a parallel node once they are planned. -/
def fanNotes (a : Accepted) (id : String) (merge : Merge) (shared : List String)
    (arms : List (Link × Block)) : List PlanNote :=
  let (idle, running) := arms.partition fun (_, b) => b.owned.isEmpty
  let inArms := running.flatMap fun (_, b) => b.owned
  (idle.map fun (l, _) => .emptyArm (l.edge.slot.getD "") id l.target) ++
    if merge = .first ∧ 1 < running.length then
      (shared.filter fun node => (a.graph.incoming node).any fun l => inArms.contains l.source).map
        fun node => .race node id
    else []

/-- A parallel node: its arms up to the nodes that two of them lead to, which come behind the merge. -/
def fanAt (a : Accepted) (order : List String) (walk : Walk) (scope : Scope) (id : String)
    (merge : Merge) (p : Progress) : Block × Progress :=
  let links := outBySlot a id
  let targets := links.map Link.target
  let shared := common a order scope targets
  let (blocks, p) := walkEach walk { scope with reserved := scope.reserved ++ shared } targets p
  let p := { p with notes := p.notes ++ fanNotes a id merge shared (links.zip blocks) }
  let (next, p) := behind a order walk scope (earliest a shared) p
  let arms := (links.map fun l => l.edge.slot.getD "").zip blocks
  (.fan id arms merge next, p)

/-- A feedback loop: its body, and behind it all that leaves the loop from the head or from the body. -/
def loopAt (a : Accepted) (order : List String) (walk : Walk) (scope : Scope) (id : String)
    (config : FeedbackLoop) (p : Progress) : Block × Progress :=
  match a.loops.get? id with
  | none => (.seq id .done, p)
  | some loop =>
    let inner : Scope := { reserved := scope.reserved ++ [id], within := some loop.body }
    let (body, q) := walk inner loop.bodyEntry { p with outside := [] }
    let leaving := q.outside
    let q := { q with
      outside := p.outside
      notes := q.notes ++ leaving.map fun node => .loopExit node id }
    let own := ((outByTarget a id).map Link.target).filter fun t => !loop.body.contains t
    let (next, q) := behind a order walk scope (own ++ leaving) q
    (.loop id body config.maxIterations config.stopCondition next, q)

/-- The feedback loop whose cycle is entered at a node ahead of its head, unless the loop is
being planned. -/
def loopAhead? (a : Accepted) (scope : Scope) (id : String) : Option (String × FeedbackLoop) :=
  match a.loops.entered? id with
  | none => none
  | some loop =>
    if scope.reserved.contains loop.head then none
    else
      match (a.node? loop.head).map Node.config with
      | some (.feedbackLoop config) => some (loop.head, config)
      | _ => none

/-- Plans a node that is marked already, by its kind. -/
def blockAt (a : Accepted) (order : List String) (walk : Walk) (scope : Scope) (id : String)
    (p : Progress) : Block × Progress :=
  let plain := fun (p : Progress) =>
    let (next, p) := behind a order walk scope ((outByTarget a id).map Link.target) p
    (Block.seq id next, p)
  match (a.node? id).map Node.config with
  | some (.condition _) => branchAt a order walk scope id p
  | some (.parallel config) => fanAt a order walk scope id config.merge p
  | some (.feedbackLoop config) =>
    if (a.loops.get? id).any fun l => l.entry == id then
      loopAt a order walk scope id config p
    else plain p
  | _ => plain p

/-- Plans from a node on, with calls of itself nested at most `depth` deep. -/
def blockFrom (a : Accepted) (order : List String) : Nat → Walk
  | 0, _, _, p => (.done, p)
  | depth + 1, scope, id, p =>
    if scope.reserved.contains id then (.done, p)
    else if scope.within.any fun body => !body.contains id then (.done, p.leave id)
    else if p.planned.contains id then (.visited id, p.note (.reachedAgain id))
    else if !isDue a p id then (.done, p.postpone id)
    else
      match loopAhead? a scope id with
      | some (head, config) =>
        loopAt a order (blockFrom a order depth) scope head config (p.mark head)
      | none => blockAt a order (blockFrom a order depth) scope id (p.mark id)

end Plan

/-- A tree of blocks and what is to be said about it. -/
structure Plan where
  block : Block
  diagnostics : List Diagnostic

/-- Plans an accepted workflow from its trigger. -/
def Accepted.plan (a : Accepted) : Plan :=
  match a.workflow.trigger? with
  | none => ⟨.done, []⟩
  | some trigger =>
    let depth := 2 * a.graph.ids.length + 2
    let (block, p) := Plan.blockFrom a a.order depth {} trigger.id {}
    { block
      diagnostics := p.notes.map PlanNote.toDiagnostic ++
        (block.faults a.graph.ids).map PlanFault.toDiagnostic }

end Flowscript
