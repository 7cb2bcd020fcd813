/-
Feedback loops of a workflow.

A depth-first search from the trigger finds the links that go back to a vertex
still open.  The vertex they go back to is the entry of a cycle, and the cycle
is the entry with every vertex that leads to the source of such a link without
passing the entry.  A feedback loop node on the cycle is its head: the entry if
that is one, else the one with the smallest id.  The body of the loop is the
cycle without its head.
-/
import Flowscript.Check.Structure

namespace Flowscript

/-- A cycle with the feedback loop that heads it. -/
structure Loop where
  head : String
  /-- Where the cycle is entered from the trigger. -/
  entry : String
  /-- The ids of the cycle without the head, in order. -/
  body : List String
  /-- The first node of each round. -/
  bodyEntry : String
  /-- The links back to the entry. -/
  backLinks : List Link
  deriving DecidableEq, Repr, Inhabited

/-- A violation of a rule on feedback loops. -/
inductive LoopFault
  /-- The node is on the cycle, but the entry is not on every way to it. -/
  | bypass (node head entry : String)
  | bodyEdges (head : String) (count : Nat)
  | detour (head entry target : String)
  | secondCycle (head : String)
  | noBackLink (head : String)
  deriving DecidableEq, Repr

namespace LoopFault

def code : LoopFault → String
  | bypass _ _ _ => "V013"
  | _ => "V012"

def message : LoopFault → String
  | bypass node head entry =>
    "Node '" ++ node ++ "' lies on the cycle of feedback loop '" ++ head ++
      "' but can be reached without passing through '" ++ entry ++ "'"
  | bodyEdges head n =>
    "Feedback loop '" ++ head ++ "' must have exactly one body edge, found " ++ toString n
  | detour head entry target =>
    "Feedback loop '" ++ head ++ "' must route straight back to '" ++ entry ++
      "', found an edge to '" ++ target ++ "'"
  | secondCycle head => "Feedback loop '" ++ head ++ "' closes more than one cycle"
  | noBackLink head =>
    "Feedback loop '" ++ head ++ "' has no back-edge; nothing routes back into it"

def node : LoopFault → String
  | bypass node _ _ => node
  | bodyEdges head _ => head
  | detour head _ _ => head
  | secondCycle head => head
  | noBackLink head => head

def toDiagnostic (f : LoopFault) : Diagnostic :=
  { severity := .error, code := f.code, phase := .validate, message := f.message,
    nodeId := some f.node }

end LoopFault

/-- The loops of a workflow, each with a head of its own. -/
structure Loops where
  loops : List Loop := []
  deriving Repr, Inhabited

namespace Loops

/-- The loop of a head. -/
def get? (ls : Loops) (head : String) : Option Loop := ls.loops.find? fun l => l.head == head

/-- The loop that is entered at a node other than its head. -/
def entered? (ls : Loops) (id : String) : Option Loop :=
  ls.loops.find? fun l => l.entry == id && l.head != id

/-- The loops in the order of their heads. -/
def byHead (ls : Loops) : List Loop :=
  sortBy (fun a b => compareText a.head b.head != .gt) ls.loops

/-- Whether a link goes back to the entry of a loop. -/
def isBack (ls : Loops) (link : Link) : Bool :=
  ls.loops.any fun l => l.backLinks.any fun b => b.index == link.index

/-- How many links go back. -/
def backLinkCount (ls : Loops) : Nat := (ls.loops.flatMap Loop.backLinks).length

end Loops

namespace Graph

/-- The entry with every vertex that leads to one of `tails` without passing it. -/
def cycle (g : Graph) (entry : String) (tails : List String) : List String :=
  let next := fun id => ((g.incoming id).map Link.source).filter (· ≠ entry)
  entry :: g.reach next tails

/-- What can be reached from `start` when `blocked` is taken out of the graph. -/
def reachWithout (g : Graph) (start blocked : String) : List String :=
  g.reach (fun id => (g.nextNewest id).filter (· ≠ blocked)) [start]

end Graph

namespace Check

open LoopFault

/-- A cycle as the search from the trigger found it. -/
structure Cycle where
  entry : String
  /-- The sources of the links back to the entry. -/
  tails : List String

/-- The cycles closed by links that go back, by their entries in order. -/
def cyclesOf (retreating : List (String × String)) : List Cycle :=
  (sortedSet (retreating.map Prod.snd)).map fun entry =>
    ⟨entry, distinct ((retreating.filter fun r => r.2 == entry).map Prod.fst)⟩

/-- The head of a cycle, if a feedback loop is on it. -/
def headOf? (w : Workflow) (entry : String) (cycle : List String) : Option String :=
  if isGuard w entry then some entry else (sortedSet (cycle.filter (isGuard w))).head?

/-- The first node of each round, or why there is none. -/
def bodyEntryOf (g : Graph) (head entry : String) (body : List String) :
    Option String × List LoopFault :=
  let inBody := ((g.outgoing head).map Link.target).filter fun t => body.contains t
  if head = entry then
    (inBody.head?, if inBody.length > 1 then [bodyEdges head inBody.length] else [])
  else
    match inBody.filter fun t => t ≠ entry with
    | [] => (some entry, [])
    | t :: _ => (none, [detour head entry t])

/-- Takes one cycle into the loops found so far. -/
def addCycle (w : Workflow) (g : Graph) (trigger : String) (found : Loops × List LoopFault)
    (c : Cycle) : Loops × List LoopFault :=
  let (loops, faults) := found
  let cycle := g.cycle c.entry c.tails
  match headOf? w c.entry cycle with
  | none => (loops, faults)
  | some head =>
    let body := sortedSet (cycle.filter (· ≠ head))
    let bypassed := (g.reachWithout trigger c.entry).filter fun id =>
      id ≠ trigger && cycle.contains id
    let faults := faults ++ bypassed.map fun id => bypass id head c.entry
    match bodyEntryOf g head c.entry body with
    | (none, more) => (loops, faults ++ more)
    | (some bodyEntry, more) =>
      if (loops.get? head).isSome then (loops, faults ++ more ++ [secondCycle head])
      else
        let backLinks := g.links.filter fun l => c.tails.contains l.source && l.target == c.entry
        let loop : Loop := { head, entry := c.entry, body, bodyEntry, backLinks }
        (⟨loops.loops ++ [loop]⟩, faults ++ more)

/-- The loops of a workflow and the violations of the rules on them. -/
def findLoops (w : Workflow) (g : Graph) : Loops × List LoopFault :=
  match w.trigger? with
  | none => ({}, [])
  | some trigger =>
    let t := g.trace g.nextNewest [trigger.id]
    let (loops, faults) :=
      (cyclesOf t.retreating.reverse).foldl (addCycle w g trigger.id) ({}, [])
    let idle := w.nodes.filter fun n =>
      n.isFeedbackLoop && t.discovered.contains n.id && (loops.get? n.id).isNone
    (loops, faults ++ idle.map fun n => noBackLink n.id)

end Check

end Flowscript
