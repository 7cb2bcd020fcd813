/-
The order of dependence: every node after the nodes that its forward links
come from, and among those that could come next the one with the smallest id.

The state of the computation counts, for each vertex, the forward links whose
source is not placed yet.  A vertex is ready when none is left.
-/
import Flowscript.Check

namespace Flowscript

namespace Order

/-- A stage of the ordering. -/
structure Stage where
  /-- How many forward links each vertex still waits for. -/
  waiting : List (String × Nat)
  /-- Vertices that wait for nothing and are not placed. -/
  ready : List String
  /-- Placed vertices, in order. -/
  placed : List String

/-- The smallest text of a list. -/
def smallest? : List String → Option String
  | [] => none
  | a :: as =>
    match smallest? as with
    | none => some a
    | some b => if b < a then some b else some a

/-- Takes one link into account whose source was placed. -/
def release (s : Stage) (target : String) : Stage :=
  match s.waiting.lookup target with
  | none => s
  | some n =>
    let waiting := s.waiting.map fun (id, k) => if id = target then (id, k - 1) else (id, k)
    if n - 1 = 0 then { s with waiting, ready := target :: s.ready } else { s with waiting }

/-- Places vertices until none is ready. -/
def place (next : String → List String) : Nat → Stage → Stage
  | 0, s => s
  | steps + 1, s =>
    match smallest? s.ready with
    | none => s
    | some id =>
      let s := { s with ready := s.ready.erase id, placed := s.placed ++ [id] }
      place next steps ((next id).foldl release s)

/-- The vertices that wait for nothing are ready, and none is placed. -/
def start (ids : List String) (count : String → Nat) : Stage where
  waiting := ids.map fun id => (id, count id)
  ready := ids.filter fun id => count id = 0
  placed := []

end Order

/-- The nodes in order of dependence; what is left on a cycle comes last, by id. -/
def Accepted.order (a : Accepted) : List String :=
  let next := fun id => (a.forwardOut id).map Link.target
  let first := Order.start a.graph.ids fun id => (a.forwardIn id).length
  let placed := (Order.place next a.graph.ids.length first).placed
  placed ++ sortTexts (a.graph.ids.filter fun id => !placed.contains id)

end Flowscript
