/-
Breadth-first and depth-first search.

A search is given the neighbours of a vertex as a list, and follows them in
the order of that list.  Breadth-first search marks a vertex when it leaves
the queue, so a vertex may wait in the queue more than once; the number of
steps is bounded by the number of vertices and links that can enter the queue.
Depth-first search sorts every link it follows: the target is new, or still
open (the link goes back), or done.
-/
import Flowscript.Graph.Basic

namespace Flowscript

variable {α : Type} [DecidableEq α]

/-- Visits the vertices of a queue and their neighbours behind them; `seen` are done already. -/
def breadthFirst (next : α → List α) : Nat → List α → List α → List α
  | 0, _, _ => []
  | _ + 1, [], _ => []
  | steps + 1, v :: queue, seen =>
    if v ∈ seen then breadthFirst next steps queue seen
    else v :: breadthFirst next steps (queue ++ next v) (v :: seen)

/-- The course of a depth-first search so far. -/
structure Trace (α : Type) where
  /-- Vertices in the order of their discovery, the latest first. -/
  discovered : List α := []
  /-- Vertices whose neighbours are all done. -/
  finished : List α := []
  /-- Links to a vertex that was still open, the latest first; a link from a vertex to itself is
  not among them. -/
  retreating : List (α × α) := []

/-- What following the link from `u` to `v` does. -/
def Trace.follow (visit : α → Trace α → Trace α) (u : α) (t : Trace α) (v : α) : Trace α :=
  if v ∉ t.discovered then visit v t
  else if v ∉ t.finished ∧ u ≠ v then { t with retreating := (u, v) :: t.retreating }
  else t

/-- Visits a vertex and all that can be reached from it and is not yet discovered. -/
def depthFirst (next : α → List α) : Nat → α → Trace α → Trace α
  | 0, _, t => t
  | depth + 1, u, t =>
    if u ∈ t.discovered then t
    else
      let t := { t with discovered := u :: t.discovered }
      let t := (next u).foldl (Trace.follow (depthFirst next depth) u) t
      { t with finished := u :: t.finished }

namespace Graph

/-- All that can be reached from some vertices, in breadth-first order. -/
def reach (g : Graph) (next : String → List String) (starts : List String) : List String :=
  breadthFirst next (starts.length + g.links.length + 1) starts []

/-- Depth-first search from several vertices, one after the other. -/
def trace (g : Graph) (next : String → List String) (starts : List String) : Trace String :=
  starts.foldl (fun t u => depthFirst next (g.ids.length + 1) u t) {}

end Graph

end Flowscript
