/-
The nodes that a node can refer to come nearest first.

A node can refer to the nodes that lead to it along edges between known nodes, and behind them to
the value that the program is called with.  Here the edges are taken as they were drawn:

* `Workflow.sources_eq` — the sources of the links into a vertex are those of the edges, in order;
* `Workflow.steps_distance` — the distance from a node to another is the length of a way;
* `ancestors_nearest_first` — the nodes are found in the order of a breadth-first search that marks
  a node when it enters the queue, and so sorted by their distance.
-/
import Flowscript.Proofs.Breadth
import Flowscript.Proofs.Reference.Ancestor
import Mathlib.Order.Lattice.Nat

open Relation

namespace Flowscript

namespace Workflow

variable {w : Workflow} {id u v : String}

/-- The nodes from which an edge leads to a node, in the order of the edges; an edge that names an
unknown node does not count. -/
def sources (w : Workflow) (id : String) : List String :=
  (w.edges.filter fun e => e.target = id ∧ e.source ∈ w.nodes.map Node.id ∧
    e.target ∈ w.nodes.map Node.id).map Edge.source

/-- An edge leads from `u` to `v`, and both are nodes of the workflow. -/
def Feeds (w : Workflow) (u v : String) : Prop := u ∈ w.sources v

/-- There is a way of `n` edges from `u` to `v`. -/
def Steps (w : Workflow) : Nat → String → String → Prop
  | 0, u, v => u = v
  | n + 1, u, v => ∃ x, w.Feeds u x ∧ w.Steps n x v

/-- The length of a shortest way. -/
noncomputable def distance (w : Workflow) (u v : String) : Nat := sInf {n | w.Steps n u v}

/-! ### Sources -/

theorem sources_eq (w : Workflow) (id : String) :
    w.sources id = ((Graph.ofWorkflow w).incoming id).map Link.source := by
  have hedge : ((Graph.ofWorkflow w).incoming id).map Link.source =
      (((Graph.ofWorkflow w).links.map Link.edge).filter fun e => e.target == id).map
        Edge.source := by
    rw [List.filter_map, List.map_map]
    rfl
  rw [hedge, Graph.map_edge_links, List.filter_filter, sources]
  congr 1
  refine List.filter_congr fun e _ => ?_
  simp [Graph.mem_ids, Bool.beq_eq_decide_eq]

theorem length_sources (w : Workflow) (id : String) :
    (w.sources id).length ≤ (Graph.ofWorkflow w).links.countP fun l => l.target = id := by
  rw [sources_eq, List.length_map, Graph.length_incoming]

theorem Feeds.known (h : w.Feeds u v) :
    u ∈ w.nodes.map Node.id ∧ v ∈ w.nodes.map Node.id := by
  obtain ⟨e, he, rfl⟩ := List.mem_map.mp h
  obtain ⟨rfl, hsource, htarget⟩ := of_decide_eq_true (List.mem_filter.mp he).2
  exact ⟨hsource, htarget⟩

/-! ### Distance -/

theorem exists_steps (h : ReflTransGen (Follows w.sources) v u) : ∃ n, w.Steps n u v := by
  induction h with
  | refl => exact ⟨0, rfl⟩
  | tail _ hfeeds ih =>
    obtain ⟨n, hn⟩ := ih
    exact ⟨n + 1, _, hfeeds, hn⟩

theorem reach_of_steps {n : Nat} (h : w.Steps n u v) : ReflTransGen (Follows w.sources) v u := by
  induction n generalizing u with
  | zero => exact h ▸ .refl
  | succ n ih =>
    obtain ⟨x, hfeeds, hx⟩ := h
    exact (ih hx).tail hfeeds

theorem steps_distance (h : ReflTransGen (Follows w.sources) v u) :
    w.Steps (w.distance u v) u v :=
  Nat.sInf_mem (exists_steps h)

/-- The distance to a node measures how far a search against the edges has to go. -/
theorem measures_distance (w : Workflow) (id : String) :
    Frontier.Measures w.sources id fun u => w.distance u id := by
  refine ⟨fun hu hv => Nat.sInf_le ⟨_, hv, steps_distance hu⟩, fun {v} hv hne => ?_⟩
  have hsteps := steps_distance hv
  cases hn : w.distance v id with
  | zero =>
    rw [hn] at hsteps
    exact absurd hsteps hne
  | succ n =>
    rw [hn] at hsteps
    obtain ⟨x, hfeeds, hx⟩ := hsteps
    exact ⟨x, reach_of_steps hx, hfeeds, Nat.lt_succ_of_le (Nat.sInf_le hx)⟩

/-! ### The search -/

/-- The search against the edges finds the node that it starts from and then the others. -/
theorem reach_sources (w : Workflow) (id : String) :
    (Graph.ofWorkflow w).reach w.sources [id] =
      id :: ((Graph.ofWorkflow w).leadingTo id).drop 1 := by
  have hfirst : (Graph.ofWorkflow w).reach w.sources [id] = id :: breadthFirst w.sources
      ([id].length + (Graph.ofWorkflow w).links.length) (w.sources id) [id] := by
    rw [Graph.reach, breadthFirst, if_neg List.not_mem_nil, List.nil_append]
  have hsources : w.sources = fun v => ((Graph.ofWorkflow w).incoming v).map Link.source :=
    funext (sources_eq w)
  rw [Graph.leadingTo]
  split
  · rw [← hsources, hfirst, List.drop_one, List.tail_cons]
  · rename_i hid
    -- no edge between known nodes leads to an unknown one
    have hnone : w.sources id = [] := by
      refine List.eq_nil_iff_forall_not_mem.mpr fun u hu => hid ?_
      simpa [Graph.contains] using (Feeds.known hu).2
    rw [hfirst, hnone, Nat.add_comm, List.length_singleton, breadthFirst]
    rfl

theorem mem_reach_sources :
    u ∈ (Graph.ofWorkflow w).reach w.sources [id] ↔ ReflTransGen w.Feeds u id := by
  rw [Graph.mem_reach Link.target (length_sources w), ← reflTransGen_swap]
  simp only [List.mem_singleton, exists_eq_left]
  rfl

/-- The rows of nodes that are known, one for each. -/
theorem rows_eq {us : List String} (h : ∀ u ∈ us, u ∈ w.nodes.map Node.id) :
    (us.filterMap fun u => (w.node? u).map Ancestor.ofNode).map some =
      us.map fun u => (w.node? u).map Ancestor.ofNode := by
  rw [List.map_filterMap_some_eq_filter_map_isSome, List.filter_eq_self]
  rintro row hrow
  obtain ⟨u, hu, rfl⟩ := List.mem_map.mp hrow
  obtain ⟨n, hn⟩ := exists_node (Graph.mem_ids.mpr (List.mem_map.mp (h u hu)))
  rw [hn]
  rfl

end Workflow

/-- What a node can refer to, by the edges as they were drawn: exactly the other nodes that lead to
it, each once, sorted by their distance, in the order in which a breadth-first search that marks on
entry visits them; and then the input, which an unknown node sees alone. -/
theorem ancestors_nearest_first (w : Workflow) (id : String) :
    ∃ (found : List String) (rows : List Ancestor),
      w.ancestors id = rows ++ [Ancestor.input] ∧
      rows.map some = found.map (fun u => (w.node? u).map Ancestor.ofNode) ∧
      found.Nodup ∧ (∀ u, u ∈ found ↔ u ≠ id ∧ ReflTransGen w.Feeds u id) ∧
      found.Pairwise (fun u v => w.distance u id ≤ w.distance v id) ∧
      (∃ n, ((Frontier.step w.sources)^[n] (.start id)).queue = [] ∧
        ((Frontier.step w.sources)^[n] (.start id)).visited = id :: found) ∧
      (id ∉ w.nodes.map Node.id → w.ancestors id = [Ancestor.input]) := by
  have hreach := Workflow.reach_sources w id
  have hbound : 1 + (Graph.ofWorkflow w).links.length <
      [id].length + (Graph.ofWorkflow w).links.length + 1 := Nat.lt_succ_self _
  have hnodup : ((Graph.ofWorkflow w).reach w.sources [id]).Nodup := breadthFirst_nodup.1
  have hsorted := Frontier.breadthFirst_sorted (Workflow.length_sources w) hbound
    (Workflow.measures_distance w id)
  have hrun := Frontier.iterate_start (Workflow.length_sources w) hbound id
  rw [← Graph.reach, hreach] at hsorted hrun
  rw [hreach, List.nodup_cons] at hnodup
  have hmem : ∀ u, u ∈ ((Graph.ofWorkflow w).leadingTo id).drop 1 ↔
      u ≠ id ∧ ReflTransGen w.Feeds u id := by
    intro u
    rw [← Workflow.mem_reach_sources, hreach, List.mem_cons]
    constructor
    · exact fun hu => ⟨fun heq => hnodup.1 (heq ▸ hu), .inr hu⟩
    · exact fun hu => hu.2.resolve_left hu.1
  refine ⟨_, _, rfl, Workflow.rows_eq fun u hu => ?_, hnodup.2, hmem,
    (List.pairwise_cons.mp hsorted).2, ⟨_, hrun⟩, fun hid => ?_⟩
  · obtain ⟨hne, hway⟩ := (hmem u).mp hu
    obtain ⟨x, hfeeds, -⟩ := hway.cases_head.resolve_left hne
    exact hfeeds.known.1
  · have hnone : (Graph.ofWorkflow w).leadingTo id = [] := by
      refine if_neg fun hcontains => hid ?_
      simpa [Graph.contains] using hcontains
    rw [Workflow.ancestors, Workflow.ancestorsBy, hnone]
    rfl

end Flowscript
