/-
What a node can refer to.

* `leadingTo_eq` — the search against the links finds a vertex first and then, each once, the other
  vertices that lead to it;
* `refers_iff` — so a node can refer to exactly the other nodes that lead to it.
-/
import Flowscript.Proofs.Acceptance
import Flowscript.Reference.Ancestor

open Relation

namespace Flowscript

namespace Graph

theorem leadingTo_eq {g : Graph} {v : String} (hv : v ∈ g.ids) :
    ∃ rest, g.leadingTo v = v :: rest ∧ v ∉ rest ∧
      ∀ u, u ∈ v :: rest ↔ ReflTransGen g.Next u v := by
  have hfollows : ∀ x y, Follows (fun v => (g.incoming v).map Link.source) y x ↔ g.Next x y := by
    intro x y
    simp only [Follows, List.mem_map, mem_incoming, Next, and_assoc]
    exact exists_congr fun l => and_congr_right fun _ => and_comm
  have hleading : g.leadingTo v = g.reach (fun v => (g.incoming v).map Link.source) [v] :=
    if_pos (List.contains_iff_mem.mpr hv)
  have hmem : ∀ u, u ∈ g.leadingTo v ↔ ReflTransGen g.Next u v := by
    intro u
    have hlength : ∀ x, ((g.incoming x).map Link.source).length ≤
        g.links.countP fun l => l.target = x :=
      fun x => Nat.le_of_eq ((List.length_map _).trans (length_incoming x))
    rw [hleading, mem_reach Link.target hlength]
    simp only [List.mem_singleton, exists_eq_left]
    -- the search goes against the links
    rw [← reflTransGen_swap]
    exact ⟨ReflTransGen.mono (fun x y h => (hfollows x y).mp h) _ _,
      ReflTransGen.mono (fun x y h => (hfollows x y).mpr h) _ _⟩
  have hnodup : (g.leadingTo v).Nodup := hleading ▸ breadthFirst_nodup.1
  obtain ⟨rest, hrest⟩ : ∃ rest, g.leadingTo v = v :: rest := by
    rw [hleading, reach, breadthFirst, if_neg List.not_mem_nil]
    exact ⟨_, rfl⟩
  rw [hrest] at hmem hnodup
  exact ⟨rest, hrest, (List.nodup_cons.mp hnodup).1, hmem⟩

end Graph

namespace Workflow

variable {w : Workflow}

/-- The node `u` is one of those that `v` can refer to. -/
def Refers (w : Workflow) (v u : String) : Prop :=
  ∃ x ∈ w.ancestors v, x.isInput = false ∧ x.nodeId = u

/-- An ancestor other than the input is a node that the search finds. -/
theorem node_of_ancestor {v : String} {x : Ancestor} (hx : x ∈ w.ancestors v)
    (hinput : x.isInput = false) : (∃ n ∈ w.nodes, n.id = x.nodeId) ∧
      x.nodeId ∈ ((Graph.ofWorkflow w).leadingTo v).drop 1 := by
  rcases List.mem_append.mp hx with hx | hx
  · obtain ⟨y, hy, hx⟩ := List.mem_filterMap.mp hx
    obtain ⟨n, hn, rfl⟩ := Option.map_eq_some_iff.mp hx
    obtain ⟨hmem, rfl⟩ := Workflow.node?_eq_some hn
    exact ⟨⟨n, hmem, rfl⟩, hy⟩
  · rw [List.mem_singleton.mp hx] at hinput
    exact absurd hinput (by decide)

theorem mem_ids_of_ancestor {v : String} {x : Ancestor} (hx : x ∈ w.ancestors v)
    (hinput : x.isInput = false) : x.nodeId ∈ (Graph.ofWorkflow w).ids :=
  Graph.mem_ids.mpr (node_of_ancestor hx hinput).1

theorem refers_iff {v u : String} (hv : v ∈ (Graph.ofWorkflow w).ids) :
    w.Refers v u ↔ u ≠ v ∧ ReflTransGen (Graph.ofWorkflow w).Next u v := by
  obtain ⟨rest, hrest, hnew, hmem⟩ := Graph.leadingTo_eq hv
  constructor
  · rintro ⟨x, hx, hinput, rfl⟩
    have hfound := (node_of_ancestor hx hinput).2
    rw [hrest, List.drop_one, List.tail_cons] at hfound
    exact ⟨fun heq => hnew (heq ▸ hfound), (hmem _).mp (List.mem_cons_of_mem _ hfound)⟩
  · rintro ⟨hne, hway⟩
    have hu := (List.mem_cons.mp ((hmem u).mpr hway)).resolve_left hne
    obtain ⟨x, hux, -⟩ := hway.cases_head.resolve_left hne
    obtain ⟨n, hn⟩ := exists_node (Graph.next_mem hux).1
    refine ⟨Ancestor.ofNode n, List.mem_append_left _ (List.mem_filterMap.mpr ⟨u, ?_, ?_⟩), rfl,
      (Workflow.node?_eq_some hn).2⟩
    · rwa [hrest, List.drop_one, List.tail_cons]
    · rw [hn, Option.map_some]

end Workflow

end Flowscript
