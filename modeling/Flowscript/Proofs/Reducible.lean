/-
The links back of an accepted workflow.

The loop analysis keeps the links that its search finds to go back to an open vertex, and leaves
out those of a cycle that it makes no loop of.  In an accepted workflow nothing is left out, and
the result does not depend on the search:

* `dominates_iff_isBack` — the links back are those to a node that is on every way from the trigger
  to their source;
* `back_iff_dominates` — moreover no cycle is left without them, and every depth-first search from
  the trigger finds just these links to go back.
-/
import Flowscript.Proofs.Sound

open Relation

namespace Flowscript

namespace Check

variable {w : Workflow} {a : Accepted} {t : Node} (h : check w = .ok a) (ht : w.trigger? = some t)
include h ht

theorem dominates_iff_isBack {l : Link} (hl : l ∈ (Graph.ofWorkflow w).links) :
    (Graph.ofWorkflow w).Dominates t.id l.target l.source ↔ a.loops.isBack l = true := by
  constructor
  · intro hdom
    exact isBack_of_retreating h ht hl (retreating_of_dominates h ht ⟨l, hl, rfl, rfl⟩ hdom)
  · intro hback
    obtain ⟨L, hL, htarget, hsource⟩ := (isBack_iff h ht hl).mp hback
    obtain ⟨c, hc, hm⟩ := makes_of_mem h ht hL
    rw [htarget, Graph.dominates_iff]
    exact .inr ((natural_of_makes h ht hc hm).dominated _ hsource)

/-- Whatever the order in which a search from the trigger follows the links, it finds those to a
dominator to go back. -/
theorem mem_retreating_of_check {next : String → List String}
    (hnext : ∀ u v, v ∈ next u ↔ (Graph.ofWorkflow w).Next u v) {u v : String} :
    (u, v) ∈ ((Graph.ofWorkflow w).trace next [t.id]).retreating ↔
      (Graph.ofWorkflow w).Next u v ∧ (Graph.ofWorkflow w).Dominates t.id v u := by
  have hne : ∀ x, ¬(Graph.ofWorkflow w).Next x x := by
    rintro x ⟨l, hl, hsource, htarget⟩
    exact (wellShaped_of_check h).source_ne_target hl (hsource.trans htarget.symm)
  obtain ⟨rank, hrank⟩ := exists_rank h ht
  have hup : ∀ x y, (Graph.ofWorkflow w).Next x y → ¬(Graph.ofWorkflow w).Dominates t.id y x →
      rank x < rank y := by
    rintro x y ⟨l, hl, rfl, rfl⟩ hdom
    refine hrank _ _ ⟨l, (check_ok h).2.1 ▸ hl, ?_, rfl, rfl⟩
    rw [dominates_iff_isBack h ht hl] at hdom
    exact Bool.eq_false_iff.mpr hdom
  exact Graph.mem_retreating_iff hnext (fun x y hxy => (Graph.next_mem hxy).2)
    (trigger_mem_ids ht) hne
    (fun x y hxy => (wellShaped_of_check h).reach_of_trigger ht (Graph.next_mem hxy).1) hup

end Check

/-- In an accepted workflow every edge is a link of the graph.  The links back are exactly those
whose target dominates their source, the other links make no cycle, and a depth-first search from
the trigger finds the same links to go back in whatever order it follows them. -/
theorem back_iff_dominates {w : Workflow} {a : Accepted} (h : check w = .ok a) :
    a.graph.links.map Link.edge = w.edges ∧
    ∃ t, w.trigger? = some t ∧
      (∀ l ∈ a.graph.links,
        (a.loops.isBack l = true ↔ a.graph.Dominates t.id l.target l.source)) ∧
      (∀ v, ¬TransGen a.Forward v v) ∧
      ∀ next : String → List String, (∀ u, (next u).Perm (a.graph.nextNewest u)) →
        ∀ l ∈ a.graph.links,
          (a.loops.isBack l = true ↔
            (l.source, l.target) ∈ (a.graph.trace next [t.id]).retreating) := by
  obtain ⟨t, ht, -⟩ := trigger_unique h
  have hgraph := (check_ok h).2.1
  refine ⟨?_, t, ht, ?_, ?_, ?_⟩
  · rw [hgraph]
    exact Graph.edges_of_links (wellShaped_of_check h).endpoints
  · intro l hl
    rw [hgraph] at hl ⊢
    exact (Check.dominates_iff_isBack h ht hl).symm
  · intro v hv
    obtain ⟨rank, hrank⟩ := Check.exists_rank h ht
    have hup : ∀ x, TransGen a.Forward v x → rank v < rank x := by
      intro x hx
      induction hx with
      | single hvx => exact hrank _ _ hvx
      | tail _ hyz ih => exact Nat.lt_trans ih (hrank _ _ hyz)
    exact Nat.lt_irrefl _ (hup v hv)
  · intro next hnext l hl
    rw [hgraph] at hl hnext ⊢
    have hsame : ∀ u v, v ∈ next u ↔ (Graph.ofWorkflow w).Next u v :=
      fun u v => (hnext u).mem_iff.trans Graph.mem_nextNewest
    rw [Check.mem_retreating_of_check h ht hsame, ← Check.dominates_iff_isBack h ht hl]
    exact ⟨fun hdom => ⟨⟨l, hl, rfl, rfl⟩, hdom⟩, fun hboth => hboth.2⟩

/-- A text is polished in a loop of its own inside the loop that decides on it; the outer loop is
entered ahead of its head. -/
def essayFlow : Workflow where
  nodes :=
    [ { id := "start", config := .trigger {} },
      { id := "outline", config := .agent { prompt := "outline" } },
      { id := "refine", config := .feedbackLoop { maxIterations := 2, stopCondition := "done" } },
      { id := "polish", config := .agent { prompt := "polish" } },
      { id := "accept", config := .feedbackLoop { maxIterations := 3, stopCondition := "good" } },
      { id := "publish", config := .agent { prompt := "publish" } } ]
  edges :=
    [ { id := "e1", source := "start", target := "outline" },
      { id := "e2", source := "outline", target := "refine" },
      { id := "e3", source := "refine", target := "polish" },
      { id := "e4", source := "polish", target := "refine" },
      { id := "e5", source := "refine", target := "accept" },
      { id := "e6", source := "accept", target := "outline" },
      { id := "e7", source := "accept", target := "publish" } ]

/-- Of the seven edges two go back.  A search that follows the oldest link first, and not the
newest, finds the same two. -/
theorem back_links_essayFlow : ∃ a, check essayFlow = .ok a ∧
    (a.graph.links.filter a.loops.isBack).map (fun l => l.edge.id) = ["e4", "e6"] ∧
    (∀ l ∈ a.graph.links, (a.loops.isBack l = true ↔ a.graph.Dominates "start" l.target l.source)) ∧
    (∀ v, ¬TransGen a.Forward v v) ∧
    ∀ l ∈ a.graph.links, (a.loops.isBack l = true ↔ (l.source, l.target) ∈
      (a.graph.trace (fun u => (a.graph.outgoing u).map Link.target) ["start"]).retreating) := by
  obtain ⟨a, ha, hback⟩ : ∃ a, check essayFlow = .ok a ∧
      (a.graph.links.filter a.loops.isBack).map (fun l => l.edge.id) = ["e4", "e6"] :=
    exists_check_ok (by decide +kernel)
  obtain ⟨-, t, ht, hdom, hacyclic, hsearch⟩ := back_iff_dominates ha
  have hstart : essayFlow.trigger?.map Node.id = some "start" := by decide +kernel
  rw [ht] at hstart
  rw [Option.some.inj hstart] at hdom hsearch
  refine ⟨a, ha, hback, hdom, hacyclic, hsearch _ fun u => ?_⟩
  rw [Graph.nextNewest, List.map_reverse]
  exact (List.reverse_perm _).symm

end Flowscript
