/-
The cycles that a search from the trigger finds.

The loop analysis gathers the links that a depth-first search finds to go back by their target, the
entry of a cycle; their sources are its tails.  `Cycle.Found` is all that is known of such a cycle,
whatever the order of the search (`found_of_search`):

* `Found.mem_cycle` — its vertices are the entry and what leads to a tail past the entry;
* `Found.exists_step_into` — the entry leads to one of the others;
* `Found.exists_guard`, `Found.headOf?_isSome` — in a well-shaped workflow a feedback loop is on it,
  so it has a head;
* `Found.bypassed_iff` — the trigger leads into it past the entry exactly if it so leads to a tail.
-/
import Flowscript.Proofs.Acceptance
import Flowscript.Proofs.Dominance
import Flowscript.Proofs.Loop

open Relation

namespace Flowscript

namespace Check

/-- The tails of a cycle lead to its entry and can be reached from it. -/
structure Cycle.Found (g : Graph) (c : Cycle) : Prop where
  tail : ∃ u, u ∈ c.tails
  next : ∀ u ∈ c.tails, g.Next u c.entry
  ne : ∀ u ∈ c.tails, u ≠ c.entry
  way : ∀ u ∈ c.tails, ReflTransGen g.Next c.entry u

variable {w : Workflow} {t : Node}

theorem found_of_search {next : String → List String}
    (hnext : ∀ u v, v ∈ next u ↔ (Graph.ofWorkflow w).Next u v) (ht : w.trigger? = some t)
    {c : Cycle} (hc : c ∈ cyclesOf ((Graph.ofWorkflow w).trace next [t.id]).retreating.reverse) :
    c.Found (Graph.ofWorkflow w) := by
  obtain ⟨hs, -⟩ := Graph.trace_sorted_of_root hnext (fun _ _ huv => (Graph.next_mem huv).2)
    (trigger_mem_ids ht)
  have hback : ∀ u ∈ c.tails, (u, c.entry) ∈
      ((Graph.ofWorkflow w).trace next [t.id]).retreating :=
    fun u hu => List.mem_reverse.mp ((mem_cyclesOf hc).mp hu)
  refine ⟨exists_tail hc, fun u hu => ?_, fun u hu => ?_, fun u hu => ?_⟩
  · exact (hnext u c.entry).mp (hs.back u c.entry (hback u hu)).2.1
  · exact (hs.back u c.entry (hback u hu)).2.2.1
  · exact ReflTransGen.mono (fun x y hxy => (hnext x y).mp hxy.1) _ _
      (hs.back u c.entry (hback u hu)).2.2.2

namespace Cycle.Found

variable {g : Graph} {c : Cycle}

theorem entry_notMem (hc : c.Found g) : c.entry ∉ c.tails := fun hmem => hc.ne _ hmem rfl

theorem mem_cycle (hc : c.Found g) {v : String} : v ∈ g.cycle c.entry c.tails ↔
    v = c.entry ∨ ∃ u ∈ c.tails, ReflTransGen (g.Past c.entry) v u :=
  Graph.mem_cycle hc.entry_notMem

/-- The entry of a cycle leads into it. -/
theorem exists_step_into (hc : c.Found g) :
    ∃ v, g.Next c.entry v ∧ v ≠ c.entry ∧
      ∃ u ∈ c.tails, ReflTransGen (g.Past c.entry) v u := by
  obtain ⟨u, hu⟩ := hc.tail
  obtain ⟨v, hv, hve, hvu⟩ := Graph.exists_first_step (hc.way u hu) (hc.ne u hu)
  exact ⟨v, hv, hve, u, hu, hvu⟩

section WellShaped

variable (hw : w.WellShaped) (hc : c.Found (Graph.ofWorkflow w))
include hw hc

theorem exists_guard : ∃ v ∈ (Graph.ofWorkflow w).cycle c.entry c.tails, isGuard w v = true := by
  by_contra hcon
  have hfree : ∀ v ∈ (Graph.ofWorkflow w).cycle c.entry c.tails, isGuard w v = false := by
    intro v hv
    exact Bool.eq_false_iff.mpr fun hg => hcon ⟨v, hv, hg⟩
  obtain ⟨rank, hrank⟩ := hw.unguarded_rank
  obtain ⟨v, hev, -, u, hu, hvu⟩ := hc.exists_step_into
  have hentry := hfree c.entry (hc.mem_cycle.mpr (.inl rfl))
  have hon : ∀ x, ReflTransGen ((Graph.ofWorkflow w).Past c.entry) x u → isGuard w x = false :=
    fun x hx => hfree x (hc.mem_cycle.mpr (.inr ⟨u, hu, hx⟩))
  -- round the cycle the numbering would go up all the way
  have hup : rank v ≤ rank u := by
    clear hev
    induction hvu using ReflTransGen.head_induction_on with
    | refl => exact Nat.le_refl _
    | head hxy hyu ih =>
      exact Nat.le_of_lt (Nat.lt_of_lt_of_le
        (hrank _ _ hxy.1 (hon _ (.head hxy hyu)) (hon _ hyu)) ih)
  have h1 := hrank c.entry v hev hentry (hon v hvu)
  have h2 := hrank u c.entry (hc.next u hu) (hon u .refl) hentry
  omega

theorem headOf?_isSome :
    (headOf? w c.entry ((Graph.ofWorkflow w).cycle c.entry c.tails)).isSome := by
  rw [headOf?]
  split
  · rfl
  · obtain ⟨v, hv, hg⟩ := exists_guard hw hc
    rw [List.isSome_head?]
    exact List.ne_nil_of_mem (mem_sortedSet.mpr (List.mem_filter.mpr ⟨hv, hg⟩))

/-- Nothing leads to the trigger, so it is neither the entry of a cycle nor a tail. -/
theorem trigger_ne (ht : w.trigger? = some t) : t.id ≠ c.entry ∧ t.id ∉ c.tails := by
  constructor
  · intro heq
    obtain ⟨u, hu⟩ := hc.tail
    exact hw.no_link_to_trigger ht (heq ▸ hc.next u hu)
  · intro hmem
    obtain ⟨v, -, -, hv⟩ := Graph.exists_last_step (hc.way _ hmem) (hc.ne _ hmem).symm
    exact hw.no_link_to_trigger ht hv

/-- A way past the entry leads from the trigger to a vertex of the cycle if one leads to a tail. -/
theorem bypassed_iff (ht : w.trigger? = some t) :
    (∃ v ∈ (Graph.ofWorkflow w).reachWithout t.id c.entry,
        v ≠ t.id ∧ v ∈ (Graph.ofWorkflow w).cycle c.entry c.tails) ↔
      ∃ u ∈ c.tails, ReflTransGen ((Graph.ofWorkflow w).Past c.entry) t.id u := by
  obtain ⟨hroot, htail⟩ := trigger_ne hw hc ht
  constructor
  · rintro ⟨v, hv, -, hmem⟩
    have hway := (Graph.mem_reachWithout hroot).mp hv
    obtain ⟨u, hu, hvu⟩ := (hc.mem_cycle.mp hmem).resolve_left (Graph.ne_of_past hway hroot)
    exact ⟨u, hu, hway.trans hvu⟩
  · rintro ⟨u, hu, hway⟩
    refine ⟨u, (Graph.mem_reachWithout hroot).mpr hway, ?_, hc.mem_cycle.mpr (.inr ⟨u, hu, .refl⟩)⟩
    rintro rfl
    exact htail hu

end WellShaped

end Cycle.Found

end Check

end Flowscript
