/-
The loops of an accepted workflow.

The analysis makes a loop of every cycle that it finds and checks a few links of each.  Where it has
nothing to say against them, the loops are what a planner needs:

* `mem_backLinks_iff` — the links back of a loop are the links to its entry from where the entry is on
  every way from the trigger;
* `has_iff_way` — its cycle is the entry with all that leads to one of these links past the entry;
* `next_head_iff` — its head leads to one node of the body;
* `disjoint_or_within` — two loops are apart or nested;
* `loops_nest` — all of this together, and that every feedback loop heads one loop.
-/
import Flowscript.Proofs.Reducible

open Relation

namespace Flowscript

namespace Check

variable {w : Workflow} {a : Accepted} {t : Node} (h : check w = .ok a) (ht : w.trigger? = some t)
include h ht

section OneLoop

variable {L : Loop} (hL : L ∈ a.loops.loops)
include hL

/-- The links back of a loop are the links from its cycle to its entry. -/
theorem mem_backLinks {l : Link} : l ∈ L.backLinks ↔
    l ∈ (Graph.ofWorkflow w).links ∧ l.target = L.entry ∧ L.Has l.source := by
  obtain ⟨c, hc, hm⟩ := makes_of_mem h ht hL
  rw [hm.backLinks, List.mem_filter, Bool.and_eq_true, List.contains_iff_mem, beq_iff_eq, hm.entry]
  refine and_congr_right fun hl => ⟨?_, ?_⟩
  · rintro ⟨htail, htarget⟩
    exact ⟨htarget, ((natural_of_makes h ht hc hm).has_iff _).mpr (.inr ⟨_, htail, .refl⟩)⟩
  · rintro ⟨htarget, hsource⟩
    exact ⟨mem_tails h ht hc hm hsource ⟨l, hl, rfl, htarget.trans hm.entry.symm⟩, htarget⟩

theorem dominates_of_has {v : String} (hv : L.Has v) :
    (Graph.ofWorkflow w).Dominates t.id L.entry v := by
  obtain ⟨c, hc, hm⟩ := makes_of_mem h ht hL
  exact Graph.dominates_iff.mpr (.inr ((natural_of_makes h ht hc hm).dominated v hv))

theorem mem_backLinks_iff {l : Link} : l ∈ L.backLinks ↔ l ∈ (Graph.ofWorkflow w).links ∧
    l.target = L.entry ∧ (Graph.ofWorkflow w).Dominates t.id L.entry l.source := by
  rw [mem_backLinks h ht hL]
  refine and_congr_right fun hl => and_congr_right fun htarget =>
    ⟨dominates_of_has h ht hL, fun hdom => ?_⟩
  -- a link to a dominator goes back to some loop, and no other loop has this entry
  rw [← htarget] at hdom
  obtain ⟨M, hM, hentry, hsource⟩ :=
    (isBack_iff h ht hl).mp ((dominates_iff_isBack h ht hl).mp hdom)
  rwa [(loop_inj h ht hL hM).1 (htarget.symm.trans hentry)]

theorem has_iff_way {v : String} : L.Has v ↔ v = L.entry ∨
    ∃ l ∈ L.backLinks, ∃ p, (Graph.ofWorkflow w).Way v l.source p ∧ L.entry ∉ p := by
  obtain ⟨c, hc, hm⟩ := makes_of_mem h ht hL
  have hnat := natural_of_makes h ht hc hm
  rw [hnat.has_iff]
  constructor
  · rintro (rfl | ⟨u, hu, hway⟩)
    · exact .inl rfl
    · by_cases hv : v = L.entry
      · exact .inl hv
      · obtain ⟨l, hl, rfl, htarget⟩ := hnat.tail_next u hu
        refine .inr ⟨l, (mem_backLinks h ht hL).mpr ⟨hl, htarget, ?_⟩, ?_⟩
        · exact (hnat.has_iff _).mpr (.inr ⟨_, hu, .refl⟩)
        · exact Graph.exists_way_iff.mpr ⟨hv, hway⟩
  · rintro (rfl | ⟨l, hl, hway⟩)
    · exact .inl rfl
    · obtain ⟨hlinks, htarget, hsource⟩ := (mem_backLinks h ht hL).mp hl
      have htail := mem_tails h ht hc hm hsource ⟨l, hlinks, rfl, htarget⟩
      exact .inr ⟨_, htail, (Graph.exists_way_iff.mp hway).2⟩

/-- A head that is not the entry leads straight back to it. -/
theorem next_entry (hne : L.head ≠ L.entry) : (Graph.ofWorkflow w).Next L.head L.entry := by
  obtain ⟨c, hc, hm⟩ := makes_of_mem h ht hL
  have hnat := natural_of_makes h ht hc hm
  obtain ⟨u, hu, hway⟩ := ((hnat.has_iff _).mp (.inl rfl)).resolve_left hne
  rcases hway.cases_head with rfl | ⟨x, ⟨⟨l, hl, hsource, rfl⟩, -, hx⟩, hway⟩
  · exact hnat.tail_next _ hu
  · -- any other way to a tail would begin with a detour through the body
    obtain ⟨-, hunique, -, hback⟩ := bodyEntry_facts h ht hc hm
    have hbody : l.target ∈ L.body :=
      ((hnat.has_iff _).mpr (.inr ⟨u, hu, hway⟩)).resolve_left fun heq =>
        (wellShaped_of_check h).source_ne_target hl (hsource.trans heq.symm)
    exact absurd ((hunique l hl hsource hbody).trans (hback hne)) hx

theorem next_head_iff {v : String} :
    (Graph.ofWorkflow w).Next L.head v ∧ v ∈ L.body ↔ v = L.bodyEntry := by
  obtain ⟨c, hc, hm⟩ := makes_of_mem h ht hL
  obtain ⟨hmem, hunique, hnext, hback⟩ := bodyEntry_facts h ht hc hm
  constructor
  · rintro ⟨⟨l, hl, hsource, rfl⟩, hbody⟩
    exact hunique l hl hsource hbody
  · rintro rfl
    refine ⟨?_, hmem⟩
    by_cases heq : L.head = L.entry
    · exact hnext heq
    · rw [hback heq]
      exact next_entry h ht hL heq

end OneLoop

/-- Two loops have no node in common, or one of them has all nodes of the other. -/
theorem disjoint_or_within {L M : Loop} (hL : L ∈ a.loops.loops) (hM : M ∈ a.loops.loops)
    (hne : L ≠ M) :
    (∀ v, L.Has v → ¬M.Has v) ∨ (∀ v, L.Has v → M.Has v) ∨ ∀ v, M.Has v → L.Has v := by
  by_cases hcommon : ∃ v, L.Has v ∧ M.Has v
  · obtain ⟨v, hv, hv'⟩ := hcommon
    rcases (sound_of_check h).meets L hL M hM v hv hv' with hentry | hentry
    · exact .inr (.inr fun v hv => .inr (mem_body_of_inside h ht hL hM hne hentry hv))
    · exact .inr (.inl fun v hv => .inr (mem_body_of_inside h ht hM hL hne.symm hentry hv))
  · exact .inl fun v hv hv' => hcommon ⟨v, hv, hv'⟩

end Check

/-- The loops of an accepted workflow.  The cycle of each, its head together with its body, is the
entry with all nodes from which a way past the entry leads to a link back; the entry dominates it and
is the only way into it; and one node of the body follows the head.  Two cycles are disjoint or one
contains the other.  Every feedback loop is the head of one loop. -/
theorem loops_nest {w : Workflow} {a : Accepted} (h : check w = .ok a) :
    ∃ t, w.trigger? = some t ∧
      (∀ L ∈ a.loops.loops,
        (∀ l, l ∈ L.backLinks ↔
          l ∈ a.graph.links ∧ l.target = L.entry ∧ a.graph.Dominates t.id L.entry l.source) ∧
        (∀ v, L.Has v ↔
          v = L.entry ∨ ∃ l ∈ L.backLinks, ∃ p, a.graph.Way v l.source p ∧ L.entry ∉ p) ∧
        (∀ v, L.Has v → a.graph.Dominates t.id L.entry v) ∧
        (∀ l ∈ a.graph.links, ¬L.Has l.source → L.Has l.target → l.target = L.entry) ∧
        (L.head = L.entry → ∀ v, a.graph.Next L.head v ∧ v ∈ L.body ↔ v = L.bodyEntry) ∧
        (L.head ≠ L.entry → L.bodyEntry = L.entry ∧
          ∀ v, a.graph.Next L.head v ∧ v ∈ L.body ↔ v = L.entry)) ∧
      (∀ L ∈ a.loops.loops, ∀ M ∈ a.loops.loops, L ≠ M →
        (∀ v, L.Has v → ¬M.Has v) ∨ (∀ v, L.Has v → M.Has v) ∨ ∀ v, M.Has v → L.Has v) ∧
      ∀ n ∈ w.nodes, n.isFeedbackLoop → (a.loops.loops.map Loop.head).count n.id = 1 := by
  obtain ⟨t, ht, -⟩ := trigger_unique h
  have hs := Check.sound_of_check h
  have hgraph := (check_ok h).2.1
  refine ⟨t, ht, fun L hL => ?_, fun L hL M hM => Check.disjoint_or_within h ht hL hM,
    fun n hn hguard => ?_⟩
  · refine ⟨fun l => ?_, fun v => ?_, fun v hv => ?_, fun l hl hsource htarget => ?_, fun _ v => ?_,
      fun hne => ⟨hs.bodyEntry_eq L hL hne, fun v => ?_⟩⟩
    · rw [hgraph]
      exact Check.mem_backLinks_iff h ht hL
    · rw [hgraph]
      exact Check.has_iff_way h ht hL
    · rw [hgraph]
      exact Check.dominates_of_has h ht hL hv
    · exact hs.enters L hL l hl htarget hsource
    · rw [hgraph]
      exact Check.next_head_iff h ht hL
    · rw [hgraph, Check.next_head_iff h ht hL, hs.bodyEntry_eq L hL hne]
  · exact List.count_eq_one_of_mem (Check.nodup_heads h ht) (Check.mem_heads h ht hn hguard)

/-- A loop that is entered ahead of its head, with another one inside. -/
theorem loops_nest_essayFlow : ∃ a, check essayFlow = .ok a ∧
    (a.loops.loops.map fun L => (L.head, L.entry, L.body, L.bodyEntry)) =
      [ ("accept", "outline", ["outline", "polish", "refine"], "outline"),
        ("refine", "refine", ["polish"], "polish") ] ∧
    (∀ L ∈ a.loops.loops, ∀ v, L.Has v →
      a.graph.Dominates "start" L.entry v ∧
        (v = L.entry ∨ ∃ l ∈ L.backLinks, ∃ p, a.graph.Way v l.source p ∧ L.entry ∉ p)) ∧
    (∀ L ∈ a.loops.loops, ∀ M ∈ a.loops.loops, L ≠ M →
      (∀ v, L.Has v → ¬M.Has v) ∨ (∀ v, L.Has v → M.Has v) ∨ ∀ v, M.Has v → L.Has v) ∧
    ∀ n ∈ essayFlow.nodes, n.isFeedbackLoop → (a.loops.loops.map Loop.head).count n.id = 1 := by
  obtain ⟨a, ha, hloops⟩ : ∃ a, check essayFlow = .ok a ∧
      (a.loops.loops.map fun L => (L.head, L.entry, L.body, L.bodyEntry)) =
        [ ("accept", "outline", ["outline", "polish", "refine"], "outline"),
          ("refine", "refine", ["polish"], "polish") ] :=
    exists_check_ok (by decide +kernel)
  obtain ⟨t, ht, heach, hpair, hguard⟩ := loops_nest ha
  have hstart : essayFlow.trigger?.map Node.id = some "start" := by decide +kernel
  rw [ht] at hstart
  rw [Option.some.inj hstart] at heach
  refine ⟨a, ha, hloops, fun L hL v hv => ?_, hpair, hguard⟩
  obtain ⟨-, hhas, hdom, -⟩ := heach L hL
  exact ⟨hdom v hv, (hhas v).mp hv⟩

end Flowscript
