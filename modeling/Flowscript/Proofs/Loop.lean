/-
The loops that the analysis of a workflow finds.

`Cycle.Makes` says what the loop made of a cycle looks like, and `Cycle.Skipped` when no loop is
made of it.  `findLoops_makes` takes the analysis apart, given that it found no fault: each loop
is made of a cycle, each cycle is made into a loop or skipped, no two loops share a head or an
entry, and every discovered feedback loop is a head.
-/
import Flowscript.Proofs.Graph

open Relation

namespace Flowscript

/-- A vertex is on the cycle of a loop. -/
def Loop.Has (L : Loop) (v : String) : Prop := v = L.head ∨ v ∈ L.body

theorem Loops.get?_eq_none {ls : Loops} {head : String} :
    ls.get? head = none ↔ head ∉ ls.loops.map Loop.head := by
  simp [get?]

namespace Check

theorem mem_cyclesOf {retreating : List (String × String)} {c : Cycle} (h : c ∈ cyclesOf retreating)
    {u : String} : u ∈ c.tails ↔ (u, c.entry) ∈ retreating := by
  obtain ⟨entry, -, rfl⟩ := List.mem_map.mp h
  simp only [mem_distinct, List.mem_map, List.mem_filter, beq_iff_eq]
  constructor
  · rintro ⟨⟨x, y⟩, ⟨hxy, rfl⟩, rfl⟩
    exact hxy
  · exact fun hu => ⟨(u, entry), ⟨hu, rfl⟩, rfl⟩

theorem exists_cycle {retreating : List (String × String)} {u v : String}
    (h : (u, v) ∈ retreating) : ∃ c ∈ cyclesOf retreating, c.entry = v ∧ u ∈ c.tails := by
  have hv : v ∈ sortedSet (retreating.map Prod.snd) :=
    mem_sortedSet.mpr (List.mem_map.mpr ⟨(u, v), h, rfl⟩)
  have hc := List.mem_map_of_mem (f := fun entry =>
    (⟨entry, distinct ((retreating.filter fun r => r.2 == entry).map Prod.fst)⟩ : Cycle)) hv
  exact ⟨_, hc, rfl, (mem_cyclesOf hc).mpr h⟩

theorem exists_tail {retreating : List (String × String)} {c : Cycle}
    (h : c ∈ cyclesOf retreating) : ∃ u, u ∈ c.tails := by
  obtain ⟨entry, hentry, rfl⟩ := List.mem_map.mp h
  obtain ⟨⟨u, v⟩, huv, rfl⟩ := List.mem_map.mp (mem_sortedSet.mp hentry)
  exact ⟨u, (mem_cyclesOf h).mpr huv⟩

theorem nodup_entries (retreating : List (String × String)) :
    ((cyclesOf retreating).map Cycle.entry).Nodup := by
  rw [cyclesOf, List.map_map]
  exact (List.map_id' _).symm ▸ nodup_sortedSet _

variable {w : Workflow} {g : Graph} {trigger : String}

/-- The loop that is made of a cycle. -/
structure Cycle.Makes (w : Workflow) (g : Graph) (trigger : String) (c : Cycle) (L : Loop) :
    Prop where
  entry : L.entry = c.entry
  head : headOf? w c.entry (g.cycle c.entry c.tails) = some L.head
  body : L.body = sortedSet ((g.cycle c.entry c.tails).filter (· ≠ L.head))
  bodyEntry : bodyEntryOf g L.head L.entry L.body = (some L.bodyEntry, [])
  backLinks : L.backLinks =
    g.links.filter fun l => c.tails.contains l.source && l.target == c.entry
  guarded : ∀ id ∈ g.reachWithout trigger c.entry, id ≠ trigger →
    id ∉ g.cycle c.entry c.tails

/-- No loop is made of a cycle: nothing heads it, or its head leads nowhere into it. -/
def Cycle.Skipped (w : Workflow) (g : Graph) (c : Cycle) : Prop :=
  headOf? w c.entry (g.cycle c.entry c.tails) = none ∨
    ∃ head, headOf? w c.entry (g.cycle c.entry c.tails) = some head ∧
      (bodyEntryOf g head c.entry
        (sortedSet ((g.cycle c.entry c.tails).filter (· ≠ head)))).1 = none ∧
      (bodyEntryOf g head c.entry
        (sortedSet ((g.cycle c.entry c.tails).filter (· ≠ head)))).2 = []

/-- Taking in a cycle without a new fault makes at most one loop, with a head of its own. -/
theorem addCycle_cases {found : Loops × List LoopFault} {c : Cycle}
    (h : (addCycle w g trigger found c).2 = []) :
    found.2 = [] ∧
      ((addCycle w g trigger found c).1 = found.1 ∧ c.Skipped w g ∨
        ∃ L, c.Makes w g trigger L ∧ L.head ∉ found.1.loops.map Loop.head ∧
          (addCycle w g trigger found c).1.loops = found.1.loops ++ [L]) := by
  obtain ⟨loops, faults⟩ := found
  simp only [addCycle] at h ⊢
  cases hhead : headOf? w c.entry (g.cycle c.entry c.tails) with
  | none =>
    simp only [hhead] at h ⊢
    exact ⟨h, .inl ⟨trivial, .inl hhead⟩⟩
  | some head =>
    simp only [hhead] at h ⊢
    rcases hbe : bodyEntryOf g head c.entry
      (sortedSet ((g.cycle c.entry c.tails).filter (· ≠ head))) with ⟨_ | bodyEntry, more⟩
    · simp only [hbe, List.append_eq_nil_iff] at h ⊢
      exact ⟨h.1.1, .inl ⟨trivial, .inr ⟨head, hhead, by rw [hbe], by rw [hbe]; exact h.2⟩⟩⟩
    · simp only [hbe] at h ⊢
      -- a head that is taken already is a fault
      split at h
      · simp at h
      · rename_i hnew
        simp only [List.append_eq_nil_iff, List.map_eq_nil_iff] at h
        obtain ⟨⟨hfaults, hbypass⟩, rfl⟩ := h
        let L : Loop :=
          { head, entry := c.entry, bodyEntry
            body := sortedSet ((g.cycle c.entry c.tails).filter (· ≠ head))
            backLinks :=
              g.links.filter fun l => c.tails.contains l.source && l.target == c.entry }
        refine ⟨hfaults, .inr ⟨L, ⟨rfl, hhead, rfl, hbe, rfl, ?_⟩, ?_, ?_⟩⟩
        · intro id hid hne hmem
          have := List.filter_eq_nil_iff.mp hbypass id hid
          simp [hne, hmem] at this
        · rw [← Loops.get?_eq_none]
          simpa using hnew
        · rw [if_neg hnew]

/-- What a run over several cycles makes, if it finds no fault. -/
theorem foldl_addCycle {cs : List Cycle} : ∀ {found : Loops × List LoopFault},
    (cs.foldl (addCycle w g trigger) found).2 = [] →
    found.2 = [] ∧ ∃ made,
      (cs.foldl (addCycle w g trigger) found).1.loops = found.1.loops ++ made ∧
      (∀ L ∈ made, ∃ c ∈ cs, c.Makes w g trigger L) ∧
      (∀ c ∈ cs, c.Skipped w g ∨ ∃ L ∈ made, c.Makes w g trigger L) ∧
      (made.map Loop.entry).Sublist (cs.map Cycle.entry) ∧
      ((found.1.loops.map Loop.head).Nodup → ((found.1.loops ++ made).map Loop.head).Nodup) := by
  induction cs with
  | nil =>
    intro found h
    exact ⟨h, [], by simp⟩
  | cons c cs ih =>
    intro found h
    rw [List.foldl_cons] at h
    obtain ⟨hstep, made, hmade, hfrom, hall, hsub, hnodup⟩ := ih h
    obtain ⟨hfound, ⟨hsame, hskip⟩ | ⟨L, hL, hnew, hadd⟩⟩ := addCycle_cases hstep
    · -- nothing is made of the first cycle
      refine ⟨hfound, made, ?_, ?_, ?_, ?_, ?_⟩
      · rw [List.foldl_cons, hmade, hsame]
      · intro M hM
        obtain ⟨d, hd, hdM⟩ := hfrom M hM
        exact ⟨d, List.mem_cons_of_mem _ hd, hdM⟩
      · intro d hd
        rcases List.mem_cons.mp hd with rfl | hd
        · exact .inl hskip
        · exact hall d hd
      · exact hsub.trans (List.sublist_cons_self _ _)
      · rw [hsame] at hnodup
        exact hnodup
    · -- the first cycle makes a loop with a new head
      refine ⟨hfound, L :: made, ?_, ?_, ?_, ?_, ?_⟩
      · rw [List.foldl_cons, hmade, hadd, List.append_assoc]
        rfl
      · intro M hM
        rcases List.mem_cons.mp hM with rfl | hM
        · exact ⟨c, List.mem_cons_self, hL⟩
        · obtain ⟨d, hd, hdM⟩ := hfrom M hM
          exact ⟨d, List.mem_cons_of_mem _ hd, hdM⟩
      · intro d hd
        rcases List.mem_cons.mp hd with rfl | hd
        · exact .inr ⟨L, List.mem_cons_self, hL⟩
        · rcases hall d hd with hskip | ⟨M, hM, hdM⟩
          · exact .inl hskip
          · exact .inr ⟨M, List.mem_cons_of_mem _ hM, hdM⟩
      · rw [List.map_cons, List.map_cons, hL.entry]
        exact hsub.cons_cons _
      · intro hnd
        rw [hadd, List.append_assoc] at hnodup
        refine hnodup ?_
        rw [List.map_append, List.nodup_append]
        refine ⟨hnd, by simp, fun x hx y hy => ?_⟩
        obtain rfl : y = L.head := by simpa using hy
        exact fun hxy => hnew (hxy ▸ hx)

/-- The loops of a workflow whose analysis finds no fault. -/
theorem findLoops_makes {t : Node} (ht : w.trigger? = some t) (h : (findLoops w g).2 = []) :
    (∀ L ∈ (findLoops w g).1.loops,
      ∃ c ∈ cyclesOf (g.trace g.nextNewest [t.id]).retreating.reverse, c.Makes w g t.id L) ∧
    (∀ c ∈ cyclesOf (g.trace g.nextNewest [t.id]).retreating.reverse,
      c.Skipped w g ∨ ∃ L ∈ (findLoops w g).1.loops, c.Makes w g t.id L) ∧
    ((findLoops w g).1.loops.map Loop.entry).Nodup ∧
    ((findLoops w g).1.loops.map Loop.head).Nodup ∧
    ∀ n ∈ w.nodes, n.isFeedbackLoop → n.id ∈ (g.trace g.nextNewest [t.id]).discovered →
      n.id ∈ (findLoops w g).1.loops.map Loop.head := by
  simp only [findLoops, ht] at h ⊢
  rw [List.append_eq_nil_iff, List.map_eq_nil_iff] at h
  obtain ⟨hfaults, hidle⟩ := h
  obtain ⟨-, made, hmade, hfrom, hall, hsub, hnodup⟩ := foldl_addCycle hfaults
  rw [hmade]
  refine ⟨hfrom, hall, hsub.nodup (nodup_entries _), hnodup List.nodup_nil, ?_⟩
  intro n hn hguard hfound
  have := List.filter_eq_nil_iff.mp hidle n hn
  simp only [hguard, Bool.true_and, List.contains_iff_mem.mpr hfound, Option.isNone_iff_eq_none,
    Loops.get?_eq_none, not_not, hmade] at this
  exact this

end Check

end Flowscript
