/-
The loops of a workflow drawn in another order.

The search of the loop analysis follows links in the order in which they were drawn, but in an
accepted workflow it finds the same links to go back in every order.  So the analysis of the
redrawn workflow goes through cycles with the same entries and tails, and makes of each the loop
that it made before:

* `cycles_redrawn` — the cycles are the same, up to the order of their tails;
* `Cycle.Makes.redrawn` — a cycle is made into the same loop, up to the order of its links back;
* `exists_check_redrawn` — the redrawn workflow is accepted, with the same loops.
-/
import Flowscript.Proofs.Redrawn.Graph
import Flowscript.Proofs.Reducible

open Relation

namespace Flowscript

/-- Two loops differ at most in the order and the numbers of their links back. -/
structure Loop.Alike (L L' : Loop) : Prop where
  head : L'.head = L.head
  entry : L'.entry = L.entry
  body : L'.body = L.body
  bodyEntry : L'.bodyEntry = L.bodyEntry
  backLinks : (L'.backLinks.map Link.edge).Perm (L.backLinks.map Link.edge)

theorem Loop.Alike.has_iff {L L' : Loop} (h : L.Alike L') {v : String} : L'.Has v ↔ L.Has v := by
  rw [Has, Has, h.head, h.body]

namespace Check

/-- Two cycles have the same entry and the same tails. -/
structure Cycle.Alike (c c' : Cycle) : Prop where
  entry : c'.entry = c.entry
  tails : ∀ u, u ∈ c'.tails ↔ u ∈ c.tails

theorem cyclesOf_alike {r r' : List (String × String)} (h : ∀ x, x ∈ r' ↔ x ∈ r) :
    List.Forall₂ Cycle.Alike (cyclesOf r) (cyclesOf r') := by
  have hentries : sortedSet (r'.map Prod.snd) = sortedSet (r.map Prod.snd) :=
    sortedSet_congr fun e => by simp only [List.mem_map, h]
  rw [cyclesOf, cyclesOf, hentries, List.forall₂_map_left_iff, List.forall₂_map_right_iff,
    List.forall₂_same]
  intro e _
  exact ⟨rfl, fun u => by simp only [mem_distinct, List.mem_map, List.mem_filter, h]⟩

/-- The first node of each round does not depend on the order of the links. -/
theorem bodyEntryOf_perm {g g' : Graph} {head entry bodyEntry : String} {body : List String}
    (hout : ((g'.outgoing head).map Link.target).Perm ((g.outgoing head).map Link.target))
    (h : bodyEntryOf g head entry body = (some bodyEntry, [])) :
    bodyEntryOf g' head entry body = (some bodyEntry, []) := by
  have hin := hout.filter fun t => body.contains t
  simp only [bodyEntryOf] at h ⊢
  split at h
  · rename_i hhead
    obtain ⟨hfirst, hfaults⟩ := Prod.mk.inj h
    -- two links into the body would be a fault, so there is one
    have hone : ((g.outgoing head).map Link.target).filter (fun t => body.contains t) =
        [bodyEntry] := by
      obtain ⟨rest, hlist⟩ := List.head?_eq_some_iff.mp hfirst
      rw [hlist] at hfaults ⊢
      cases rest with
      | nil => rfl
      | cons x rest => simp at hfaults
    rw [hone, List.perm_singleton] at hin
    rw [if_pos hhead, hin]
    rfl
  · rename_i hhead
    rw [if_neg hhead]
    split at h
    · rename_i hnone
      have := hin.filter fun t => t ≠ entry
      rw [hnone, List.perm_nil] at this
      rw [this]
      exact h
    · simp at h

/-- A cycle from which a loop can be made is taken into the loops found so far. -/
theorem addCycle_of_makes {w : Workflow} {g : Graph} {trigger : String} {c : Cycle} {L : Loop}
    {loops : List Loop} (h : c.Makes w g trigger L) (hnew : L.head ∉ loops.map Loop.head) :
    addCycle w g trigger (⟨loops⟩, []) c = (⟨loops ++ [L]⟩, []) := by
  have hbypass : (g.reachWithout trigger c.entry).filter (fun id =>
      id ≠ trigger && (g.cycle c.entry c.tails).contains id) = [] := by
    refine List.filter_eq_nil_iff.mpr fun id hid => ?_
    simp only [Bool.and_eq_true, decide_eq_true_eq, List.contains_iff_mem, not_and]
    exact h.guarded id hid
  have hget : (Loops.get? ⟨loops⟩ L.head).isSome = false := by
    rw [Option.isSome_eq_false_iff, Option.isNone_iff_eq_none, Loops.get?_eq_none]
    exact hnew
  have hbody := h.bodyEntry
  rw [h.body, h.entry] at hbody
  simp only [addCycle, h.head, hbypass, hbody, hget, Bool.false_eq_true, if_false]
  rw [← h.body, ← h.backLinks, ← h.entry]
  rfl

theorem foldl_addCycle_of_makes {w : Workflow} {g : Graph} {trigger : String} {cs : List Cycle}
    {made : List Loop} (h : List.Forall₂ (Cycle.Makes w g trigger) cs made) :
    ∀ {loops : List Loop}, ((loops ++ made).map Loop.head).Nodup →
      cs.foldl (addCycle w g trigger) (⟨loops⟩, []) = (⟨loops ++ made⟩, []) := by
  induction h with
  | nil => simp
  | @cons c L cs made hL _ ih =>
    intro loops hnodup
    have hsplit : loops ++ L :: made = loops ++ [L] ++ made := by simp
    have hnew : L.head ∉ loops.map Loop.head := by
      rw [List.map_append, List.map_cons, List.nodup_append] at hnodup
      exact fun hmem => hnodup.2.2 _ hmem _ List.mem_cons_self rfl
    rw [hsplit] at hnodup ⊢
    rw [List.foldl_cons, addCycle_of_makes hL hnew]
    exact ih hnodup

/-- Where no cycle is skipped, a run without faults makes a loop of each cycle. -/
theorem makes_of_foldl {w : Workflow} {g : Graph} {trigger : String} {cs : List Cycle}
    (hall : ∀ c ∈ cs, ¬c.Skipped w g) : ∀ {found : Loops × List LoopFault},
    (cs.foldl (addCycle w g trigger) found).2 = [] →
    ∃ made, (cs.foldl (addCycle w g trigger) found).1.loops = found.1.loops ++ made ∧
      List.Forall₂ (Cycle.Makes w g trigger) cs made := by
  induction cs with
  | nil => exact fun _ => ⟨[], by simp⟩
  | cons c cs ih =>
    intro found h
    rw [List.foldl_cons] at h ⊢
    obtain ⟨made, hmade, hmakes⟩ := ih (fun d hd => hall d (List.mem_cons_of_mem _ hd)) h
    obtain ⟨-, ⟨-, hskip⟩ | ⟨L, hL, -, hadd⟩⟩ := addCycle_cases (foldl_addCycle h).1
    · exact absurd hskip (hall c List.mem_cons_self)
    · refine ⟨L :: made, ?_, .cons hL hmakes⟩
      rw [hmade, hadd, List.append_assoc]
      rfl

/-- An accepted workflow has a loop for each cycle, in the order of the cycles. -/
theorem makes_of_check {w : Workflow} {a : Accepted} {t : Node} (h : check w = .ok a)
    (ht : w.trigger? = some t) : List.Forall₂ (Cycle.Makes w (Graph.ofWorkflow w) t.id)
      (cyclesOf ((Graph.ofWorkflow w).trace (Graph.ofWorkflow w).nextNewest
        [t.id]).retreating.reverse) a.loops.loops := by
  obtain ⟨-, -, hloops, hfaults, -⟩ := check_ok h
  simp only [findLoops, ht] at hloops hfaults
  obtain ⟨made, hmade, hmakes⟩ :=
    makes_of_foldl (fun c hc => not_skipped h ht hc) (List.append_eq_nil_iff.mp hfaults).1
  obtain rfl : a.loops.loops = made := by
    rw [hloops, hmade]
    rfl
  exact hmakes

/-- A well-shaped workflow is accepted if loops with heads of their own can be made of the cycles, and
every feedback loop heads one of them. -/
theorem exists_check_of_makes {w : Workflow} {t : Node} {made : List Loop} (hw : w.WellShaped)
    (ht : w.trigger? = some t) (hmakes : List.Forall₂ (Cycle.Makes w (Graph.ofWorkflow w) t.id)
      (cyclesOf ((Graph.ofWorkflow w).trace (Graph.ofWorkflow w).nextNewest
        [t.id]).retreating.reverse) made)
    (hnodup : (made.map Loop.head).Nodup)
    (hheads : ∀ n ∈ w.nodes, n.isFeedbackLoop → n.id ∈ made.map Loop.head) :
    ∃ a, check w = .ok a ∧ a.loops.loops = made := by
  have hfound : findLoops w (Graph.ofWorkflow w) = (⟨made⟩, []) := by
    have hrun : (cyclesOf ((Graph.ofWorkflow w).trace (Graph.ofWorkflow w).nextNewest
        [t.id]).retreating.reverse).foldl (addCycle w (Graph.ofWorkflow w) t.id) ({}, []) =
          (⟨made⟩, []) :=
      foldl_addCycle_of_makes hmakes hnodup
    have hidle : ∀ n ∈ w.nodes, n.isFeedbackLoop → Loops.get? ⟨made⟩ n.id ≠ none := by
      intro n hn hguard
      rw [Ne, Loops.get?_eq_none, not_not]
      exact hheads n hn hguard
    simp only [findLoops, ht, hrun, List.nil_append]
    refine Prod.ext rfl (List.map_eq_nil_iff.mpr (List.filter_eq_nil_iff.mpr fun n hn => ?_))
    simp only [Bool.and_eq_true, Option.isNone_iff_eq_none, not_and]
    exact fun hguard => hidle n hn hguard.1
  obtain ⟨a, ha⟩ := exists_accepted_iff.mpr ⟨hw, by rw [hfound]⟩
  refine ⟨a, ha, ?_⟩
  rw [(check_ok ha).2.2.1, hfound]

section Redrawn

variable {w w' : Workflow} {a : Accepted} {t : Node} (h : check w = .ok a)
  (ht : w.trigger? = some t) (hr : w.Redrawn w')
include h ht hr

theorem cycles_redrawn : List.Forall₂ Cycle.Alike
    (cyclesOf ((Graph.ofWorkflow w).trace (Graph.ofWorkflow w).nextNewest [t.id]).retreating.reverse)
    (cyclesOf ((Graph.ofWorkflow w').trace
      (Graph.ofWorkflow w').nextNewest [t.id]).retreating.reverse) := by
  have hnext := (wellShaped_of_check h).next_redrawn hr
  -- the search in the redrawn graph is a search in the graph that follows links in another order
  have htrace : (Graph.ofWorkflow w').trace (Graph.ofWorkflow w').nextNewest [t.id] =
      (Graph.ofWorkflow w).trace (Graph.ofWorkflow w').nextNewest [t.id] := by
    rw [Graph.trace, Graph.trace, hr.perm_ids.length_eq]
  refine cyclesOf_alike fun x => ?_
  obtain ⟨u, v⟩ := x
  rw [htrace, List.mem_reverse, List.mem_reverse,
    mem_retreating_of_check h ht fun x y => Graph.mem_nextNewest,
    mem_retreating_of_check h ht fun x y => by rw [Graph.mem_nextNewest, hnext]]

section OneCycle

variable {c c' : Cycle} (hc : c ∈ cyclesOf
    ((Graph.ofWorkflow w).trace (Graph.ofWorkflow w).nextNewest [t.id]).retreating.reverse)
  (hcc : c.Alike c')
include hc hcc

theorem mem_cycle_redrawn {v : String} : v ∈ (Graph.ofWorkflow w').cycle c'.entry c'.tails ↔
    v ∈ (Graph.ofWorkflow w).cycle c.entry c.tails := by
  have hfound := found_of_search (fun _ _ => Graph.mem_nextNewest) ht hc
  have hentry : c'.entry ∉ c'.tails := by
    rw [hcc.tails, hcc.entry]
    exact hfound.entry_notMem
  rw [hfound.mem_cycle, Graph.mem_cycle hentry, hcc.entry,
    (wellShaped_of_check h).past_redrawn hr]
  simp only [hcc.tails]

theorem headOf?_redrawn : headOf? w' c'.entry ((Graph.ofWorkflow w').cycle c'.entry c'.tails) =
    headOf? w c.entry ((Graph.ofWorkflow w).cycle c.entry c.tails) := by
  have hguard := (wellShaped_of_check h).isGuard_eq hr
  have hset : sortedSet (((Graph.ofWorkflow w').cycle c'.entry c'.tails).filter (isGuard w')) =
      sortedSet (((Graph.ofWorkflow w).cycle c.entry c.tails).filter (isGuard w)) :=
    sortedSet_congr fun v => by
      rw [List.mem_filter, List.mem_filter, mem_cycle_redrawn h ht hr hc hcc, hguard]
  rw [headOf?, headOf?, hset, hguard, hcc.entry]

/-- A cycle is made into the same loop. -/
theorem Cycle.Makes.redrawn {L : Loop} (hm : c.Makes w (Graph.ofWorkflow w) t.id L) :
    ∃ L', c'.Makes w' (Graph.ofWorkflow w') t.id L' ∧ L.Alike L' := by
  have hw := wellShaped_of_check h
  have hlinks := hw.perm_links hr
  have hout : ∀ id, (((Graph.ofWorkflow w').outgoing id).map Link.target).Perm
      (((Graph.ofWorkflow w).outgoing id).map Link.target) := by
    intro id
    have := (perm_filter hlinks fun e => e.source == id).map Edge.target
    rw [List.map_map, List.map_map] at this
    exact this
  have hroot : t.id ≠ c.entry := by
    have hnat := natural_of_makes h ht hc hm
    exact hm.entry ▸ (hnat.ne_root hnat.has_entry).symm
  let backLinks := (Graph.ofWorkflow w').links.filter fun l =>
    c'.tails.contains l.source && l.target == c'.entry
  refine ⟨{ L with backLinks }, ⟨?_, ?_, ?_, ?_, rfl, ?_⟩, ⟨rfl, rfl, rfl, rfl, ?_⟩⟩
  · exact hm.entry.trans hcc.entry.symm
  · rw [headOf?_redrawn h ht hr hc hcc]
    exact hm.head
  · show L.body = _
    rw [hm.body]
    refine sortedSet_congr fun v => ?_
    rw [List.mem_filter, List.mem_filter, mem_cycle_redrawn h ht hr hc hcc]
  · exact bodyEntryOf_perm (hout L.head) hm.bodyEntry
  · intro id hid hne
    rw [mem_cycle_redrawn h ht hr hc hcc]
    refine hm.guarded id ?_ hne
    rw [hcc.entry, Graph.mem_reachWithout hroot, hw.past_redrawn hr] at hid
    exact (Graph.mem_reachWithout hroot).mpr hid
  · show (backLinks.map Link.edge).Perm (L.backLinks.map Link.edge)
    have htails : ∀ u, c'.tails.contains u = c.tails.contains u := by
      intro u
      rw [Bool.eq_iff_iff, List.contains_iff_mem, List.contains_iff_mem, hcc.tails]
    simp only [hm.backLinks, backLinks, htails, hcc.entry]
    exact perm_filter hlinks fun e => c.tails.contains e.source && e.target == c.entry

end OneCycle

theorem makes_redrawn {cs cs' : List Cycle} (hcc : List.Forall₂ Cycle.Alike cs cs') :
    ∀ {made : List Loop}, (∀ c ∈ cs, c ∈ cyclesOf
      ((Graph.ofWorkflow w).trace (Graph.ofWorkflow w).nextNewest [t.id]).retreating.reverse) →
    List.Forall₂ (Cycle.Makes w (Graph.ofWorkflow w) t.id) cs made →
    ∃ made', List.Forall₂ (Cycle.Makes w' (Graph.ofWorkflow w') t.id) cs' made' ∧
      List.Forall₂ Loop.Alike made made' := by
  induction hcc with
  | nil =>
    intro made _ hmade
    cases hmade
    exact ⟨[], .nil, .nil⟩
  | @cons c c' cs cs' hcc _ ih =>
    intro made hmem hmade
    cases hmade with
    | cons hL hmade =>
      obtain ⟨L', hL', hLL'⟩ :=
        Cycle.Makes.redrawn h ht hr (hmem c List.mem_cons_self) hcc hL
      obtain ⟨made', hmade', halike⟩ := ih (fun d hd => hmem d (List.mem_cons_of_mem _ hd)) hmade
      exact ⟨L' :: made', .cons hL' hmade', .cons hLL' halike⟩

end Redrawn

theorem heads_of_alike {ls ls' : List Loop} (h : List.Forall₂ Loop.Alike ls ls') :
    ls'.map Loop.head = ls.map Loop.head := by
  induction h with
  | nil => rfl
  | cons hL _ ih => rw [List.map_cons, List.map_cons, hL.head, ih]

/-- A workflow drawn in another order is accepted if it was, with the same loops. -/
theorem exists_check_redrawn {w w' : Workflow} {a : Accepted} (h : check w = .ok a)
    (hr : w.Redrawn w') :
    ∃ a', check w' = .ok a' ∧ List.Forall₂ Loop.Alike a.loops.loops a'.loops.loops := by
  obtain ⟨t, ht, -⟩ := trigger_unique h
  have hw := wellShaped_of_check h
  obtain ⟨made', hmakes', halike⟩ :=
    makes_redrawn h ht hr (cycles_redrawn h ht hr) (fun c hc => hc) (makes_of_check h ht)
  have hsame := heads_of_alike halike
  obtain ⟨a', ha', rfl⟩ := exists_check_of_makes (hw.redrawn hr) ((hw.trigger?_eq hr).trans ht)
    hmakes' (hsame ▸ nodup_heads h ht) fun n hn hguard =>
      hsame ▸ mem_heads h ht (hr.nodes.mem_iff.mp hn) hguard
  exact ⟨a', ha', halike⟩

end Check

end Flowscript
