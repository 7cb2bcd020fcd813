/-
The loops of a renamed workflow.

Ids decide two things in the loop analysis: the order in which it takes in the cycles, and which of
the feedback loops on a cycle that is entered at another node becomes its head, the one with the
smallest id.  The order does not matter, but the head does: a loop inside has to keep its own head.

* `cyclesOf_rename` — the cycles are renamed and taken in another order;
* `Cycle.Makes.rename` — a cycle is made into the renamed loop as long as the new name of its head is
  the smallest;
* `exists_check_rename` — so a renaming under which every head stays the smallest is accepted;
* `leastHead_of_check` — no other one is, since the head of an inner loop does not lead straight back
  to the entry of the outer one;
* `check_rename` — both together, for renamings that are injective on the ids mentioned.
-/
import Flowscript.Proofs.Redrawn.Loop
import Flowscript.Proofs.Renamed.Graph
import Mathlib.Data.List.Perm.Basic

open Relation

namespace Flowscript

/-- The new name of the head is the smallest among the feedback loops on the cycle, unless the loop is
entered at its head. -/
def Loop.LeastHead (w : Workflow) (f : String → String) (L : Loop) : Prop :=
  L.head ≠ L.entry → ∀ v ∈ L.body, Check.isGuard w v = true → f L.head < f v

/-- The loop of the renamed nodes; its body is put in the order of the new ids. -/
def Loop.rename (f : String → String) (L : Loop) : Loop where
  head := f L.head
  entry := f L.entry
  body := sortedSet (L.body.map f)
  bodyEntry := f L.bodyEntry
  backLinks := L.backLinks.map (Link.rename f)

namespace Check

/-- The cycle of the renamed nodes. -/
def Cycle.rename (f : String → String) (c : Cycle) : Cycle := ⟨f c.entry, c.tails.map f⟩

theorem headOf?_eq_some {w : Workflow} {entry head : String} {cycle : List String} :
    headOf? w entry cycle = some head ↔
      if isGuard w entry then head = entry
      else (head ∈ cycle ∧ isGuard w head = true) ∧
        ∀ v ∈ cycle, isGuard w v = true → head ≤ v := by
  rw [headOf?]
  split
  · rw [Option.some.injEq, eq_comm]
  · simp only [head?_sortedSet, List.mem_filter, and_imp]

section Cycles

variable {f : String → String} (hf : Function.Injective f) {w : Workflow} {g : Graph}
include hf

theorem cyclesOf_rename (r : List (String × String)) :
    (cyclesOf (r.map (Prod.map f f))).Perm ((cyclesOf r).map (Cycle.rename f)) := by
  have hentries : (sortedSet ((r.map (Prod.map f f)).map Prod.snd)).Perm
      ((sortedSet (r.map Prod.snd)).map f) := by
    refine (List.perm_ext_iff_of_nodup (nodup_sortedSet _) ((nodup_sortedSet _).map hf)).mpr ?_
    intro v
    simp only [mem_sortedSet, List.mem_map]
    constructor
    · rintro ⟨-, ⟨x, hx, rfl⟩, rfl⟩
      exact ⟨x.2, ⟨x, hx, rfl⟩, rfl⟩
    · rintro ⟨-, ⟨x, hx, rfl⟩, rfl⟩
      exact ⟨Prod.map f f x, ⟨x, hx, rfl⟩, rfl⟩
  have htails : ∀ entry, distinct (((r.map (Prod.map f f)).filter fun x => x.2 == f entry).map
      Prod.fst) = (distinct ((r.filter fun x => x.2 == entry).map Prod.fst)).map f := by
    intro entry
    rw [← distinct_map hf, List.filter_map, List.map_map, List.map_map]
    simp only [Function.comp_def, Prod.map, beq_map hf]
  rw [cyclesOf]
  refine (hentries.map _).trans (List.Perm.of_eq ?_)
  rw [cyclesOf, List.map_map, List.map_map]
  exact List.map_congr_left fun entry _ => congrArg (Cycle.mk (f entry)) (htails entry)

theorem bodyEntryOf_rename {head entry bodyEntry : String} {body : List String}
    (h : bodyEntryOf g head entry body = (some bodyEntry, [])) :
    bodyEntryOf (g.rename f) (f head) (f entry) (sortedSet (body.map f)) =
      (some (f bodyEntry), []) := by
  have hin : (((g.rename f).outgoing (f head)).map Link.target).filter
      (fun t => (sortedSet (body.map f)).contains t) =
      (((g.outgoing head).map Link.target).filter fun t => body.contains t).map f := by
    have hmem : ∀ v, (sortedSet (body.map f)).contains (f v) = body.contains v := by
      intro v
      rw [Bool.eq_iff_iff, List.contains_iff_mem, List.contains_iff_mem, mem_sortedSet,
        List.mem_map_of_injective hf]
    rw [outgoing_rename hf, List.map_map, List.filter_map, List.filter_map, List.map_map]
    simp only [Function.comp_def, Link.target, Link.rename, Edge.rename, hmem]
  simp only [bodyEntryOf] at h ⊢
  rw [hin]
  split at h
  · rename_i hhead
    obtain ⟨hfirst, hfaults⟩ := Prod.mk.inj h
    rw [if_pos (congrArg f hhead), List.head?_map, hfirst, List.length_map]
    refine Prod.ext rfl (if_neg fun hmany => ?_)
    rw [if_pos hmany] at hfaults
    exact List.cons_ne_nil _ _ hfaults
  · rename_i hhead
    rw [if_neg (hf.ne hhead), filter_ne_map hf]
    split at h
    · rename_i hnone
      obtain rfl : entry = bodyEntry := Option.some.inj (Prod.mk.inj h).1
      rw [hnone]
      rfl
    · simp at h

/-- A cycle is made into the renamed loop if its head stays the smallest. -/
theorem Cycle.Makes.rename {c : Cycle} {L : Loop} {trigger : String}
    (hm : c.Makes w g trigger L) (hleast : L.LeastHead w f) :
    (c.rename f).Makes (w.rename f) (g.rename f) (f trigger) (L.rename f) := by
  have hcycle : (g.rename f).cycle (c.rename f).entry (c.rename f).tails =
      (g.cycle c.entry c.tails).map f := cycle_rename hf _ _
  refine ⟨congrArg f hm.entry, ?_, ?_, bodyEntryOf_rename hf hm.bodyEntry, ?_, ?_⟩
  · have hhead := headOf?_eq_some.mp hm.head
    rw [hcycle, headOf?_eq_some, show (c.rename f).entry = f c.entry from rfl, isGuard_rename hf]
    split at hhead
    · rename_i hguard
      rw [if_pos hguard]
      exact congrArg f hhead
    · rename_i hguard
      rw [if_neg hguard]
      refine ⟨⟨List.mem_map_of_mem hhead.1.1, (isGuard_rename hf _).trans hhead.1.2⟩, ?_⟩
      intro v' hv' hguard'
      obtain ⟨v, hv, rfl⟩ := List.mem_map.mp hv'
      rw [isGuard_rename hf] at hguard'
      by_cases hvL : v = L.head
      · exact hvL ▸ String.le_refl _
      · have hne : L.head ≠ L.entry := by
          rintro heq
          rw [hm.entry] at heq
          exact hguard (heq ▸ hhead.1.2)
        refine String.not_lt.mp (String.lt_asymm (hleast hne v ?_ hguard'))
        rw [hm.body, mem_sortedSet, List.mem_filter]
        exact ⟨hv, by simpa using hvL⟩
  · rw [hcycle, show (L.rename f).head = f L.head from rfl, filter_ne_map hf]
    refine sortedSet_congr fun v => ?_
    simp only [List.mem_map, hm.body, mem_sortedSet]
  · show L.backLinks.map (Link.rename f) = _
    rw [hm.backLinks, Graph.rename, List.filter_map]
    simp only [Function.comp_def, Cycle.rename, Link.source, Link.target, Link.rename, Edge.rename,
      contains_map hf, beq_map hf]
  · intro v' hv' hne
    rw [show (c.rename f).entry = f c.entry from rfl, reachWithout_rename hf] at hv'
    obtain ⟨v, hv, rfl⟩ := List.mem_map.mp hv'
    rw [hcycle, List.mem_map_of_injective hf]
    exact hm.guarded v hv fun hvt => hne (congrArg f hvt)

end Cycles

section Accepted

variable {w : Workflow} {a : Accepted} {t : Node} {f : String → String} (h : check w = .ok a)
  (ht : w.trigger? = some t) (hf : Function.Injective f)

/-- The cycles that the analysis of a renamed workflow goes through. -/
theorem cycles_rename (hf : Function.Injective f) (t : Node) :
    (cyclesOf ((Graph.ofWorkflow (w.rename f)).trace (Graph.ofWorkflow (w.rename f)).nextNewest
      [(t.rename f).id]).retreating.reverse).Perm
    ((cyclesOf ((Graph.ofWorkflow w).trace (Graph.ofWorkflow w).nextNewest
      [t.id]).retreating.reverse).map (Cycle.rename f)) := by
  rw [graph_rename hf, show (t.rename f).id = f t.id from rfl, trace_rename hf,
    show ∀ s : Trace String, (s.map f).retreating.reverse = s.retreating.reverse.map (Prod.map f f)
      from fun s => List.map_reverse.symm]
  exact cyclesOf_rename hf _

include h

/-- A head leads on to a node of its cycle. -/
theorem exists_next_of_head {L : Loop} (hL : L ∈ a.loops.loops) :
    ∃ v, (Graph.ofWorkflow w).Next L.head v ∧ L.Has v := by
  obtain ⟨t, ht, -⟩ := trigger_unique h
  have hsound := sound_of_check h
  obtain ⟨c, hc, hm⟩ := makes_of_mem h ht hL
  have hnat := natural_of_makes h ht hc hm
  by_cases hhead : L.head = L.entry
  · obtain ⟨l, hl, hsource, htarget⟩ := hsound.bodyEntry_next L hL hhead
    exact ⟨L.bodyEntry, ⟨l, (check_ok h).2.1 ▸ hl, hsource, htarget⟩,
      .inr (hsound.bodyEntry_mem L hL)⟩
  · obtain ⟨u, hu, hway⟩ := ((hnat.has_iff L.head).mp (.inl rfl)).resolve_left hhead
    rcases hway.cases_head with heq | ⟨v, hstep, hway⟩
    · exact ⟨L.entry, heq ▸ hnat.tail_next u hu, hnat.has_entry⟩
    · exact ⟨v, hstep.1, (hnat.has_iff v).mpr (.inr ⟨u, hu, hway⟩)⟩

/-- A feedback loop in the body of another loop leads on into that body, and not to its entry. -/
theorem exists_next_inside {L : Loop} (hL : L ∈ a.loops.loops) {x : String} (hx : x ∈ L.body)
    (hguard : isGuard w x = true) :
    ∃ v, (Graph.ofWorkflow w).Next x v ∧ L.Has v ∧ v ≠ L.entry := by
  have hsound := sound_of_check h
  -- the loop that is headed by `x` is inside
  obtain ⟨M, hM, rfl⟩ : ∃ M ∈ a.loops.loops, M.head = x := by
    obtain ⟨c, hconfig⟩ := isGuard_iff.mp hguard
    refine hsound.head_of_config x c ?_
    rw [Accepted.config?, Accepted.node?, (check_ok h).1]
    exact hconfig
  have hne : L ≠ M := by
    rintro rfl
    exact hsound.head_notMem L hL hx
  have hout : ¬M.Has L.entry := fun hin =>
    hsound.head_notMem M hM (hsound.inside M hM L hL hne.symm hin M.head (.inr hx))
  have hin : L.Has M.entry :=
    (hsound.meets L hL M hM M.head (.inr hx) (.inl rfl)).resolve_right hout
  obtain ⟨v, hnext, hv⟩ := exists_next_of_head h hM
  exact ⟨v, hnext, .inr (hsound.inside L hL M hM hne hin v hv), fun heq => hout (heq ▸ hv)⟩

include hf

/-- A renaming under which every head stays the smallest is accepted. -/
theorem exists_check_rename (hleast : ∀ L ∈ a.loops.loops, L.LeastHead w f) :
    ∃ a', check (w.rename f) = .ok a' := by
  obtain ⟨t, ht, -⟩ := trigger_unique h
  have hrenamed : List.Forall₂ (Cycle.Makes (w.rename f) (Graph.ofWorkflow (w.rename f)) (f t.id))
      ((cyclesOf ((Graph.ofWorkflow w).trace (Graph.ofWorkflow w).nextNewest
        [t.id]).retreating.reverse).map (Cycle.rename f)) (a.loops.loops.map (Loop.rename f)) := by
    obtain ⟨hlength, hmakes⟩ := List.forall₂_iff_zip.mp (makes_of_check h ht)
    rw [graph_rename hf, List.forall₂_map_left_iff, List.forall₂_map_right_iff,
      List.forall₂_iff_zip]
    exact ⟨hlength, fun hcL => (hmakes hcL).rename hf (hleast _ (List.of_mem_zip hcL).2)⟩
  obtain ⟨made, hmade, hperm⟩ := List.perm_comp_forall₂ (cycles_rename hf t) hrenamed
  have hheads : (made.map Loop.head).Perm ((a.loops.loops.map Loop.head).map f) := by
    refine (hperm.map Loop.head).trans (List.Perm.of_eq ?_)
    rw [List.map_map, List.map_map]
    rfl
  obtain ⟨a', ha', -⟩ := exists_check_of_makes ((wellShaped_of_check h).rename hf)
    (t := t.rename f) (by rw [Workflow.trigger?_rename, ht, Option.map_some]) hmade
    (hheads.nodup_iff.mpr ((nodup_heads h ht).map hf)) (by
      intro n' hn' hguard
      obtain ⟨n, hn, rfl⟩ := List.mem_map.mp hn'
      exact hheads.mem_iff.mpr (List.mem_map_of_mem (mem_heads h ht hn hguard)))
  exact ⟨a', ha'⟩

/-- Under a renaming that is accepted every head stays the smallest. -/
theorem leastHead_of_check {a' : Accepted} (h' : check (w.rename f) = .ok a') {L : Loop}
    (hL : L ∈ a.loops.loops) : L.LeastHead w f := by
  obtain ⟨t, ht, -⟩ := trigger_unique h
  have ht' : (w.rename f).trigger? = some (t.rename f) := by
    rw [Workflow.trigger?_rename, ht, Option.map_some]
  have hsound := sound_of_check h
  have hsound' := sound_of_check h'
  obtain ⟨c, hc, hm⟩ := makes_of_mem h ht hL
  -- the loop that the renamed cycle is made into
  have hc' := (cycles_rename hf t).mem_iff.mpr (List.mem_map_of_mem (f := Cycle.rename f) hc)
  obtain ⟨L', hL', hm'⟩ := (findLoops_makes ht' (check_ok h').2.2.2.1).2.1 _ hc' |>.resolve_left
    (not_skipped h' ht' hc')
  rw [← (check_ok h').2.2.1] at hL'
  have hcycle : (Graph.ofWorkflow (w.rename f)).cycle (c.rename f).entry (c.rename f).tails =
      ((Graph.ofWorkflow w).cycle c.entry c.tails).map f := by
    rw [graph_rename hf]
    exact cycle_rename hf _ _
  have hhas : ∀ v, L'.Has (f v) ↔ L.Has v := by
    intro v
    rw [has_iff_mem_cycle ht' hc' hm', hcycle, List.mem_map_of_injective hf,
      has_iff_mem_cycle ht hc hm]
  have hentry : L'.entry = f L.entry := by
    rw [hm'.entry, hm.entry]
    rfl
  intro hne v hv hguard
  have hplain : isGuard w c.entry = false := by
    rw [Bool.eq_false_iff]
    exact fun he => hne (((head_cases ht hc hm).2.2 he).trans hm.entry.symm)
  -- the head of the renamed loop is the smallest of the feedback loops
  obtain ⟨⟨hmem, hguard'⟩, hsmallest⟩ : (L'.head ∈ ((Graph.ofWorkflow w).cycle c.entry c.tails).map f
      ∧ isGuard (w.rename f) L'.head = true) ∧ ∀ v' ∈ ((Graph.ofWorkflow w).cycle c.entry c.tails).map f,
        isGuard (w.rename f) v' = true → L'.head ≤ v' := by
    have hhead := headOf?_eq_some.mp hm'.head
    rw [show (c.rename f).entry = f c.entry from rfl, isGuard_rename hf, hplain,
      if_neg Bool.false_ne_true] at hhead
    exact hcycle ▸ hhead
  obtain ⟨x, hx, hxhead⟩ := List.mem_map.mp hmem
  rw [← hxhead, isGuard_rename hf] at hguard'
  -- and it is the new name of the head, since no other one leads straight back to the entry
  have hxL : x = L.head := by
    by_contra hcon
    have hxbody : x ∈ L.body := ((has_iff_mem_cycle ht hc hm).mpr hx).resolve_left hcon
    obtain ⟨y, ⟨l, hl, hsource, htarget⟩, hy, hyentry⟩ := exists_next_inside h hL hxbody hguard'
    have hl' : l.rename f ∈ a'.graph.links := by
      rw [(check_ok h').2.1, graph_rename hf]
      exact List.mem_map_of_mem hl
    have hsource' : (l.rename f).source = L'.head := (congrArg f hsource).trans hxhead
    have htarget' : (l.rename f).target = f y := congrArg f htarget
    have hbody : (l.rename f).target ∈ L'.body := by
      refine (htarget' ▸ (hhas y).mpr hy : L'.Has _).resolve_left fun heq => ?_
      exact hsound'.link_ne _ hl' (hsource'.trans heq.symm)
    have hneentry : L'.head ≠ L'.entry := by
      rw [← hxhead, hentry, hf.ne_iff, hm.entry]
      rintro rfl
      rw [hplain] at hguard'
      exact Bool.false_ne_true hguard'
    have hback := hsound'.bodyEntry_unique L' hL' _ hl' hsource' hbody
    rw [hsound'.bodyEntry_eq L' hL' hneentry, htarget', hentry] at hback
    exact hyentry (hf hback)
  have hle : f L.head ≤ f v := by
    rw [← hxL, hxhead]
    refine hsmallest _ (List.mem_map_of_mem ?_) ((isGuard_rename hf v).trans hguard)
    exact (has_iff_mem_cycle ht hc hm).mp (.inr hv)
  refine String.not_le.mp fun hge => ?_
  exact hsound.head_notMem L hL (hf (String.le_antisymm hle hge) ▸ hv)

end Accepted

end Check

open Check

variable {w : Workflow} {f : String → String}

theorem leastHead_congr {a : Accepted} (h : check w = .ok a) {f' : String → String}
    (hff' : ∀ v ∈ w.ids, f v = f' v) {L : Loop} (hL : L ∈ a.loops.loops) :
    L.LeastHead w f ↔ L.LeastHead w f' := by
  have hsame : ∀ v, L.Has v → f v = f' v := by
    intro v hv
    have hid := (sound_of_check h).has_mem L hL v hv
    rw [(check_ok h).2.1, Graph.mem_ids] at hid
    exact hff' v (List.mem_append_left _ (List.mem_map.mpr hid))
  refine imp_congr_right fun _ => forall₂_congr fun v hv => imp_congr_right fun _ => ?_
  rw [hsame L.head (.inl rfl), hsame v (.inr hv)]

theorem check_rename_iff (hf : ∀ u ∈ w.ids, ∀ v ∈ w.ids, f u = f v → u = v) {a : Accepted}
    (h : check w = .ok a) :
    (∃ a', check (w.rename f) = .ok a') ↔ ∀ L ∈ a.loops.loops, L.LeastHead w f := by
  obtain ⟨f', hinj, hsame⟩ := exists_injective hf
  rw [rename_congr hsame]
  constructor
  · rintro ⟨a', h'⟩ L hL
    exact (leastHead_congr h hsame hL).mpr (leastHead_of_check h hinj h' hL)
  · intro hleast
    exact exists_check_rename h hinj fun L hL => (leastHead_congr h hsame hL).mp (hleast L hL)

/-- Renaming the nodes of an accepted workflow by an injective `f` leaves it accepted exactly if in
every loop that is entered ahead of its head the new name of the head is still the smallest of those
of the feedback loops on the cycle.  Where `f'` undoes `f`, the same condition on `f'` says whether a
workflow that is accepted under its new names was accepted under the old ones. -/
theorem check_rename (hf : ∀ u ∈ w.ids, ∀ v ∈ w.ids, f u = f v → u = v) :
    (∀ a, check w = .ok a → ((∃ a', check (w.rename f) = .ok a') ↔
      ∀ L ∈ a.loops.loops, L.LeastHead w f)) ∧
    ∀ f' : String → String, (∀ v ∈ w.ids, f' (f v) = v) →
      ∀ a', check (w.rename f) = .ok a' → ((∃ a, check w = .ok a) ↔
        ∀ L ∈ a'.loops.loops, L.LeastHead (w.rename f) f') := by
  refine ⟨fun a h => check_rename_iff hf h, fun f' hundo a' h' => ?_⟩
  have hback : (w.rename f).rename f' = w := by
    have hid : w.rename (f' ∘ f) = w.rename id := rename_congr hundo
    rw [rename_rename, hid, rename_id]
  have hf' : ∀ u ∈ (w.rename f).ids, ∀ v ∈ (w.rename f).ids, f' u = f' v → u = v := by
    intro u' hu' v' hv' huv
    rw [ids_rename] at hu' hv'
    obtain ⟨u, hu, rfl⟩ := List.mem_map.mp hu'
    obtain ⟨v, hv, rfl⟩ := List.mem_map.mp hv'
    rw [hundo u hu, hundo v hv] at huv
    rw [huv]
  rw [← check_rename_iff hf' h', hback]

/-- A renaming of one node. -/
def renameOne (old new v : String) : String := if v = old then new else v

/-- The head of the outer loop may be called `agree`, which is smaller than `refine`. -/
theorem check_rename_essayFlow : (∃ a, check essayFlow = .ok a) ∧
    ∃ a', check (essayFlow.rename (renameOne "accept" "agree")) = .ok a' := by
  have hinj : ∀ u ∈ essayFlow.ids, ∀ v ∈ essayFlow.ids,
      renameOne "accept" "agree" u = renameOne "accept" "agree" v → u = v := by decide
  obtain ⟨a, ha, hleast⟩ : ∃ a, check essayFlow = .ok a ∧ ∀ L ∈ a.loops.loops,
      L.head ≠ L.entry → ∀ v ∈ L.body, isGuard essayFlow v = true →
        renameOne "accept" "agree" L.head < renameOne "accept" "agree" v :=
    exists_check_ok (by decide +kernel)
  exact ⟨⟨a, ha⟩, ((check_rename hinj).1 a ha).mpr hleast⟩

/-- Under the name `sign-off`, which is greater, the outer loop is taken for the inner one's, and the
workflow is refused. -/
theorem check_rename_essayFlow_refused : (∃ a, check essayFlow = .ok a) ∧
    (∀ u ∈ essayFlow.ids, ∀ v ∈ essayFlow.ids,
      renameOne "accept" "sign-off" u = renameOne "accept" "sign-off" v → u = v) ∧
    ¬∃ a', check (essayFlow.rename (renameOne "accept" "sign-off")) = .ok a' := by
  obtain ⟨a, ha, -⟩ : ∃ a, check essayFlow = .ok a ∧ True := exists_check_ok (by decide +kernel)
  refine ⟨⟨a, ha⟩, by decide, ?_⟩
  rw [not_exists]
  intro a' ha'
  have hrefused : (check (essayFlow.rename (renameOne "accept" "sign-off"))).toOption.isNone = true :=
    by decide +kernel
  rw [ha'] at hrefused
  exact Bool.false_ne_true hrefused

end Flowscript
