/-
Where planning comes to from a node.

A call plans only nodes that its node leads to (`Traced`).  The exception would be a node behind a
link back to the entry of a loop that is being planned.  The entry is planned already; but where
several such links start, their arms may meet further on.  A node that is reached in this way only
is `Stray`: it is outside the loops being planned, or the entry of one of them, so that it is never
planned in the scope in which it was reached (`Stray.not_opens`).

* `reached_of_arms` — where arms come together is led to by the node, or stray, if the arms are;
* `Step.traced` — a step plans what its node leads to, given that the calls it makes do.
-/
import Flowscript.Proofs.Plan.Nesting
import Flowscript.Proofs.Plan.Rule

open Relation

namespace Flowscript

namespace Plan

variable {a : Accepted} {A : List Loop} {s s' : Scope} {p q r : Progress} {id : String}

/-- The entry of the loop leads to the node.  A loop being planned that has the node is further out,
or has it as its entry. -/
structure Stray (a : Accepted) (s : Scope) (A : List Loop) (M : Loop) (t : String) : Prop where
  mem : M ∈ A
  led : Led a s M.entry t
  outer : ∀ N ∈ A, N.Has t → (M ≠ N ∧ N.Has M.entry) ∨ t = N.entry

/-- A node that is called on the way from `x`. -/
def Reached (a : Accepted) (s : Scope) (A : List Loop) (x t : String) : Prop :=
  Led a s x t ∨ ∃ M, Stray a s A M t

theorem Stray.mono (hss' : s.reserved ⊆ s'.reserved) {M : Loop} {t : String}
    (h : Stray a s' A M t) : Stray a s A M t :=
  ⟨h.mem, h.led.mono hss', h.outer⟩

theorem stray_entry {M : Loop} (hM : M ∈ A) : Stray a s A M M.entry := by
  refine ⟨hM, .refl, fun N _ hhas => ?_⟩
  by_cases hMN : M = N
  · exact .inr (hMN ▸ rfl)
  · exact .inl ⟨hMN, hhas⟩

/-- Of two loops one inside the other only the outer one has the entry of the other. -/
theorem not_has_entry (hs : a.Sound) {N M : Loop} (hN : N ∈ a.loops.loops) (hM : M ∈ a.loops.loops)
    (hne : N ≠ M) (hentry : M.Has N.entry) : ¬N.Has M.entry := by
  intro hhas
  have hhead : M.head ∈ N.body := hs.inside N hN M hM hne hhas M.head (.inl rfl)
  exact hs.head_notMem M hM (hs.inside M hM N hN hne.symm hentry M.head (.inr hhead))

/-- A stray node is not planned where planning keeps to the loops it strayed from. -/
theorem Stray.not_opens (hs : a.Sound) (hscope : s.Fits a A) (hbegun : Begun A p)
    (hwithin : s'.within = s.within) {M : Loop} {t : String} (h : Stray a s A M t) :
    ¬Opens a s' p t := by
  intro hopens
  obtain ⟨N, rest, rfl⟩ := List.exists_cons_of_ne_nil (List.ne_nil_of_mem h.mem)
  have hbody : t ∈ N.body := hopens.within N.body (hwithin.trans hscope.within)
  -- the innermost loop is not outside of any other
  rcases h.outer N List.mem_cons_self (.inr hbody) with ⟨hne, hhas⟩ | hentry
  · have hrest := (List.mem_cons.mp h.mem).resolve_left hne
    obtain ⟨hne, hentry⟩ := (List.pairwise_cons.mp hscope.nested).1 M hrest
    exact not_has_entry hs (hscope.active N List.mem_cons_self).1 (hscope.active M h.mem).1 hne
      hentry hhas
  · exact hopens.fresh (hentry ▸ hbegun N List.mem_cons_self)

theorem exists_first {P : Loop → Prop} (h : ∃ M ∈ A, P M) :
    ∃ inner M outer, A = inner ++ M :: outer ∧ P M ∧ ∀ N ∈ inner, ¬P N := by
  classical
  obtain ⟨M, hM⟩ := Option.isSome_iff_exists.mp
    (List.find?_isSome (p := fun M => decide (P M)).mpr (by simpa using h))
  obtain ⟨hP, inner, outer, hA, hinner⟩ := List.find?_eq_some_iff_append.mp hM
  exact ⟨inner, M, outer, hA, by simpa using hP, by simpa using hinner⟩

/-- Where arms come together is led to or stray if the arms are, given that they come together at
the entry of any loop that they enter there. -/
theorem reached_of_arms (hs : a.Sound) (hscope : s.Fits a A) {x m : String} {ts : List String}
    (hne : ts ≠ []) (hts : ∀ t ∈ ts, Reached a s A x t) (hled : ∀ t ∈ ts, Led a s t m)
    (hentry : ∀ L ∈ a.loops.loops, (∀ t ∈ ts, L.Has t → t = L.entry) → L.Has m → m = L.entry) :
    Reached a s A x m := by
  by_cases hway : ∃ t ∈ ts, Led a s x t
  · obtain ⟨t, ht, hxt⟩ := hway
    exact .inl (hxt.trans (hled t ht))
  have hstray : ∀ t ∈ ts, ∃ M, Stray a s A M t := fun t ht =>
    (hts t ht).resolve_left fun h => hway ⟨t, ht, h⟩
  -- the innermost of the loops from which the arms strayed
  obtain ⟨inner, M, outer, rfl, ⟨t, ht, hM⟩, hinner⟩ : ∃ inner M outer, A = inner ++ M :: outer ∧
      (∃ t ∈ ts, Stray a s A M t) ∧ ∀ N ∈ inner, ¬∃ t ∈ ts, Stray a s A N t := by
    obtain ⟨t, ht⟩ := List.exists_mem_of_ne_nil ts hne
    obtain ⟨M, hM⟩ := hstray t ht
    exact exists_first ⟨M, hM.mem, t, ht, hM⟩
  refine .inr ⟨M, hM.mem, hM.led.trans (hled t ht), fun N hN hhas => ?_⟩
  obtain ⟨-, houter, hcross⟩ := List.pairwise_append.mp hscope.nested
  obtain ⟨houter, -⟩ := List.pairwise_cons.mp houter
  by_cases hfar : N ∈ outer
  · exact .inl (houter N hfar)
  · refine .inr (hentry N (hscope.active N hN).1 (fun u hu hNu => ?_) hhas)
    obtain ⟨M', hM'⟩ := hstray u hu
    refine (hM'.outer N hN hNu).resolve_left ?_
    rintro ⟨hne, hback⟩
    -- the loop that this arm strayed from is not inside of `N`
    have hnear : M' ∈ M :: outer := (List.mem_append.mp hM'.mem).resolve_left fun h =>
      hinner M' h ⟨u, hu, hM'⟩
    have hnested : N ≠ M' ∧ M'.Has N.entry := by
      rcases List.mem_append.mp hN with hN | hN
      · exact hcross N hN M' hnear
      · obtain rfl := (List.mem_cons.mp hN).resolve_right hfar
        exact houter M' ((List.mem_cons.mp hnear).resolve_left hne)
    exact not_has_entry hs (hscope.active N hN).1 (hscope.active M' hM'.mem).1 hnested.1 hnested.2
      hback

theorem reached_of_earliest (hs : a.Sound) (hscope : s.Fits a A) {x v : String}
    {ids : List String} (hids : ∀ t ∈ ids, Reached a s A x t)
    (hv : v ∈ earliest a (common a a.order s ids)) : Reached a s A x v := by
  obtain ⟨-, -, hcount⟩ := (mem_common hs).mp (mem_earliest.mp hv).1
  obtain ⟨t, ht, htv⟩ := exists_arm (Nat.lt_trans Nat.zero_lt_one hcount)
  -- only the arms that lead to the node have a say
  have hmem : ∀ t, t ∈ ids.filter (fun t => (forwardReach a s t).contains v) ↔
      t ∈ ids ∧ Led a s t v := by
    simp [mem_forwardReach]
  refine reached_of_arms hs hscope (List.ne_nil_of_mem ((hmem t).mpr ⟨ht, htv⟩))
    (fun t ht => hids t ((hmem t).mp ht).1) (fun t ht => ((hmem t).mp ht).2) fun L hL hentry hhas => ?_
  exact entry_of_earliest hs hL (fun t ht htv => hentry t ((hmem t).mpr ⟨ht, htv⟩)) hv hhas

/-! ### What a node leads to -/

theorem Plain.reached (hs : a.Sound) (h : Plain a A s p id) {l : Link} (hl : l ∈ a.graph.links)
    (hsource : l.source = id) : Reached a s A id l.target := by
  rcases hback : a.loops.isBack l with _ | _
  · exact .inl (.single ⟨h.opens.free, l, hl, hback, hsource, rfl⟩)
  · obtain ⟨L, hL, htarget, hhas⟩ := (hs.isBack_iff l hl).mp hback
    rw [htarget]
    exact .inr ⟨L, stray_entry (h.active L hL (hsource ▸ hhas))⟩

theorem Plain.reached_targets (hs : a.Sound) (h : Plain a A s p id) (ls : List Link)
    (hls : ∀ l ∈ ls, l ∈ a.graph.links ∧ l.source = id) :
    ∀ t ∈ ls.map Link.target, Reached a s A id t := by
  intro t ht
  obtain ⟨l, hl, rfl⟩ := List.mem_map.mp ht
  exact h.reached hs (hls l hl).1 (hls l hl).2

/-- The entry of a loop that is opened leads to all of it. -/
theorem Starts.led (hs : a.Sound) {L : Loop} (h : Starts a A s p L) {v : String} (hv : L.Has v) :
    Led a s L.entry v :=
  led_of_has hs h.mem (fun v hv hres =>
    h.opens.free (h.ready.scope.closed L h.mem h.notMem v hres hv)) hv

theorem Starts.reached_exit (hs : a.Sound) {L : Loop} (h : Starts a A s p L) {t : String}
    (ht : t ∈ exits a L) : Reached a s A L.entry t := by
  obtain ⟨l, hl, rfl⟩ := List.mem_map.mp (List.mem_filter.mp ht).1
  obtain ⟨hlinks, hsource⟩ := mem_outByTarget.mp hl
  rcases hback : a.loops.isBack l with _ | _
  · exact .inl ((h.led hs (.inl rfl)).tail ⟨h.head, l, hlinks, hback, hsource, rfl⟩)
  · obtain ⟨M, hM, htarget, hhas⟩ := (hs.isBack_iff l hlinks).mp hback
    rw [htarget]
    rcases List.mem_cons.mp (h.active hs M hM (hsource ▸ hhas)) with rfl | hA
    · exact .inl .refl
    · exact .inr ⟨M, stray_entry hA⟩

/-! ### Runs of calls -/

/-- What a call plans is led to by its node, and what it leaves is led to or stray. -/
def Traced (a : Accepted) : Call := fun A s id p b q =>
  (∀ v ∈ b.owned, Opens a s p id ∧ Led a s id v) ∧
    ∀ t ∈ q.outside, t ∈ p.outside ∨ t = id ∨ Opens a s p id ∧ Reached a s A id t

/-- The same of a part of the plan that is made on the way from `x`. -/
structure Trace (a : Accepted) (A : List Loop) (s : Scope) (x : String) (p : Progress)
    (new : List String) (q : Progress) : Prop where
  led : ∀ v ∈ new, Led a s x v
  outside : ∀ t ∈ q.outside, t ∈ p.outside ∨ Reached a s A x t

theorem Trace.refl {x : String} (h : q.outside = p.outside) : Trace a A s x p [] q :=
  ⟨by simp, fun _ ht => .inl (h ▸ ht)⟩

theorem Trace.trans {x : String} {first second : List String} (h : Trace a A s x p first q)
    (h' : Trace a A s x q second r) : Trace a A s x p (first ++ second) r where
  led := fun v hv => (List.mem_append.mp hv).elim (h.led v) (h'.led v)
  outside := fun t ht => (h'.outside t ht).elim (h.outside t) .inr

section Runs

variable (hs : a.Sound) (hscope : s.Fits a A) {x : String}
include hs hscope

theorem Keeps.trace {b : Block} (h : Keeps a (Traced a) A s' id p b q)
    (hss' : s.reserved ⊆ s'.reserved) (hwithin : s'.within = s.within) (hbegun : Begun A p)
    (hid : Reached a s A x id) : Trace a A s x p b.owned q := by
  obtain ⟨-, -, howned, houtside⟩ := h
  have hled : Opens a s' p id → Led a s x id := by
    intro hopens
    rcases hid with hway | ⟨M, hM⟩
    · exact hway
    · exact absurd hopens (hM.not_opens hs hscope hbegun hwithin)
  refine ⟨fun v hv => ?_, fun t ht => ?_⟩
  · obtain ⟨hopens, hv⟩ := howned v hv
    exact (hled hopens).trans (hv.mono hss')
  · rcases houtside t ht with hold | rfl | ⟨hopens, hway | ⟨M, hM⟩⟩
    · exact .inl hold
    · exact .inr hid
    · exact .inr (.inl ((hled hopens).trans (hway.mono hss')))
    · exact .inr (.inr ⟨M, hM.mono hss'⟩)

theorem Each.trace {ids : List String} {bs : List Block}
    (h : Each (Keeps a (Traced a)) A s' ids p bs q) (hss' : s.reserved ⊆ s'.reserved)
    (hwithin : s'.within = s.within) (hbegun : Begun A p)
    (hids : ∀ t ∈ ids, Reached a s A x t) : Trace a A s x p (Block.ownedList bs) q := by
  induction h with
  | nil => exact .refl rfl
  | cons head tail ih =>
    exact (head.trace hs hscope hss' hwithin hbegun (hids _ List.mem_cons_self)).trans
      (ih (head.2.1.grown.begun hbegun) fun t ht => hids t (List.mem_cons_of_mem _ ht))

theorem Arms.trace {ids : List String} {bs : List Block} {next : Block}
    (h : Arms a (Keeps a (Traced a)) A s ids p bs next q) (hp : p.Fits a A) (hbegun : Begun A p)
    (hids : ∀ t ∈ ids, Reached a s A x t) :
    Trace a A s x p (Block.ownedList bs ++ next.owned) q := by
  cases h with
  | apart none arms =>
    exact (arms.trace hs hscope (List.Subset.refl _) rfl hbegun hids).trans (.refl rfl)
  | @meet m bs mid next r two some arms rest =>
    have hne : ids ≠ [] := by
      rintro rfl
      exact absurd two (by decide)
    have hm := reached_of_arms hs hscope hne hids (meeting?_eq_some some).1
      fun L hL hentry hhas => entry_of_meeting hs hL hentry hne some hhas
    exact (arms.trace hs hscope (List.subset_append_left _ _) rfl hbegun hids).trans
      (rest.trace hs hscope (List.Subset.refl _) rfl ((arms.grown hp).begun hbegun) hm)

theorem Behind.trace {ids : List String} {b : Block}
    (h : Behind a (Keeps a (Traced a)) A s ids p b q) (hp : p.Fits a A) (hbegun : Begun A p)
    (hids : ∀ t ∈ ids, Reached a s A x t) : Trace a A s x p b.owned q := by
  cases h with
  | nothing none => exact .refl rfl
  | one only call =>
    exact call.trace hs hscope (List.Subset.refl _) rfl hbegun (hids _ ((only _).mpr rfl))
  | several nodup all arms =>
    exact arms.trace hs hscope hp hbegun fun t ht => hids t ((all t).mp ht)

end Runs

/-! ### Steps -/

theorem Trace.traced {b : Block} (h : Trace a A s id p b.owned q) (hopens : Opens a s p id) :
    Traced a A s id p b q :=
  ⟨fun v hv => ⟨hopens, h.led v hv⟩, fun t ht => (h.outside t ht).imp_right fun hway =>
    .inr ⟨hopens, hway⟩⟩

theorem Trace.mark : Trace a A s id p [id] (p.mark id) :=
  ⟨fun _ hv => List.mem_singleton.mp hv ▸ .refl, fun _ ht => .inl ht⟩

variable (hs : a.Sound)
include hs

/-- The round of a loop plans only the loop. -/
theorem Starts.trace_round {L : Loop} (h : Starts a A s p L) {body : Block}
    (hround : Keeps a (Traced a) (L :: A) (s.inside L) L.bodyEntry
      { p.mark L.head with outside := [] } body q) :
    (∀ v ∈ L.head :: body.owned, Led a s L.entry v) ∧
      ∀ t ∈ q.outside, Reached a s A L.entry t := by
  obtain ⟨-, hend, howned, houtside⟩ := hround
  have hbodyEntry : Led a s L.entry L.bodyEntry := h.led hs (.inr (hs.bodyEntry_mem L h.mem))
  have hsub : s.reserved ⊆ (s.inside L).reserved := List.subset_append_left _ _
  refine ⟨fun v hv => ?_, fun t ht => ?_⟩
  · rcases List.mem_cons.mp hv with rfl | hv
    · exact h.led hs (.inl rfl)
    · exact h.led hs (.inr (hend.grown.within v hv L.body rfl))
  · rcases houtside t ht with hnil | rfl | ⟨-, hway | ⟨M, hM⟩⟩
    · exact absurd hnil List.not_mem_nil
    · exact .inl hbodyEntry
    · exact .inl (hbodyEntry.trans (hway.mono hsub))
    · rcases List.mem_cons.mp hM.mem with rfl | hA
      · exact .inl (hM.led.mono hsub)
      · refine .inr ⟨M, hA, hM.led.mono hsub, fun N hN => ?_⟩
        exact hM.outer N (List.mem_cons_of_mem _ hN)

theorem Step.traced {b : Block} (hready : Ready a A s id p)
    (h : Step a (Keeps a (Traced a)) A s id p b q) : Traced a A s id p b q := by
  have hscope := hready.scope
  cases h with
  | reserved stop => exact ⟨by simp [Block.owned], fun t ht => .inl ht⟩
  | outside free beyond =>
    refine ⟨by simp [Block.owned], fun t ht => ?_⟩
    rw [Progress.leave] at ht
    split at ht
    · exact .inl ht
    · exact (List.mem_append.mp ht).imp_right fun h => .inl (List.mem_singleton.mp h)
  | again free within old => exact ⟨by simp [Block.owned], fun t ht => .inl ht⟩
  | early free within fresh wait =>
    refine ⟨by simp [Block.owned], fun t ht => .inl ?_⟩
    rw [Progress.postpone] at ht
    split at ht <;> exact ht
  | @loop L c b q opens mem entry head round config =>
    subst entry
    have hstart : Starts a A s p L := ⟨mem, hready, opens, head⟩
    cases round with
    | @mk body mid next r round behind =>
      obtain ⟨hled, hleft⟩ := hstart.trace_round hs round
      have hround := hstart.grown_round hs round.2.1
      have htold := hround.trans (Grown.tell hround.fits
        (mid.outside.map fun node => .loopExit node L.head))
      have hnext := behind.trace hs hscope htold.fits (htold.begun (hstart.begun hs))
        fun t ht => (List.mem_append.mp ht).elim (hstart.reached_exit hs) (hleft t)
      refine Trace.traced ⟨fun v hv => ?_, hnext.outside⟩ opens
      rw [Block.owned, ← List.cons_append] at hv
      exact (List.mem_append.mp hv).elim (hled v) (hnext.led v)
  | seq opens plain behind kind =>
    have hplain : Plain a A s p id := ⟨hready, opens, plain⟩
    have hids := hplain.reached_targets hs _ fun l hl => mem_outByTarget.mp hl
    exact (Trace.mark.trans (behind.trace hs hscope hplain.mark_fits hready.begun hids)).traced opens
  | @branch c t f onTrue onFalse next q opens plain kind links labels arms =>
    have hplain : Plain a A s p id := ⟨hready, opens, plain⟩
    have hids := hplain.reached_targets hs [t, f] fun l hl =>
      Graph.mem_outgoing.mp ((links l).mpr (by simpa using hl))
    have harms := arms.trace hs hscope hplain.mark_fits hready.begun hids
    simp only [Block.ownedList, List.append_nil] at harms
    exact (Trace.mark.trans harms).traced opens
  | @fan c bs mid next r opens plain kind arms behind =>
    have hplain : Plain a A s p id := ⟨hready, opens, plain⟩
    have hids := hplain.reached_targets hs _ fun l hl => mem_outBySlot.mp hl
    have hgrown := (arms.grown hplain.mark_fits).relax
    have harms := arms.trace hs hscope (List.subset_append_left _ _) rfl hready.begun hids
    have hnext := behind.trace hs hscope (hgrown.fits.tell _) (hgrown.begun hready.begun)
      fun v hv => reached_of_earliest hs hscope hids hv
    have hall := Trace.mark.trans (harms.trans ⟨hnext.led, hnext.outside⟩)
    have hlength : bs.length ≤ ((outBySlot a id).map fun l => l.edge.slot.getD "").length := by
      simp [arms.length_eq]
    rw [← Block.ownedArms_zip hlength] at hall
    exact hall.traced opens

end Plan

end Flowscript
