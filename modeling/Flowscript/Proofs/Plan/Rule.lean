/-
Every call of the planner keeps the invariant.

`Step.kept` carries the invariant through one step: it holds before each call that the step makes,
and again when the step is done.  By induction on the depth:

* `walk_rule` — what every step takes from its calls to itself holds of every call;
* `plan_rule` — and so of the plan of an accepted workflow, whose depth always suffices.
-/
import Flowscript.Proofs.Plan.Invariant
import Flowscript.Proofs.Plan.Tree

namespace Flowscript

namespace Plan

variable {a : Accepted} {A : List Loop} {s : Scope} {p q r : Progress} {id : String}

theorem Scope.Fits.stopAt (h : s.Fits a A) {more : List String}
    (hmore : ∀ L ∈ a.loops.loops, L ∉ A → ∀ v ∈ more, L.Has v →
      L.entry ∈ s.reserved ∨ L.entry ∈ more) : (s.stopAt more).Fits a A where
  active := fun L hL => (h.active L hL).imp_right (List.mem_append_left _)
  within := h.within
  nested := h.nested
  closed := by
    intro L hL hA v hv hhas
    rcases List.mem_append.mp hv with hv | hv
    · exact List.mem_append_left _ (h.closed L hL hA v hv hhas)
    · exact List.mem_append.mpr (hmore L hL hA v hv hhas)

theorem Scope.Fits.stopAt_one (h : s.Fits a A) {m : String} (hm : Callable a A m) :
    (s.stopAt [m]).Fits a A := by
  refine h.stopAt fun L hL hA v hv hhas => .inr ?_
  obtain rfl := List.mem_singleton.mp hv
  exact List.mem_singleton.mpr (hm.2 L hL hA hhas).symm

/-! ### Where planning goes on -/

section Targets

variable (hs : a.Sound)
include hs

theorem Plain.callable_of_target (h : Plain a A s p id) :
    ∀ t ∈ (outByTarget a id).map Link.target, Callable a A t := by
  intro t ht
  obtain ⟨l, hl, rfl⟩ := List.mem_map.mp ht
  obtain ⟨hlinks, hsource⟩ := mem_outByTarget.mp hl
  exact h.callable_of_link hs hlinks hsource

theorem Plain.callable_of_slot (h : Plain a A s p id) :
    ∀ t ∈ (outBySlot a id).map Link.target, Callable a A t := by
  intro t ht
  obtain ⟨l, hl, rfl⟩ := List.mem_map.mp ht
  obtain ⟨hlinks, hsource⟩ := mem_outBySlot.mp hl
  exact h.callable_of_link hs hlinks hsource

theorem Plain.callable_of_label (h : Plain a A s p id) {t f : Link}
    (hlinks : ∀ l, l ∈ a.graph.outgoing id ↔ l = t ∨ l = f) :
    ∀ v ∈ [t.target, f.target], Callable a A v := by
  have hcall : ∀ l, l = t ∨ l = f → Callable a A l.target := by
    intro l hl
    obtain ⟨hmem, hsource⟩ := Graph.mem_outgoing.mp ((hlinks l).mpr hl)
    exact h.callable_of_link hs hmem hsource
  exact List.forall_mem_cons.mpr
    ⟨hcall t (.inl rfl), List.forall_mem_singleton.mpr (hcall f (.inr rfl))⟩

/-- The arms of a parallel node may stop at what two of them lead to. -/
theorem Plain.fits_shared (h : Plain a A s p id) : (s.stopAt (shared a s id)).Fits a A :=
  h.ready.scope.stopAt fun _ hL hA _ hv hhas =>
    entry_of_common hs (h.callable_of_slot hs) hL hA hv hhas

theorem Plain.callable_of_shared (h : Plain a A s p id) :
    ∀ t ∈ earliest a (shared a s id), Callable a A t := fun _ ht =>
  callable_of_earliest hs (h.callable_of_slot hs) ht

variable {L : Loop} {body : Block}

theorem Starts.callable_behind (h : Starts a A s p L) (hq : q.Fits a (L :: A)) :
    ∀ t ∈ exits a L ++ q.outside, Callable a A t := fun _ ht =>
  (List.mem_append.mp ht).elim (h.callable_of_exit hs) (Starts.callable_of_left hq)

/-- What a loop has added when its body is planned. -/
theorem Starts.grown_told (h : Starts a A s p L) (hend : Ended a (L :: A) (s.inside L) L.bodyEntry
    { p.mark L.head with outside := [] } body q) (notes : List PlanNote) :
    Grown a A s p (L.head :: body.owned) ({ q with outside := p.outside }.tell notes) := by
  have hround := h.grown_round hs hend
  have htold := hround.trans (Grown.tell hround.fits notes)
  rwa [List.append_nil] at htold

end Targets

/-! ### Runs of calls -/

/-- A call that was made with the invariant, and of which `Φ` holds. -/
def Keeps (a : Accepted) (Φ : Call) : Call := fun A s id p b q =>
  Ready a A s id p ∧ Ended a A s id p b q ∧ Φ A s id p b q

section Grown

variable {Φ : Call}

theorem Each.grown {ids : List String} {bs : List Block} (h : Each (Keeps a Φ) A s ids p bs q)
    (hp : p.Fits a A) : Grown a A s p (Block.ownedList bs) q := by
  induction h with
  | nil => exact .refl hp
  | cons head tail ih =>
    obtain ⟨-, hend, -⟩ := head
    exact hend.grown.trans (ih hend.grown.fits)

theorem Arms.grown {ids : List String} {bs : List Block} {next : Block}
    (h : Arms a (Keeps a Φ) A s ids p bs next q) (hp : p.Fits a A) :
    Grown a A s p (Block.ownedList bs ++ next.owned) q := by
  cases h with
  | apart none arms =>
    rw [Block.owned, List.append_nil]
    exact arms.grown hp
  | meet two some arms rest =>
    obtain ⟨-, hend, -⟩ := rest
    exact (arms.grown hp).relax.trans hend.grown

theorem Behind.grown {ids : List String} {b : Block} (h : Behind a (Keeps a Φ) A s ids p b q)
    (hp : p.Fits a A) : Grown a A s p b.owned q := by
  cases h with
  | nothing none => exact .refl hp
  | one only call => exact call.2.1.grown
  | several nodup all arms => exact arms.grown hp

end Grown

/-! ### One step -/

/-- A call that was made with the invariant, when fewer than `n` nodes were not planned. -/
def Kept (a : Accepted) (R : Call) (n : Nat) : Call :=
  Keeps a fun A s id p b q => R A s id p b q ∧ unplanned a p < n

section Kept

variable (hs : a.Sound) {R : Call} {n : Nat}
  (hcalls : ∀ A s id p b q, R A s id p b q → Ready a A s id p → unplanned a p < n →
    Ended a A s id p b q)

include hcalls

theorem Each.kept {ids : List String} {bs : List Block} (h : Each R A s ids p bs q)
    (hscope : s.Fits a A) (hids : ∀ t ∈ ids, Callable a A t) (hp : p.Fits a A) (hbegun : Begun A p)
    (hn : unplanned a p < n) : Each (Kept a R n) A s ids p bs q := by
  induction h with
  | nil => exact .nil
  | @cons id ids p b q bs r head tail ih =>
    have hready : Ready a A s id p := ⟨hscope, hp, hids id List.mem_cons_self, hbegun.mark id⟩
    have hend := hcalls _ _ _ _ _ _ head hready hn
    exact .cons ⟨hready, hend, head, hn⟩ (ih (fun t ht => hids t (List.mem_cons_of_mem _ ht))
      hend.grown.fits (hend.grown.begun hbegun) (Nat.lt_of_le_of_lt hend.grown.unplanned_le hn))

include hs

theorem Arms.kept {ids : List String} {bs : List Block} {next : Block}
    (h : Arms a R A s ids p bs next q) (hscope : s.Fits a A) (hids : ∀ t ∈ ids, Callable a A t)
    (hp : p.Fits a A) (hbegun : Begun A p) (hn : unplanned a p < n) :
    Arms a (Kept a R n) A s ids p bs next q := by
  cases h with
  | apart none arms => exact .apart none (arms.kept hcalls hscope hids hp hbegun hn)
  | @meet m bs mid next r two some arms rest =>
    have hne : ids ≠ [] := by
      rintro rfl
      exact absurd two (by decide)
    have hm := callable_of_meeting hs hids hne some
    have hkept := arms.kept hcalls (hscope.stopAt_one hm) hids hp hbegun hn
    have hready : Ready a A s m mid :=
      ⟨hscope, (hkept.grown hp).fits, hm, ((hkept.grown hp).begun hbegun).mark m⟩
    have hmid : unplanned a mid < n := Nat.lt_of_le_of_lt (hkept.grown hp).unplanned_le hn
    exact .meet two some hkept ⟨hready, hcalls _ _ _ _ _ _ rest hready hmid, rest, hmid⟩

theorem Behind.kept {ids : List String} {b : Block} (h : Behind a R A s ids p b q)
    (hscope : s.Fits a A) (hids : ∀ t ∈ ids, Callable a A t) (hp : p.Fits a A) (hbegun : Begun A p)
    (hn : unplanned a p < n) : Behind a (Kept a R n) A s ids p b q := by
  cases h with
  | nothing none => exact .nothing none
  | @one id b q only call =>
    have hready : Ready a A s id p := ⟨hscope, hp, hids id ((only id).mpr rfl), hbegun.mark id⟩
    exact .one only ⟨hready, hcalls _ _ _ _ _ _ call hready hn, call, hn⟩
  | several nodup all arms =>
    exact .several nodup all
      (arms.kept hs hcalls hscope (fun t ht => hids t ((all t).mp ht)) hp hbegun hn)

theorem Round.kept {L : Loop} {c : FeedbackLoop} {b : Block}
    (h : Round a R A s L c (p.mark L.head) b r) (hstart : Starts a A s p L)
    (hn : unplanned a (p.mark L.head) < n) :
    Round a (Kept a R n) A s L c (p.mark L.head) b r ∧ Grown a A s p b.owned r ∧
      L.entry ∈ r.planned := by
  cases h with
  | @mk body q next r round behind =>
    have hready := hstart.ready_inside hs
    have hend := hcalls _ _ _ _ _ _ round hready hn
    have hentry : L.entry ∈ q.planned := hstart.entry_planned hs hend
    have htold := hstart.grown_told hs hend (q.outside.map fun node => .loopExit node L.head)
    have hkept := behind.kept hs hcalls hstart.ready.scope
      (hstart.callable_behind hs hend.grown.fits) htold.fits
      (htold.begun (hstart.begun hs)) (Nat.lt_of_le_of_lt hend.grown.unplanned_le hn)
    have hgrown := hkept.grown htold.fits
    exact ⟨.mk ⟨hready, hend, round, hn⟩ hkept, htold.trans hgrown,
      hgrown.mem_planned.mpr (.inr hentry)⟩

/-- A step keeps the invariant if the calls it makes do. -/
theorem Step.kept {b : Block} (h : Step a R A s id p b q) (hready : Ready a A s id p)
    (hn : unplanned a p ≤ n) :
    Step a (Kept a R n) A s id p b q ∧ Ended a A s id p b q := by
  have hsame : Grown a A s p [] p := .refl hready.progress
  cases h with
  | reserved stop => exact ⟨.reserved stop, hsame, .inl stop⟩
  | outside free beyond =>
    refine ⟨.outside free beyond, ?_, .inr (.inr (.inl ⟨beyond, ?_⟩))⟩
    · rw [Progress.leave]
      split
      · exact hsame
      · -- the node is on the cycle of no loop that is left
        have hnot : ∀ L ∈ A.head?, ¬L.Has id := by
          intro L hL hhas
          have hwithin := hready.scope.within
          rw [Option.mem_def.mp hL] at hwithin
          rcases hhas with rfl | hbody
          · exact free (hready.scope.active L (List.mem_of_head? hL)).2
          · refine beyond fun body hb => ?_
            obtain rfl := Option.some.inj (hwithin.symm.trans hb)
            exact hbody
        refine { hsame with fits := { hready.progress with outside := ?_ }, outside := ?_ }
        · intro v hv
          rcases List.mem_append.mp hv with hv | hv
          · exact hready.progress.outside v hv
          · obtain rfl := List.mem_singleton.mp hv
            exact ⟨hready.callable, hnot⟩
        · exact List.subset_append_left _ _
    · rw [Progress.leave]
      split
      · rename_i h
        exact List.contains_iff_mem.mp h
      · exact List.mem_append_right _ List.mem_cons_self
  | again free within old =>
    exact ⟨.again free within old, Grown.tell hready.progress _, .inr (.inl old)⟩
  | early free within fresh wait =>
    refine ⟨.early free within fresh wait, ?_, .inr (.inr (.inr ?_))⟩
    · rw [Progress.postpone]
      split
      · exact hsame
      · have htell := Grown.tell (s := s) hready.progress [.joinPostponed id]
        refine { htell with fits := { htell.fits with noted := fun v hv => ?_ } }
        rcases List.mem_cons.mp hv with rfl | hv
        · exact List.mem_append_right _ List.mem_cons_self
        · exact htell.fits.noted v hv
    · rw [Progress.postpone]
      split <;> exact wait
  | loop opens mem entry head round config =>
    subst entry
    have hstart : Starts a A s p _ := ⟨mem, hready, opens, head⟩
    have hmark := unplanned_mark (hs.has_mem _ mem _ (.inl rfl)) hstart.head_fresh
    obtain ⟨hkept, hgrown, hentry⟩ := round.kept hs hcalls hstart (Nat.lt_of_lt_of_le hmark hn)
    exact ⟨.loop opens mem rfl head hkept config, hgrown, .inr (.inl hentry)⟩
  | seq opens plain behind kind =>
    have hplain : Plain a A s p id := ⟨hready, opens, plain⟩
    have hmark := unplanned_mark hready.callable.1 opens.fresh
    have hkept := behind.kept hs hcalls hready.scope (hplain.callable_of_target hs) hplain.mark_fits
      hready.begun (Nat.lt_of_lt_of_le hmark hn)
    have hall := hplain.grown_mark.trans (hkept.grown hplain.mark_fits)
    exact ⟨.seq opens plain hkept kind, hall, .inr (.inl (hall.mem_planned.mpr (by simp)))⟩
  | @branch c t f onTrue onFalse next q opens plain kind links labels arms =>
    have hplain : Plain a A s p id := ⟨hready, opens, plain⟩
    have hmark := unplanned_mark hready.callable.1 opens.fresh
    have hkept := arms.kept hs hcalls hready.scope (hplain.callable_of_label hs links)
      hplain.mark_fits hready.begun (Nat.lt_of_lt_of_le hmark hn)
    have hall := hplain.grown_mark.trans (hkept.grown hplain.mark_fits)
    simp only [Block.ownedList, List.append_nil] at hall
    exact ⟨.branch opens plain kind links labels hkept, hall,
      .inr (.inl (hall.mem_planned.mpr (by simp)))⟩
  | @fan c bs mid next r opens plain kind arms behind =>
    have hplain : Plain a A s p id := ⟨hready, opens, plain⟩
    have hmark := unplanned_mark hready.callable.1 opens.fresh
    have hkept := arms.kept hcalls (hplain.fits_shared hs) (hplain.callable_of_slot hs)
      hplain.mark_fits hready.begun (Nat.lt_of_lt_of_le hmark hn)
    have hgrown := hkept.grown hplain.mark_fits
    have htold := hgrown.relax.trans (Grown.tell hgrown.fits
      (fanNotes a id c.merge (shared a s id)
        ((outBySlot a id).zip bs)))
    have hkept' := behind.kept hs hcalls hready.scope
      (hplain.callable_of_shared hs) htold.fits (htold.begun hready.begun)
      (Nat.lt_of_le_of_lt hgrown.unplanned_le (Nat.lt_of_lt_of_le hmark hn))
    have hall := hplain.grown_mark.trans (htold.trans (hkept'.grown htold.fits))
    have hlength : bs.length ≤ ((outBySlot a id).map fun l => l.edge.slot.getD "").length := by
      simp [arms.length_eq]
    rw [List.append_nil, ← Block.ownedArms_zip hlength] at hall
    exact ⟨.fan opens plain kind hkept hkept', hall,
      .inr (.inl (hall.mem_planned.mpr (by simp)))⟩

end Kept

/-! ### Every call -/

/-- What every step takes from its calls to itself holds of every call. -/
theorem walk_rule (hs : a.Sound) (Φ : Call)
    (hΦ : ∀ A s id p b q, Ready a A s id p → Ended a A s id p b q →
      Step a (Keeps a Φ) A s id p b q → Φ A s id p b q) :
    ∀ depth A s id p b q, blockFrom a a.order depth s id p = (b, q) → Ready a A s id p →
      unplanned a p < depth → Ended a A s id p b q ∧ Φ A s id p b q := by
  intro depth
  -- a step marks a node before it calls itself, so one level less is enough for its calls
  induction depth with
  | zero => exact fun A s id p b q _ _ hn => absurd hn (Nat.not_lt_zero _)
  | succ depth ih =>
    intro A s id p b q hcall hready hn
    have hstep := blockFrom_step hs depth A s id p
    rw [hcall] at hstep
    obtain ⟨hkept, hend⟩ := hstep.kept hs
      (fun A s id p b q hcall hready hn => (ih A s id p b q hcall hready hn).1) hready
      (Nat.le_of_lt_succ hn)
    refine ⟨hend, hΦ A s id p b q hready hend (hkept.mono ?_)⟩
    rintro A s id p b q ⟨hready, hend, hcall, hn⟩
    exact ⟨hready, hend, (ih A s id p b q hcall hready hn).2⟩

/-- The invariant speaks of planned nodes and of loops being planned, and at first there are none. -/
theorem ready_trigger (hs : a.Sound) :
    ∃ t, a.workflow.trigger? = some t ∧ Ready a [] {} t.id {} := by
  obtain ⟨t, ht, hmem, -, hloop, -⟩ := hs.trigger
  refine ⟨t, ht, ⟨by simp, rfl, .nil, by simp⟩,
    ⟨by simp, .nil, by simp, by simp, by simp, by simp, ?_⟩, ⟨hmem, ?_⟩, by simp [Begun]⟩
  · intro v older hsuffix
    exact absurd (List.suffix_nil.mp hsuffix) (by simp)
  · exact fun L hL _ hhas => absurd hhas (hloop L hL)

theorem unplanned_le_length (p : Progress) : unplanned a p ≤ a.graph.ids.length :=
  List.countP_le_length

/-- The plan of an accepted workflow is one call, from the trigger and with nothing planned. -/
theorem plan_rule (hs : a.Sound) (Φ : Call)
    (hΦ : ∀ A s id p b q, Ready a A s id p → Ended a A s id p b q →
      Step a (Keeps a Φ) A s id p b q → Φ A s id p b q) :
    ∃ t q, a.workflow.trigger? = some t ∧ Ended a [] {} t.id {} a.plan.block q ∧
      Φ [] {} t.id {} a.plan.block q ∧
      a.plan.diagnostics = q.notes.map PlanNote.toDiagnostic ++
        (a.plan.block.faults a.graph.ids).map PlanFault.toDiagnostic := by
  obtain ⟨t, ht, hready⟩ := ready_trigger hs
  rcases hcall : blockFrom a a.order (2 * a.graph.ids.length + 2) {} t.id {} with ⟨b, q⟩
  have hdepth : unplanned a {} < 2 * a.graph.ids.length + 2 := by
    have := unplanned_le_length (a := a) {}
    omega
  obtain ⟨hend, hholds⟩ := walk_rule hs Φ hΦ _ _ _ _ _ _ _ hcall hready hdepth
  have hplan : a.plan = { block := b, diagnostics := q.notes.map PlanNote.toDiagnostic ++
      (b.faults a.graph.ids).map PlanFault.toDiagnostic } := by
    simp only [Accepted.plan, ht, hcall]
  rw [hplan]
  exact ⟨t, q, ht, hend, hholds, rfl⟩

theorem plan_diagnostics (hs : a.Sound) : ∃ notes : List PlanNote,
    a.plan.diagnostics = notes.map PlanNote.toDiagnostic ++
      (a.plan.block.faults a.graph.ids).map PlanFault.toDiagnostic := by
  obtain ⟨t, q, -, -, -, hdiag⟩ := plan_rule hs (fun _ _ _ _ _ _ => True)
    fun _ _ _ _ _ _ _ _ _ => trivial
  exact ⟨q.notes, hdiag⟩

end Plan

end Flowscript
