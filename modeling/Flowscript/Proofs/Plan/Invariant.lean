/-
The invariant of planning.

A call is made with the loops being planned, innermost first.  `Scope.Fits` says that the scope
stops at their heads and keeps to the body of the innermost one, and that a loop which is not
being planned has no reserved node unless its entry is one.  `Progress.Fits` says the same of
what is planned, and that every planned node was due when it was marked, the heads of loops that
are entered ahead of them apart.  `Begun` says that the loops being planned have their entries
planned, at the latest with the called node.  `Grown` is what a part of the plan adds.

* `Step.grown` — a step keeps the invariant, given that the calls it makes do;
* `walk_rule` — so every call does, and what each step takes from its calls to itself holds of
  every call.
-/
import Flowscript.Proofs.Plan.Reach

open Relation

namespace Flowscript

namespace Plan

/-- The scope of a call inside the loops `A`. -/
structure Scope.Fits (a : Accepted) (A : List Loop) (s : Scope) : Prop where
  active : ∀ L ∈ A, L ∈ a.loops.loops ∧ L.head ∈ s.reserved
  within : s.within = A.head?.map Loop.body
  nested : A.Pairwise fun inner outer => inner ≠ outer ∧ outer.Has inner.entry
  closed : ∀ L ∈ a.loops.loops, L ∉ A → ∀ v ∈ s.reserved, L.Has v → L.entry ∈ s.reserved

/-- What is planned when a call inside the loops `A` is made. -/
structure Progress.Fits (a : Accepted) (A : List Loop) (p : Progress) : Prop where
  mem : ∀ v ∈ p.planned, v ∈ a.graph.ids
  nodup : p.planned.Nodup
  heads : ∀ L ∈ A, L.head ∈ p.planned
  started : ∀ L ∈ a.loops.loops, L ∉ A → ∀ v ∈ p.planned, L.Has v → L.entry ∈ p.planned
  outside : ∀ v ∈ p.outside, Callable a A v ∧ ∀ L ∈ A.head?, ¬L.Has v
  noted : ∀ v ∈ p.waiting, .joinPostponed v ∈ p.notes
  sorted : ∀ v older, v :: older <:+ p.planned →
    ((∀ u, a.Forward u v → u ∈ older) ∨ ∃ L ∈ a.loops.loops, L.head = v ∧ L.entry ≠ v) ∧
      ∀ L ∈ a.loops.loops, v ∈ L.body → L.head ∈ older

/-- What a part of the plan adds to the progress: the nodes `new`, in order. -/
structure Grown (a : Accepted) (A : List Loop) (s : Scope) (p : Progress) (new : List String)
    (q : Progress) : Prop where
  fits : q.Fits a A
  planned : q.planned = new.reverse ++ p.planned
  free : ∀ v ∈ new, v ∉ s.reserved
  within : ∀ v ∈ new, s.Within v
  outside : p.outside ⊆ q.outside
  notes : p.notes ⊆ q.notes

/-- A node that was called is planned, is left to a block further out, or has to wait. -/
def Settled (a : Accepted) (s : Scope) (p : Progress) (v : String) : Prop :=
  v ∈ s.reserved ∨ v ∈ p.planned ∨ (¬s.Within v ∧ v ∈ p.outside) ∨ ¬Due a p v

/-- The loops being planned have their entries planned. -/
def Begun (A : List Loop) (p : Progress) : Prop := ∀ L ∈ A, L.entry ∈ p.planned

/-- What is known when a call is made. -/
structure Ready (a : Accepted) (A : List Loop) (s : Scope) (id : String) (p : Progress) :
    Prop where
  scope : s.Fits a A
  progress : p.Fits a A
  callable : Callable a A id
  begun : Begun A (p.mark id)

/-- What is known when a call returns. -/
structure Ended (a : Accepted) (A : List Loop) (s : Scope) (id : String) (p : Progress)
    (b : Block) (q : Progress) : Prop where
  grown : Grown a A s p b.owned q
  settled : Settled a s q id

variable {a : Accepted} {A : List Loop} {s : Scope} {p q r : Progress} {id : String}

/-! ### Parts of a plan -/

theorem Grown.refl (hp : p.Fits a A) : Grown a A s p [] p :=
  ⟨hp, rfl, by simp, by simp, List.Subset.refl _, List.Subset.refl _⟩

theorem Grown.trans {first second : List String} (h : Grown a A s p first q)
    (h' : Grown a A s q second r) : Grown a A s p (first ++ second) r where
  fits := h'.fits
  planned := by rw [h'.planned, h.planned, List.reverse_append, List.append_assoc]
  free := fun v hv => (List.mem_append.mp hv).elim (h.free v) (h'.free v)
  within := fun v hv => (List.mem_append.mp hv).elim (h.within v) (h'.within v)
  outside := List.Subset.trans h.outside h'.outside
  notes := List.Subset.trans h.notes h'.notes

/-- What stops at more nodes stops at fewer, too. -/
theorem Grown.relax {more new : List String} (h : Grown a A (s.stopAt more) p new q) :
    Grown a A s p new q :=
  { h with free := fun v hv hmem => h.free v hv (List.mem_append_left _ hmem) }

theorem Grown.mem_planned {new : List String} (h : Grown a A s p new q) {v : String} :
    v ∈ q.planned ↔ v ∈ new ∨ v ∈ p.planned := by
  rw [h.planned, List.mem_append, List.mem_reverse]

theorem Grown.planned_subset {new : List String} (h : Grown a A s p new q) :
    p.planned ⊆ q.planned := fun _ hv => h.mem_planned.mpr (.inr hv)

theorem Grown.begun {new : List String} (h : Grown a A s p new q) (hp : Begun A p) : Begun A q :=
  fun L hL => h.planned_subset (hp L hL)

theorem Begun.mark (h : Begun A p) (v : String) : Begun A (p.mark v) :=
  fun L hL => List.mem_cons_of_mem _ (h L hL)

theorem Grown.fresh {new : List String} (h : Grown a A s p new q) {v : String} (hv : v ∈ new) :
    v ∉ p.planned := by
  have hnodup := h.fits.nodup
  rw [h.planned] at hnodup
  exact fun hold => (List.nodup_append.mp hnodup).2.2 v (List.mem_reverse.mpr hv) v hold rfl

theorem Grown.nodup {new : List String} (h : Grown a A s p new q) : new.Nodup := by
  have hnodup := h.fits.nodup
  rw [h.planned] at hnodup
  exact List.nodup_reverse.mp (List.nodup_append.mp hnodup).1

/-- What a part stopped at is as new after it as before. -/
theorem Grown.notMem_of_stop {more new : List String} (h : Grown a A (s.stopAt more) p new q)
    {v : String} (hv : v ∈ more) (hnew : v ∉ p.planned) : v ∉ q.planned := fun hmem =>
  hnew ((h.mem_planned.mp hmem).resolve_left fun hown =>
    h.free v hown (List.mem_append_right _ hv))

theorem Progress.Fits.tell (hp : p.Fits a A) (notes : List PlanNote) : (p.tell notes).Fits a A :=
  ⟨hp.mem, hp.nodup, hp.heads, hp.started, hp.outside,
    fun v hv => List.mem_append_left _ (hp.noted v hv), hp.sorted⟩

theorem Grown.tell (hp : p.Fits a A) (notes : List PlanNote) :
    Grown a A s p [] (p.tell notes) :=
  { Grown.refl (hp.tell notes) with notes := List.subset_append_left _ _ }

/-! ### The depth that is needed -/

/-- How many nodes are not planned yet. -/
def unplanned (a : Accepted) (p : Progress) : Nat := a.graph.ids.countP fun v => v ∉ p.planned

theorem unplanned_le (h : ∀ v ∈ p.planned, v ∈ q.planned) : unplanned a q ≤ unplanned a p := by
  refine List.countP_mono_left fun v _ hv => ?_
  simp only [decide_eq_true_eq] at hv ⊢
  exact fun hmem => hv (h v hmem)

theorem Grown.unplanned_le {new : List String} (h : Grown a A s p new q) :
    unplanned a q ≤ unplanned a p :=
  Plan.unplanned_le fun _ hv => h.mem_planned.mpr (.inr hv)

theorem unplanned_mark {v : String} (hv : v ∈ a.graph.ids) (hnew : v ∉ p.planned) :
    unplanned a (p.mark v) < unplanned a p := by
  have hcount := countP_notMem_cons a.graph.ids (fun u => u) hnew
  have hpos : 0 < a.graph.ids.countP fun u => u = v :=
    List.countP_pos_iff.mpr ⟨v, hv, by simp⟩
  rw [unplanned, unplanned, hcount]
  exact Nat.lt_add_of_pos_left hpos

/-! ### Marking a node -/

/-- Marking a node, perhaps the head of a loop that is planned from now on. -/
theorem Progress.Fits.mark_of {A' : List Loop} {v : String} {outside : List String}
    (hp : p.Fits a A) (hv : v ∈ a.graph.ids) (hnew : v ∉ p.planned)
    (hA : ∀ L ∈ A, L ∈ A') (hA' : ∀ L ∈ A', L ∈ A ∨ L.head = v)
    (hactive : ∀ L ∈ a.loops.loops, L.Has v → L ∈ A')
    (hdue : Due a p v ∨ ∃ L ∈ a.loops.loops, L.head = v ∧ L.entry ≠ v)
    (hbody : ∀ L ∈ a.loops.loops, v ∈ L.body → L ∈ A)
    (houtside : ∀ x ∈ outside, Callable a A' x ∧ ∀ L ∈ A'.head?, ¬L.Has x) :
    ({ p.mark v with outside } : Progress).Fits a A' where
  mem := List.forall_mem_cons.mpr ⟨hv, hp.mem⟩
  nodup := List.nodup_cons.mpr ⟨hnew, hp.nodup⟩
  heads := by
    intro L hL
    rcases hA' L hL with hL | hhead
    · exact List.mem_cons_of_mem _ (hp.heads L hL)
    · exact List.mem_cons.mpr (.inl hhead)
  started := by
    intro L hL hnot u hu hhas
    rcases List.mem_cons.mp hu with rfl | hu
    · exact absurd (hactive L hL hhas) hnot
    · exact List.mem_cons_of_mem _ (hp.started L hL (fun h => hnot (hA L h)) u hu hhas)
  outside := houtside
  noted := hp.noted
  sorted := by
    intro u older hsuffix
    rcases List.suffix_cons_iff.mp hsuffix with heq | hsuffix
    · obtain ⟨rfl, rfl⟩ := List.cons.inj heq
      exact ⟨hdue, fun L hL hmem => hp.heads L (hbody L hL hmem)⟩
    · exact hp.sorted u older hsuffix

/-- A node that opens no loop is planned. -/
structure Plain (a : Accepted) (A : List Loop) (s : Scope) (p : Progress) (id : String) : Prop where
  ready : Ready a A s id p
  opens : Opens a s p id
  plain : ∀ L ∈ a.loops.loops, L.entry = id → L.head ∈ s.reserved

namespace Plain

/-- Only loops that are being planned have a node that opens none. -/
theorem active (h : Plain a A s p id) : ∀ L ∈ a.loops.loops, L.Has id → L ∈ A := by
  intro L hL hhas
  by_contra hA
  have hentry := h.ready.callable.2 L hL hA hhas
  have hhead := h.plain L hL hentry.symm
  exact h.opens.free (hentry ▸ h.ready.scope.closed L hL hA L.head hhead (.inl rfl))

theorem mark_fits (h : Plain a A s p id) : (p.mark id).Fits a A :=
  h.ready.progress.mark_of h.ready.callable.1 h.opens.fresh (fun _ hL => hL) (fun _ hL => .inl hL)
    h.active (.inl h.opens.due) (fun L hL hbody => h.active L hL (.inr hbody))
    h.ready.progress.outside

theorem grown_mark (h : Plain a A s p id) : Grown a A s p [id] (p.mark id) where
  fits := h.mark_fits
  planned := rfl
  free := by simpa using h.opens.free
  within := by simpa using h.opens.within
  outside := List.Subset.refl _
  notes := List.Subset.refl _

theorem callable_of_link (h : Plain a A s p id) (hs : a.Sound) {l : Link}
    (hl : l ∈ a.graph.links) (hsource : l.source = id) : Callable a A l.target := by
  refine ⟨(hs.link_mem l hl).2, fun L hL hA hhas => ?_⟩
  exact hs.enters L hL l hl hhas fun hid => hA (h.active L hL (hsource ▸ hid))

end Plain

/-- A loop is opened at its entry. -/
structure Starts (a : Accepted) (A : List Loop) (s : Scope) (p : Progress) (L : Loop) : Prop where
  mem : L ∈ a.loops.loops
  ready : Ready a A s L.entry p
  opens : Opens a s p L.entry
  head : L.head ∉ s.reserved

namespace Starts

variable {L : Loop}

theorem notMem (h : Starts a A s p L) : L ∉ A := fun hL => h.head (h.ready.scope.active L hL).2

theorem head_fresh (h : Starts a A s p L) : L.head ∉ p.planned := fun hmem =>
  h.opens.fresh (h.ready.progress.started L h.mem h.notMem L.head hmem (.inl rfl))

theorem callable_of_left (hq : q.Fits a (L :: A)) {v : String} (hv : v ∈ q.outside) :
    Callable a A v := by
  obtain ⟨⟨hmem, hentry⟩, hnot⟩ := hq.outside v hv
  refine ⟨hmem, fun M hM hA hhas => hentry M hM (fun h => ?_) hhas⟩
  rcases List.mem_cons.mp h with rfl | h
  · exact hnot M rfl hhas
  · exact hA h

/-- Behind the loop nothing is left of it to be opened. -/
theorem end_fits (h : Starts a A s p L) (hq : q.Fits a (L :: A)) (hentry : L.entry ∈ q.planned) :
    ({ q with outside := p.outside } : Progress).Fits a A where
  mem := hq.mem
  nodup := hq.nodup
  heads := fun M hM => hq.heads M (List.mem_cons_of_mem _ hM)
  started := by
    intro M hM hA v hv hhas
    by_cases hML : M = L
    · exact hML ▸ hentry
    · refine hq.started M hM (fun h => ?_) v hv hhas
      exact (List.mem_cons.mp h).elim hML hA
  outside := h.ready.progress.outside
  noted := hq.noted
  sorted := hq.sorted

variable (hs : a.Sound)
include hs

/-- All loops being planned are around the one that is opened. -/
theorem outer (h : Starts a A s p L) : ∀ M ∈ A, L ≠ M ∧ M.Has L.entry := by
  intro M hM
  refine ⟨fun heq => h.notMem (heq ▸ hM), ?_⟩
  have hwithin := h.ready.scope.within
  have hnested := h.ready.scope.nested
  have hactive := h.ready.scope.active
  cases A with
  | nil => simp at hM
  | cons N rest =>
    -- planning stays in the body of the innermost loop, and that is inside all the others
    have hN : N.Has L.entry := .inr (h.opens.within N.body hwithin)
    rcases List.mem_cons.mp hM with rfl | hrest
    · exact hN
    · obtain ⟨hne, hhas⟩ := (List.pairwise_cons.mp hnested).1 M hrest
      have hmem := (hactive N List.mem_cons_self).1
      exact .inr (hs.inside M (hactive M hM).1 N hmem hne.symm hhas _ hN)

theorem within_of_has (h : Starts a A s p L) {v : String} (hv : L.Has v) : s.Within v := by
  intro body hbody
  rw [h.ready.scope.within] at hbody
  obtain ⟨M, hM, rfl⟩ := Option.map_eq_some_iff.mp hbody
  have hmem := List.mem_of_head? hM
  obtain ⟨hne, hentry⟩ := h.outer hs M hmem
  exact hs.inside M (h.ready.scope.active M hmem).1 L h.mem hne.symm hentry v hv

/-- The head of the loop is not on the cycle of one further in. -/
theorem active (h : Starts a A s p L) : ∀ M ∈ a.loops.loops, M.Has L.head → M ∈ L :: A := by
  intro M hM hhas
  by_cases hML : M = L
  · exact hML ▸ List.mem_cons_self
  · refine List.mem_cons_of_mem _ ?_
    -- a cycle that shares the head is further in or further out
    rcases hs.meets L h.mem M hM L.head (.inl rfl) hhas with hentry | hentry
    · exact absurd (hs.inside L h.mem M hM (Ne.symm hML) hentry L.head hhas)
        (hs.head_notMem L h.mem)
    · by_contra hA
      exact hML (hs.entry_inj M hM L h.mem (h.ready.callable.2 M hM hA hentry).symm)

theorem inside_fits (h : Starts a A s p L) : (s.inside L).Fits a (L :: A) where
  active := by
    intro M hM
    rcases List.mem_cons.mp hM with rfl | hM
    · exact ⟨h.mem, List.mem_append_right _ List.mem_cons_self⟩
    · exact (h.ready.scope.active M hM).imp_right (List.mem_append_left _)
  within := rfl
  nested := List.pairwise_cons.mpr ⟨h.outer hs, h.ready.scope.nested⟩
  closed := by
    intro M hM hnot v hv hhas
    rcases List.mem_append.mp hv with hv | hv
    · have hA : M ∉ A := fun hA => hnot (List.mem_cons_of_mem _ hA)
      exact List.mem_append_left _ (h.ready.scope.closed M hM hA v hv hhas)
    · obtain rfl := List.mem_singleton.mp hv
      exact absurd (h.active hs M hM hhas) hnot

theorem mark_fits (h : Starts a A s p L) :
    ({ p.mark L.head with outside := [] } : Progress).Fits a (L :: A) := by
  refine h.ready.progress.mark_of (hs.has_mem L h.mem _ (.inl rfl)) h.head_fresh
    (fun M hM => List.mem_cons_of_mem _ hM) (fun M hM => ?_) (h.active hs) ?_
    (fun M hM hbody => ?_) (by simp)
  · rcases List.mem_cons.mp hM with rfl | hM
    · exact .inr rfl
    · exact .inl hM
  · by_cases heq : L.head = L.entry
    · exact .inl (heq ▸ h.opens.due)
    · exact .inr ⟨L, h.mem, rfl, fun hentry => heq hentry.symm⟩
  · rcases List.mem_cons.mp (h.active hs M hM (.inr hbody)) with rfl | hmem
    · exact absurd hbody (hs.head_notMem M hM)
    · exact hmem

theorem callable_bodyEntry (h : Starts a A s p L) : Callable a (L :: A) L.bodyEntry := by
  refine ⟨hs.has_mem L h.mem _ (.inr (hs.bodyEntry_mem L h.mem)), fun M hM hnot hhas => ?_⟩
  by_cases heq : L.head = L.entry
  · obtain ⟨l, hl, hsource, htarget⟩ := hs.bodyEntry_next L h.mem heq
    rw [← htarget] at hhas ⊢
    exact hs.enters M hM l hl hhas fun hhead => hnot (h.active hs M hM (hsource ▸ hhead))
  · rw [hs.bodyEntry_eq L h.mem heq] at hhas ⊢
    exact h.ready.callable.2 M hM (fun hA => hnot (List.mem_cons_of_mem _ hA)) hhas

theorem begun (h : Starts a A s p L) : Begun A p := by
  intro M hM
  rcases List.mem_cons.mp (h.ready.begun M hM) with hentry | hold
  · have hML := hs.entry_inj M (h.ready.scope.active M hM).1 L h.mem hentry
    exact absurd (hML ▸ hM) h.notMem
  · exact hold

theorem ready_inside (h : Starts a A s p L) :
    Ready a (L :: A) (s.inside L) L.bodyEntry { p.mark L.head with outside := [] } := by
  refine ⟨h.inside_fits hs, h.mark_fits hs, h.callable_bodyEntry hs, fun M hM => ?_⟩
  rcases List.mem_cons.mp hM with rfl | hM
  · by_cases heq : M.head = M.entry
    · exact List.mem_cons_of_mem _ (List.mem_cons.mpr (.inl heq.symm))
    · exact List.mem_cons.mpr (.inl (hs.bodyEntry_eq M h.mem heq).symm)
  · exact List.mem_cons_of_mem _ (List.mem_cons_of_mem _ (h.begun hs M hM))

theorem callable_of_exit (h : Starts a A s p L) {v : String} (hv : v ∈ exits a L) :
    Callable a A v := by
  obtain ⟨hmem, hbody⟩ := List.mem_filter.mp hv
  obtain ⟨l, hl, rfl⟩ := List.mem_map.mp hmem
  obtain ⟨hlinks, hsource⟩ := mem_outByTarget.mp hl
  refine ⟨(hs.link_mem l hlinks).2, fun M hM hnot hhas => ?_⟩
  refine hs.enters M hM l hlinks hhas fun hhead => ?_
  rcases List.mem_cons.mp (h.active hs M hM (hsource ▸ hhead)) with rfl | hA
  · rcases hhas with hhas | hhas
    · exact hs.link_ne l hlinks (hsource.trans hhas.symm)
    · simp [hhas] at hbody
  · exact hnot hA

/-- A loop that is entered ahead of its head has its entry planned in the first round. -/
theorem entry_planned (h : Starts a A s p L) {body : Block}
    (hend : Ended a (L :: A) (s.inside L) L.bodyEntry { p.mark L.head with outside := [] } body q) :
    L.entry ∈ q.planned := by
  have hmem : ∀ {v}, v ∈ L.head :: p.planned → v ∈ q.planned :=
    fun hv => hend.grown.mem_planned.mpr (.inr hv)
  by_cases heq : L.head = L.entry
  · exact heq ▸ hmem List.mem_cons_self
  · have hsettled := hend.settled
    rw [hs.bodyEntry_eq L h.mem heq] at hsettled
    have hbody : L.entry ∈ L.body := (hs.has_entry L h.mem).resolve_left (Ne.symm heq)
    -- the entry is free, in the body and due, so it was planned when it was called
    rcases hsettled with hres | hplanned | ⟨hbeyond, -⟩ | hwait
    · rcases List.mem_append.mp hres with hres | hres
      · exact absurd hres h.opens.free
      · exact absurd (List.mem_singleton.mp hres).symm heq
    · exact hplanned
    · refine absurd (fun b hb => ?_) hbeyond
      obtain rfl := Option.some.inj hb
      exact hbody
    · exact absurd (fun u hu => hmem (List.mem_cons_of_mem _ (h.opens.due u hu))) hwait

theorem grown_round (h : Starts a A s p L) {body : Block}
    (hend : Ended a (L :: A) (s.inside L) L.bodyEntry { p.mark L.head with outside := [] } body q) :
    Grown a A s p (L.head :: body.owned) { q with outside := p.outside } where
  fits := h.end_fits hend.grown.fits (h.entry_planned hs hend)
  planned := by
    rw [hend.grown.planned, List.reverse_cons, List.append_assoc]
    rfl
  free := List.forall_mem_cons.mpr
    ⟨h.head, fun v hv hres => hend.grown.free v hv (List.mem_append_left _ hres)⟩
  within := List.forall_mem_cons.mpr
    ⟨h.within_of_has hs (.inl rfl),
      fun v hv => h.within_of_has hs (.inr (hend.grown.within v hv L.body rfl))⟩
  outside := List.Subset.refl _
  notes := hend.grown.notes

end Starts

end Plan

end Flowscript
