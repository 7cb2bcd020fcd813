/-
Plans in which no path comes to a node too early or too late.

In a plan without loops that says nothing about joins of different depth, a node that is called is
planned at once unless it is reserved.  So a part of such a plan is `Sealed`: what its nodes lead
to is planned with them or reserved.  `Step.sealed` carries this through a step; behind a parallel
node it takes an induction along the links between the nodes that two arms lead to, because only
the first of these are called.
-/
import Flowscript.Proofs.Plan.Coverage

namespace Flowscript

namespace Plan

variable {a : Accepted} {A : List Loop} {s : Scope} {p q r : Progress} {id : String}

/-- Nothing was said about joins of different depth. -/
def Silent (p : Progress) : Prop := ∀ n ∈ p.notes, n.code ≠ "L001"

theorem Silent.of_subset (h : Silent q) (hpq : p.notes ⊆ q.notes) : Silent p :=
  fun n hn => h n (hpq hn)

/-- A part of a plan that was called at `ids`. -/
structure Sealed (a : Accepted) (s : Scope) (ids : List String) (p q : Progress) : Prop where
  called : ∀ t ∈ ids, t ∈ s.reserved ∨ t ∈ q.planned
  fresh : ∀ t ∈ ids, t ∈ s.reserved ∨ t ∉ p.planned
  closed : ∀ u ∈ q.planned, u ∉ p.planned → ∀ v, a.Forward u v → v ∈ s.reserved ∨ v ∈ q.planned

theorem Sealed.trans {ids ids' : List String} (h : Sealed a s ids p q) (h' : Sealed a s ids' q r)
    (hpq : p.planned ⊆ q.planned) (hqr : q.planned ⊆ r.planned) :
    Sealed a s (ids ++ ids') p r where
  called := fun t ht => (List.mem_append.mp ht).elim
    (fun ht => (h.called t ht).imp_right (@hqr t)) (h'.called t)
  fresh := fun t ht => (List.mem_append.mp ht).elim (h.fresh t)
    fun ht => (h'.fresh t ht).imp_right fun hnew hold => hnew (hpq hold)
  closed := by
    intro u hu hnew v huv
    by_cases hq : u ∈ q.planned
    · exact (h.closed u hq hnew v huv).imp_right (@hqr v)
    · exact h'.closed u hu hq v huv

/-- Nodes at which only the first part stopped are planned by the second. -/
theorem Sealed.trans_stop {ids ids' more : List String} (h : Sealed a (s.stopAt more) ids p q)
    (h' : Sealed a s ids' q r) (hqr : q.planned ⊆ r.planned)
    (hmore : ∀ t ∈ more, t ∈ r.planned ∧ t ∉ p.planned ∨ t ∈ s.reserved) :
    Sealed a s ids p r where
  called := by
    intro t ht
    rcases h.called t ht with hres | hplanned
    · rcases List.mem_append.mp hres with hres | hres
      · exact .inl hres
      · exact (hmore t hres).symm.imp_right And.left
    · exact .inr (hqr hplanned)
  fresh := by
    intro t ht
    rcases h.fresh t ht with hres | hnew
    · rcases List.mem_append.mp hres with hres | hres
      · exact .inl hres
      · exact (hmore t hres).symm.imp_right And.right
    · exact .inr hnew
  closed := by
    intro u hu hnew v huv
    by_cases hq : u ∈ q.planned
    · rcases h.closed u hq hnew v huv with hres | hplanned
      · rcases List.mem_append.mp hres with hres | hres
        · exact .inl hres
        · exact (hmore v hres).symm.imp_right And.left
      · exact .inr (hqr hplanned)
    · exact h'.closed u hu hq v huv

/-- A node that is planned with all that it leads to. -/
theorem Sealed.of_mark {ids : List String} (hopens : Opens a s p id)
    (h : Sealed a s ids (p.mark id) q) (hsub : (p.mark id).planned ⊆ q.planned)
    (hids : ∀ l ∈ a.graph.links, l.source = id → l.target ∈ ids) : Sealed a s [id] p q where
  called := fun t ht => .inr (hsub (List.mem_singleton.mp ht ▸ List.mem_cons_self))
  fresh := fun t ht => .inr (List.mem_singleton.mp ht ▸ hopens.fresh)
  closed := by
    intro u hu hnew v huv
    by_cases huid : u = id
    · obtain ⟨l, hl, -, hsource, rfl⟩ := huv
      exact h.called _ (hids l hl (hsource.trans huid))
    · exact h.closed u hu (fun hold => (List.mem_cons.mp hold).elim huid hnew) v huv

/-! ### Runs of calls -/

section Runs

variable {Φ : Call} (hΦ : ∀ A s id p b q, Φ A s id p b q → Silent q → Sealed a s [id] p q)
include hΦ

theorem Each.sealed {ids : List String} {bs : List Block} (h : Each (Keeps a Φ) A s ids p bs q)
    (hp : p.Fits a A) (hq : Silent q) : Sealed a s ids p q := by
  induction h with
  | nil => exact ⟨by simp, by simp, fun u hu hnew => absurd hu hnew⟩
  | cons head tail ih =>
    obtain ⟨-, hend, hcall⟩ := head
    have htail := tail.grown hend.grown.fits
    exact (hΦ _ _ _ _ _ _ hcall (hq.of_subset htail.notes)).trans (ih hend.grown.fits hq)
      hend.grown.planned_subset htail.planned_subset

theorem Arms.sealed {ids : List String} {bs : List Block} {next : Block}
    (h : Arms a (Keeps a Φ) A s ids p bs next q) (hp : p.Fits a A) (hq : Silent q) :
    Sealed a s ids p q := by
  cases h with
  | apart none arms => exact arms.sealed hΦ hp hq
  | @meet m bs mid next q two some arms rest =>
    obtain ⟨-, hend, hcall⟩ := rest
    have harms := arms.grown hp
    have hrest := hΦ _ _ _ _ _ _ hcall hq
    refine (arms.sealed hΦ hp (hq.of_subset hend.grown.notes)).trans_stop hrest
      hend.grown.planned_subset fun t ht => ?_
    obtain rfl := List.mem_singleton.mp ht
    rcases hrest.called t ht with hres | hplanned
    · exact .inr hres
    · exact (hrest.fresh t ht).symm.imp_left fun hnew =>
        ⟨hplanned, fun hold => hnew (harms.planned_subset hold)⟩

theorem Behind.sealed {ids : List String} {b : Block} (h : Behind a (Keeps a Φ) A s ids p b q)
    (hp : p.Fits a A) (hq : Silent q) : Sealed a s ids p q := by
  cases h with
  | nothing none =>
    subst none
    exact ⟨by simp, by simp, fun u hu hnew => absurd hu hnew⟩
  | one only call =>
    obtain ⟨hcalled, hfresh, hclosed⟩ := hΦ _ _ _ _ _ _ call.2.2 hq
    exact ⟨fun t ht => hcalled t (by simp [(only t).mp ht]),
      fun t ht => hfresh t (by simp [(only t).mp ht]), hclosed⟩
  | several nodup all arms =>
    obtain ⟨hcalled, hfresh, hclosed⟩ := arms.sealed hΦ hp hq
    exact ⟨fun t ht => hcalled t ((all t).mpr ht), fun t ht => hfresh t ((all t).mpr ht), hclosed⟩

end Runs

/-! ### Plans without loops -/

section Loopless

variable (hloops : a.loops.loops = [])
include hloops

theorem isBack_eq_false (l : Link) : a.loops.isBack l = false := by
  simp [Loops.isBack, hloops]

theorem returnsOnce_of_loopless : a.ReturnsOnce := by
  intro n _ _
  have : a.plainReturns n.id = [] :=
    List.filter_eq_nil_iff.mpr fun l _ => by simp [isBack_eq_false hloops l]
  simp [this]

/-- What is planned was due, as there are no loops entered ahead of their heads. -/
theorem Progress.Fits.due (hp : p.Fits a A) {u v : String} (hv : v ∈ p.planned)
    (huv : a.Forward u v) : u ∈ p.planned := by
  obtain ⟨newer, older, hsplit⟩ := List.append_of_mem hv
  rcases (hp.sorted v older ⟨newer, hsplit.symm⟩).1 with hdue | ⟨L, hL, -⟩
  · rw [hsplit]
    exact List.mem_append_right _ (List.mem_cons_of_mem _ (hdue u huv))
  · simp [hloops] at hL

variable (hs : a.Sound)
include hs

theorem Step.sealed {Φ : Call} (hΦ : ∀ A s id p b q, Φ A s id p b q → Silent q →
    Sealed a s [id] p q) {b : Block} (hready : Ready a A s id p)
    (h : Step a (Keeps a Φ) A s id p b q) (hq : Silent q) : Sealed a s [id] p q := by
  -- no loop is being planned, so no node is outside
  have hA : A = [] := List.eq_nil_iff_forall_not_mem.mpr fun L hL => by
    have := (hready.scope.active L hL).1
    simp [hloops] at this
  cases h with
  | reserved stop =>
    exact ⟨by simp [stop], by simp [stop], fun u hu hnew => absurd hu hnew⟩
  | outside free beyond =>
    have hwithin := hready.scope.within
    subst hA
    exact absurd (fun body hbody => by simp [hwithin] at hbody) beyond
  | again free within old =>
    exact absurd rfl (hq (.reachedAgain id) (List.mem_append_right _ List.mem_cons_self))
  | early free within fresh wait =>
    have hnote : PlanNote.joinPostponed id ∈ (p.postpone id).notes := by
      rw [Progress.postpone]
      split
      · rename_i hwaiting
        exact hready.progress.noted id (List.contains_iff_mem.mp hwaiting)
      · exact List.mem_append_right _ List.mem_cons_self
    exact absurd rfl (hq _ hnote)
  | loop opens mem entry head round => simp [hloops] at mem
  | seq opens plain behind =>
    have hplain : Plain a A s p id := ⟨hready, opens, plain⟩
    refine .of_mark opens (behind.sealed hΦ hplain.mark_fits hq)
      (behind.grown hplain.mark_fits).planned_subset fun l hl hsource => ?_
    exact List.mem_map_of_mem (mem_outByTarget.mpr ⟨hl, hsource⟩)
  | branch opens plain kind links labels arms =>
    have hplain : Plain a A s p id := ⟨hready, opens, plain⟩
    refine .of_mark opens (arms.sealed hΦ hplain.mark_fits hq)
      (arms.grown hplain.mark_fits).planned_subset fun l hl hsource => ?_
    rcases (links l).mp (Graph.mem_outgoing.mpr ⟨hl, hsource⟩) with rfl | rfl <;> simp
  | @fan c bs mid next r opens plain kind arms behind =>
    have hplain : Plain a A s p id := ⟨hready, opens, plain⟩
    have harms := arms.grown hplain.mark_fits
    have hnext := behind.grown (harms.fits.tell _)
    have hbehind : Sealed a s (earliest a (shared a s id)) mid q := by
      obtain ⟨hcalled, hfresh, hclosed⟩ := behind.sealed hΦ (harms.fits.tell _) hq
      exact ⟨hcalled, hfresh, hclosed⟩
    have hmid : Silent mid := hq.of_subset fun n hn => hnext.notes (List.mem_append_left _ hn)
    have hfresh : ∀ v ∈ shared a s id, v ∉ (p.mark id).planned := fun v hv =>
      fan_fresh hs (returnsOnce_of_loopless hloops) kind hplain
        (fun v hv _ u huv => hready.progress.due hloops hv huv) hv
    -- the common nodes are planned in the order of the links between them
    have hcommon : ∀ v ∈ shared a s id, v ∈ q.planned := by
      obtain ⟨rank, hrank⟩ := hs.rank
      intro v
      induction hn : rank v using Nat.strongRecOn generalizing v with
      | _ n ih =>
        intro hv
        have hfree := ((mem_shared hs).mp hv).2.1
        by_cases hearliest : v ∈ earliest a (shared a s id)
        · exact (hbehind.called v hearliest).resolve_left hfree
        · obtain ⟨u, hu, huv⟩ := exists_before_of_notMem_earliest hv hearliest
          have hplanned := ih _ (hn ▸ hrank u v huv) u rfl hu
          have hnew := harms.notMem_of_stop hu (hfresh u hu)
          exact (hbehind.closed u hplanned hnew v huv).resolve_left hfree
    have hboth : Sealed a s ((outBySlot a id).map Link.target) (p.mark id) q :=
      (arms.sealed hΦ hplain.mark_fits hmid).trans_stop hbehind hnext.planned_subset
        fun t ht => .inl ⟨hcommon t ht, hfresh t ht⟩
    refine .of_mark opens hboth
      (fun v hv => hnext.planned_subset (harms.planned_subset hv)) fun l hl hsource => ?_
    exact List.mem_map_of_mem (mem_outBySlot.mpr ⟨hl, hsource⟩)

end Loopless

end Plan

end Flowscript
