/-
No node is lost.

A part of the plan is `Covered` if whatever its new nodes lead to is settled when it ends: planned,
left to a block further out, or waiting for another node.  A node that waits is called again by
the last of the nodes that it waits for, so covered parts can be put one behind the other
(`Covered.trans`).  Two constructs need more than that:

* `fan_fresh` — the nodes that two arms of a parallel node lead to are not planned yet, unless two
  of its links go straight back to the entry of a loop that is no feedback loop;
* `Starts.complete` — when the body of a loop is planned, the whole cycle is.

`owned_perm_of_returnsOnce` puts both to use: the plan owns every node exactly once.
-/
import Flowscript.Proofs.Plan.Dependence

open Relation

namespace Flowscript

/-- The links that leave a node straight back to the entry of a loop that is no feedback loop. -/
def Accepted.plainReturns (a : Accepted) (id : String) : List Link :=
  (a.graph.outgoing id).filter fun l => a.loops.isBack l && !Check.isGuard a.workflow l.target

/-- No parallel node has two links straight back to entries that are no feedback loops. -/
def Accepted.ReturnsOnce (a : Accepted) : Prop :=
  ∀ n ∈ a.workflow.nodes, n.kind = .parallel → (a.plainReturns n.id).length < 2

instance (a : Accepted) : Decidable a.ReturnsOnce := inferInstanceAs (Decidable (∀ n ∈ _, _ → _))

namespace Plan

variable {a : Accepted} {A : List Loop} {s : Scope} {p q r : Progress} {id : String}

/-- Planned nodes are due, except for the heads of loops that are being planned. -/
def Preceded (a : Accepted) (A : List Loop) (p : Progress) : Prop :=
  ∀ v ∈ p.planned, (∀ L ∈ A, v ≠ L.head) → Due a p v

/-- A part of the plan whose new nodes lead to settled nodes only. -/
structure Covered (a : Accepted) (A : List Loop) (s : Scope) (p q : Progress) : Prop where
  planned : p.planned ⊆ q.planned
  outside : p.outside ⊆ q.outside
  preceded : Preceded a A q
  closed : ∀ u ∈ q.planned, u ∉ p.planned → ∀ v, a.Forward u v → Settled a s q v

theorem Due.mono {v : String} (h : Due a p v) (hpq : p.planned ⊆ q.planned) : Due a q v :=
  fun u hu => hpq (h u hu)

theorem Covered.refl (h : Preceded a A p) : Covered a A s p p :=
  ⟨List.Subset.refl _, List.Subset.refl _, h, fun _ hu hnew => absurd hu hnew⟩

/-- If a node that waited is due in the end, the last node it waited for leads to it. -/
theorem Settled.of_wait {v : String} (h : Covered a A s p q) (hwait : ¬Due a p v) :
    Settled a s q v := by
  by_cases hdue : Due a q v
  · -- something it waited for was planned meanwhile, and what that leads to is settled
    have : ∃ u, a.Forward u v ∧ u ∉ p.planned := by
      by_contra hcon
      exact hwait fun u hu => not_not.mp fun hnew => hcon ⟨u, hu, hnew⟩
    obtain ⟨u, huv, hnew⟩ := this
    exact h.closed u (hdue u huv) hnew v huv
  · exact .inr (.inr (.inr hdue))

theorem Covered.settled {v : String} (h : Covered a A s p q) (hv : Settled a s p v) :
    Settled a s q v := by
  rcases hv with hv | hv | ⟨hbeyond, hv⟩ | hwait
  · exact .inl hv
  · exact .inr (.inl (h.planned hv))
  · exact .inr (.inr (.inl ⟨hbeyond, h.outside hv⟩))
  · exact .of_wait h hwait

theorem Covered.trans (h : Covered a A s p q) (h' : Covered a A s q r) : Covered a A s p r where
  planned := List.Subset.trans h.planned h'.planned
  outside := List.Subset.trans h.outside h'.outside
  preceded := h'.preceded
  closed := by
    intro u hu hnew v huv
    by_cases hq : u ∈ q.planned
    · exact h'.settled (h.closed u hq hnew v huv)
    · exact h'.closed u hu hq v huv

/-- Nodes at which only the first part stopped are settled by the second. -/
theorem Covered.settled_stop {more : List String} (h : Covered a A s q r)
    (hmore : ∀ v ∈ more, Settled a s r v) {v : String} (hv : Settled a (s.stopAt more) q v) :
    Settled a s r v := by
  rcases hv with hv | hv
  · rcases List.mem_append.mp hv with hv | hv
    · exact .inl hv
    · exact hmore v hv
  · exact h.settled (.inr hv)

theorem Covered.trans_stop {more : List String} (h : Covered a A (s.stopAt more) p q)
    (h' : Covered a A s q r) (hmore : ∀ v ∈ more, Settled a s r v) : Covered a A s p r where
  planned := List.Subset.trans h.planned h'.planned
  outside := List.Subset.trans h.outside h'.outside
  preceded := h'.preceded
  closed := by
    intro u hu hnew v huv
    by_cases hq : u ∈ q.planned
    · exact h'.settled_stop hmore (h.closed u hq hnew v huv)
    · exact h'.closed u hu hq v huv

/-! ### Runs of calls -/

/-- A call that keeps the invariant and is covered. -/
def Covers (a : Accepted) : Call := Keeps a fun A s _ p _ q => Preceded a A p → Covered a A s p q

theorem Each.covered {ids : List String} {bs : List Block} (h : Each (Covers a) A s ids p bs q)
    (hp : Preceded a A p) : Covered a A s p q ∧ ∀ t ∈ ids, Settled a s q t := by
  induction h with
  | nil => exact ⟨.refl hp, by simp⟩
  | cons head tail ih =>
    obtain ⟨-, hend, hcovers⟩ := head
    have hhead := hcovers hp
    obtain ⟨htail, hsettled⟩ := ih hhead.preceded
    exact ⟨hhead.trans htail, List.forall_mem_cons.mpr ⟨htail.settled hend.settled, hsettled⟩⟩

theorem Arms.covered {ids : List String} {bs : List Block} {next : Block}
    (h : Arms a (Covers a) A s ids p bs next q) (hp : Preceded a A p) :
    Covered a A s p q ∧ ∀ t ∈ ids, Settled a s q t := by
  cases h with
  | apart none arms => exact arms.covered hp
  | @meet m bs mid next q two some arms rest =>
    obtain ⟨harms, hsettled⟩ := arms.covered hp
    obtain ⟨-, hend, hcovers⟩ := rest
    have hrest := hcovers harms.preceded
    have hmeeting : ∀ v ∈ [m], Settled a s q v := by simpa using hend.settled
    exact ⟨harms.trans_stop hrest hmeeting,
      fun t ht => hrest.settled_stop hmeeting (hsettled t ht)⟩

theorem Behind.covered {ids : List String} {b : Block} (h : Behind a (Covers a) A s ids p b q)
    (hp : Preceded a A p) : Covered a A s p q ∧ ∀ t ∈ ids, Settled a s q t := by
  cases h with
  | nothing none =>
    subst none
    exact ⟨.refl hp, by simp⟩
  | one only call =>
    obtain ⟨-, hend, hcovers⟩ := call
    exact ⟨hcovers hp, fun t ht => (only t).mp ht ▸ hend.settled⟩
  | several nodup all arms =>
    obtain ⟨harms, hsettled⟩ := arms.covered hp
    exact ⟨harms, fun t ht => hsettled t ((all t).mpr ht)⟩

/-! ### Parallel nodes -/

/-- A node that is planned has been preceded by all that leads to it without passing a stop. -/
theorem planned_of_leads (hp : Preceded a A p) (hheads : ∀ L ∈ A, L.head ∈ s.reserved)
    {u v : String} (h : ReflTransGen (Leads a s) u v) (hv : v ∈ p.planned)
    (hfree : v ∉ s.reserved) : u ∈ p.planned ∧ u ∉ s.reserved := by
  induction h using ReflTransGen.head_induction_on with
  | refl => exact ⟨hv, hfree⟩
  | head hxy _ ih =>
    obtain ⟨hy, hy'⟩ := ih
    exact ⟨hp _ hy (fun L hL heq => hy' (heq ▸ hheads L hL)) _ hxy.2, hxy.1⟩

theorem leads_rank {rank : String → Nat} (hrank : ∀ u v, a.Forward u v → rank u < rank v)
    {u v : String} (h : ReflTransGen (Leads a s) u v) : rank u ≤ rank v := by
  induction h with
  | refl => exact Nat.le_refl _
  | tail _ hxy ih => exact Nat.le_trans ih (Nat.le_of_lt (hrank _ _ hxy.2))

section Fan

variable (hs : a.Sound) (honce : a.ReturnsOnce) {c : Parallel}
  (hkind : a.config? id = some (.parallel c)) (h : Plain a A s p id)
include hs honce hkind h

/-- One of the arms that lead to a common node starts with a forward link. -/
theorem exists_forward_arm {v : String}
    (hv : v ∈ shared a s id) :
    ∃ t, a.Forward id t ∧ ReflTransGen (Leads a s) t v := by
  obtain ⟨-, hfree, hcount⟩ := (mem_shared hs).mp hv
  by_contra hcon
  -- otherwise all of these arms are links straight back to plain entries
  have hreturn : ∀ l ∈ outBySlot a id, (forwardReach a s l.target).contains v = true →
      (a.loops.isBack l && !Check.isGuard a.workflow l.target) = true := by
    intro l hl hreach
    rw [List.contains_iff_mem, mem_forwardReach] at hreach
    obtain ⟨hlinks, hsource⟩ := mem_outBySlot.mp hl
    rw [Bool.and_eq_true, Bool.not_eq_true']
    have hback : a.loops.isBack l = true := by
      by_contra hforward
      exact hcon ⟨_, ⟨l, hlinks, Bool.eq_false_iff.mpr hforward, hsource, rfl⟩, hreach⟩
    refine ⟨hback, Bool.eq_false_iff.mpr fun hguard => ?_⟩
    -- an entry that is a feedback loop is the head, where planning stops
    obtain ⟨L, hL, htarget, hhas⟩ := (hs.isBack_iff l hlinks).mp hback
    obtain ⟨c, hc⟩ := Check.isGuard_iff.mp hguard
    have hhead := hs.head_eq_entry L hL c (htarget ▸ hc)
    have hA := h.active L hL (hsource ▸ hhas)
    have hres : l.target ∈ s.reserved := by
      rw [htarget, ← hhead]
      exact (h.ready.scope.active L hA).2
    rcases hreach.cases_head with heq | ⟨x, hx, -⟩
    · exact hfree (heq ▸ hres)
    · exact hx.1 hres
  have hle : armsTo a s ((outBySlot a id).map Link.target) v ≤ (a.plainReturns id).length := by
    rw [armsTo, List.countP_map, Accepted.plainReturns, ← List.countP_eq_length_filter,
      ← (sortBy_perm _ (a.graph.outgoing id)).countP_eq]
    exact List.countP_mono_left hreturn
  obtain ⟨n, hn, hnc⟩ := Option.map_eq_some_iff.mp hkind
  obtain ⟨hmem, rfl⟩ := Workflow.node?_eq_some hn
  have := honce n hmem (by rw [Node.kind, hnc]; rfl)
  omega

/-- The nodes that two arms lead to are not planned before the arms. -/
theorem fan_fresh (hp : Preceded a A p) {v : String}
    (hv : v ∈ shared a s id) :
    v ∉ (p.mark id).planned := by
  obtain ⟨t, hforward, hway⟩ := exists_forward_arm hs honce hkind h hv
  have hfree := ((mem_shared hs).mp hv).2.1
  intro hplanned
  rcases List.mem_cons.mp hplanned with rfl | hplanned
  · obtain ⟨rank, hrank⟩ := hs.rank
    have := hrank _ _ hforward
    have := leads_rank hrank hway
    omega
  · have hheads : ∀ L ∈ A, L.head ∈ s.reserved := fun L hL => (h.ready.scope.active L hL).2
    have hleads : ReflTransGen (Leads a s) id v := .head ⟨h.opens.free, hforward⟩ hway
    exact h.opens.fresh (planned_of_leads hp hheads hleads hplanned hfree).1

end Fan

/-! ### Loops -/

namespace Starts

variable {L : Loop}

theorem preceded_inside (hp : Preceded a A p) :
    Preceded a (L :: A) { p.mark L.head with outside := [] } := by
  intro v hv hne
  rcases List.mem_cons.mp hv with rfl | hv
  · exact absurd rfl (hne L List.mem_cons_self)
  · exact (hp v hv fun M hM => hne M (List.mem_cons_of_mem _ hM)).mono
      (List.subset_cons_self _ _)

variable (hs : a.Sound) (h : Starts a A s p L) {body : Block}
  (hend : Ended a (L :: A) (s.inside L) L.bodyEntry { p.mark L.head with outside := [] } body q)
  (hcov : Covered a (L :: A) (s.inside L) { p.mark L.head with outside := [] } q)
include hs h hend hcov

/-- When the body of a loop is planned, the whole cycle is. -/
theorem complete : ∀ v, L.Has v → v ∈ q.planned := by
  have hhead : L.head ∈ q.planned := hcov.planned List.mem_cons_self
  obtain ⟨rank, hrank⟩ := hs.rank
  intro v
  -- a node of the cycle other than the entry is entered from nodes of the cycle only
  induction hn : rank v using Nat.strongRecOn generalizing v with
  | _ n ih =>
    intro hv
    by_cases hentry : v = L.entry
    · exact hentry ▸ h.entry_planned hs hend
    by_cases hvh : v = L.head
    · exact hvh ▸ hhead
    have hbody : v ∈ L.body := hv.resolve_left hvh
    have hon : ∀ u, a.Forward u v → L.Has u ∧ u ∈ q.planned := by
      intro u huv
      have hhas : L.Has u := by
        obtain ⟨l, hl, -, rfl, rfl⟩ := huv
        exact not_not.mp fun hnot => hentry (hs.enters L h.mem l hl hv hnot)
      exact ⟨hhas, ih (rank u) (hn ▸ hrank u v huv) u rfl hhas⟩
    -- it was called from its body entry or from a node of the body
    have hsettled : Settled a (s.inside L) q v := by
      obtain ⟨t, -, -, -, hnot, hpred⟩ := hs.trigger
      have hvt : v ≠ t.id := by
        rintro rfl
        exact hnot L h.mem hv
      obtain ⟨u, huv⟩ := hpred v (hs.has_mem L h.mem v hv) hvt
      by_cases huh : u = L.head
      · obtain ⟨l, hl, -, hsource, htarget⟩ := huv
        have := hs.bodyEntry_unique L h.mem l hl (hsource.trans huh) (htarget ▸ hbody)
        rw [← htarget, this]
        exact hend.settled
      · refine hcov.closed u (hon u huv).2 (fun hold => ?_) v huv
        rcases List.mem_cons.mp hold with hold | hold
        · exact huh hold
        · exact h.opens.fresh
            (h.ready.progress.started L h.mem h.notMem u hold (hon u huv).1)
    rcases hsettled with hres | hplanned | ⟨hbeyond, -⟩ | hwait
    · rcases List.mem_append.mp hres with hres | hres
      · exact absurd (h.ready.scope.closed L h.mem h.notMem v hres hv) h.opens.free
      · exact absurd (List.mem_singleton.mp hres) hvh
    · exact hplanned
    · refine absurd (fun b hb => ?_) hbeyond
      obtain rfl := Option.some.inj hb
      exact hbody
    · exact absurd (fun u huv => (hon u huv).2) hwait

theorem preceded_end : Preceded a A q := by
  intro v hv hne
  by_cases hvh : v = L.head
  · subst hvh
    by_cases heq : L.head = L.entry
    · rw [heq]
      exact h.opens.due.mono fun u hu => hcov.planned (List.mem_cons_of_mem _ hu)
    · rintro u ⟨l, hl, -, rfl, htarget⟩
      refine h.complete hs hend hcov _ (not_not.mp fun hnot => heq ?_)
      rw [← htarget]
      exact hs.enters L h.mem l hl (.inl htarget) hnot
  · refine hcov.preceded v hv fun M hM => ?_
    rcases List.mem_cons.mp hM with rfl | hM
    · exact hvh
    · exact hne M hM

/-- A loop with what comes behind it. -/
theorem covered (hnext : Covered a A s { q with outside := p.outside } r)
    (hexits : ∀ v ∈ exits a L ++ q.outside, Settled a s r v) : Covered a A s p r where
  planned := fun v hv => hnext.planned (hcov.planned (List.mem_cons_of_mem _ hv))
  outside := hnext.outside
  preceded := hnext.preceded
  closed := by
    intro u hu hnew v huv
    by_cases hq : u ∈ q.planned
    · by_cases huh : u = L.head
      · obtain ⟨l, hl, hback, rfl, rfl⟩ := huv
        by_cases hbody : l.target ∈ L.body
        · exact .inr (.inl (hnext.planned (h.complete hs hend hcov _ (.inr hbody))))
        · refine hexits _ (List.mem_append_left _ (List.mem_filter.mpr ⟨?_, by simpa using hbody⟩))
          exact List.mem_map_of_mem (mem_outByTarget.mpr ⟨hl, huh⟩)
      · -- what the body leaves is called behind the loop
        have hinner := hcov.closed u hq
          (fun hold => (List.mem_cons.mp hold).elim huh hnew) v huv
        rcases hinner with hres | hplanned | ⟨-, hleft⟩ | hwait
        · rcases List.mem_append.mp hres with hres | hres
          · exact .inl hres
          · obtain rfl := List.mem_singleton.mp hres
            exact .inr (.inl (hnext.planned (hcov.planned List.mem_cons_self)))
        · exact .inr (.inl (hnext.planned hplanned))
        · exact hexits v (List.mem_append_right _ hleft)
        · exact .of_wait hnext hwait
    · exact hnext.closed u hu hq v huv

end Starts

/-! ### Every call -/

theorem Plain.preceded_mark (h : Plain a A s p id) (hp : Preceded a A p) :
    Preceded a A (p.mark id) := by
  intro v hv hne
  rcases List.mem_cons.mp hv with rfl | hv
  · exact h.opens.due.mono (List.subset_cons_self _ _)
  · exact (hp v hv hne).mono (List.subset_cons_self _ _)

/-- A node whose successors are settled in the end, with what comes behind it. -/
theorem Covered.of_mark (hnext : Covered a A s (p.mark id) q)
    (hsettled : ∀ v, a.Forward id v → Settled a s q v) : Covered a A s p q where
  planned := fun v hv => hnext.planned (List.mem_cons_of_mem _ hv)
  outside := hnext.outside
  preceded := hnext.preceded
  closed := by
    intro u hu hnew v huv
    by_cases huid : u = id
    · exact hsettled v (huid ▸ huv)
    · exact hnext.closed u hu (fun hold => (List.mem_cons.mp hold).elim huid hnew) v huv

theorem Covered.of_planned_eq (hp : Preceded a A p) (hplanned : q.planned = p.planned)
    (houtside : p.outside ⊆ q.outside) : Covered a A s p q where
  planned := hplanned ▸ List.Subset.refl _
  outside := houtside
  preceded := by
    intro v hv hne u huv
    rw [hplanned] at hv ⊢
    exact hp v hv hne u huv
  closed := fun u hu hnew => absurd (hplanned ▸ hu) hnew

theorem Step.covered (hs : a.Sound) (honce : a.ReturnsOnce) {b : Block}
    (hready : Ready a A s id p) (hend : Ended a A s id p b q)
    (h : Step a (Covers a) A s id p b q) (hp : Preceded a A p) : Covered a A s p q := by
  cases h with
  | reserved stop => exact .refl hp
  | outside free beyond =>
    refine .of_planned_eq hp ?_ hend.grown.outside
    rw [Progress.leave]
    split <;> rfl
  | again free within old => exact .of_planned_eq hp rfl (List.Subset.refl _)
  | early free within fresh wait =>
    refine .of_planned_eq hp ?_ hend.grown.outside
    rw [Progress.postpone]
    split <;> rfl
  | loop opens mem entry head round =>
    subst entry
    have hstart : Starts a A s p _ := ⟨mem, hready, opens, head⟩
    cases round with
    | @mk body mid next r round behind =>
      obtain ⟨-, hbody, hcovers⟩ := round
      have hinner := hcovers (Starts.preceded_inside hp)
      have hmid : Preceded a A mid := hstart.preceded_end hs hbody hinner
      obtain ⟨hnext, hsettled⟩ := behind.covered hmid
      exact hstart.covered hs hbody hinner ⟨hnext.planned, hnext.outside, hnext.preceded,
        hnext.closed⟩ hsettled
  | seq opens plain behind =>
    have hplain : Plain a A s p id := ⟨hready, opens, plain⟩
    obtain ⟨hnext, hsettled⟩ := behind.covered (hplain.preceded_mark hp)
    refine Covered.of_mark hnext ?_
    rintro v ⟨l, hl, -, hsource, rfl⟩
    exact hsettled _ (List.mem_map_of_mem (mem_outByTarget.mpr ⟨hl, hsource⟩))
  | branch opens plain kind links labels arms =>
    have hplain : Plain a A s p id := ⟨hready, opens, plain⟩
    obtain ⟨hnext, hsettled⟩ := arms.covered (hplain.preceded_mark hp)
    refine Covered.of_mark hnext ?_
    rintro v ⟨l, hl, -, hsource, rfl⟩
    refine hsettled _ ?_
    rcases (links l).mp (Graph.mem_outgoing.mpr ⟨hl, hsource⟩) with rfl | rfl <;> simp
  | @fan c bs mid next r opens plain kind arms behind =>
    have hplain : Plain a A s p id := ⟨hready, opens, plain⟩
    obtain ⟨harms, hsettled⟩ := arms.covered (hplain.preceded_mark hp)
    obtain ⟨hnext, hfirst⟩ := behind.covered harms.preceded
    have hnext : Covered a A s mid q :=
      ⟨hnext.planned, hnext.outside, hnext.preceded, hnext.closed⟩
    -- a common node that is not called has one before it that is planned behind the arms
    have hcommon : ∀ v ∈ shared a s id, Settled a s q v := by
      intro v hv
      by_cases hearliest : v ∈ earliest a (shared a s id)
      · exact hfirst v hearliest
      · obtain ⟨u, hu, huv⟩ := exists_before_of_notMem_earliest hv hearliest
        by_cases hplanned : u ∈ q.planned
        · have hfresh := fan_fresh hs honce kind hplain hp hu
          have hmid := (arms.grown hplain.mark_fits).notMem_of_stop hu hfresh
          exact hnext.closed u hplanned hmid v huv
        · exact .inr (.inr (.inr fun hdue => hplanned (hdue u huv)))
    refine Covered.of_mark (harms.trans_stop hnext hcommon) ?_
    rintro v ⟨l, hl, -, hsource, rfl⟩
    refine hnext.settled_stop hcommon (hsettled _ ?_)
    exact List.mem_map_of_mem (mem_outBySlot.mpr ⟨hl, hsource⟩)

/-- The plan owns every node. -/
theorem mem_owned (hs : a.Sound) (honce : a.ReturnsOnce) {v : String} (hv : v ∈ a.graph.ids) :
    v ∈ a.plan.block.owned := by
  obtain ⟨t, q, ht, hend, hcovers, -⟩ := plan_rule hs _
    fun A s id p b q hready hend (hstep : Step a (Covers a) A s id p b q) =>
      hstep.covered hs honce hready hend
  have hcov := hcovers fun v hv => absurd hv (by simp)
  have hplanned : ∀ v, Settled a {} q v → Due a q v → v ∈ q.planned := by
    rintro v (hres | hv | ⟨hbeyond, -⟩ | hwait) hdue
    · simp at hres
    · exact hv
    · exact absurd (fun body hbody => by simp at hbody) hbeyond
    · exact absurd hdue hwait
  have howned : ∀ v, v ∈ q.planned → v ∈ a.plan.block.owned := fun v hv =>
    (hend.grown.mem_planned.mp hv).resolve_right (by simp)
  obtain ⟨t', ht', -, hnone, -, hpred⟩ := hs.trigger
  obtain rfl : t' = t := Option.some.inj (ht'.symm.trans ht)
  obtain ⟨rank, hrank⟩ := hs.rank
  refine howned v ?_
  -- by induction on the rank: what leads to the node is planned, so it is due
  induction hn : rank v using Nat.strongRecOn generalizing v with
  | _ n ih =>
    have hdue : Due a q v := by
      rintro u ⟨l, hl, hback, rfl, rfl⟩
      exact ih _ (hn ▸ hrank _ _ ⟨l, hl, hback, rfl, rfl⟩) (hs.link_mem l hl).1 rfl
    by_cases hvt : v = t'.id
    · exact hplanned v (hvt ▸ hend.settled) hdue
    · obtain ⟨u, huv⟩ := hpred v hv hvt
      exact hplanned v (hcov.closed u (hdue u huv) (by simp) v huv) hdue

end Plan

/-! ### The plan as a whole -/

theorem Block.faults_eq_nil {b : Block} {ids : List String} (hnodup : b.owned.Nodup)
    (hall : ∀ v ∈ ids, v ∈ b.owned) (hrev : ∀ v ∈ b.revisited, v ∈ b.owned) :
    b.faults ids = [] := by
  have hrepeated : repetitions [] b.owned = [] := repetitions_eq_nil.mpr ⟨hnodup, by simp⟩
  have hlost : ((sortedSet ids).filter fun id => !b.owned.contains id) = [] :=
    List.filter_eq_nil_iff.mpr fun v hv => by simpa using hall v (mem_sortedSet.mp hv)
  have hdangling : ((sortedSet b.revisited).filter fun id => !b.owned.contains id) = [] :=
    List.filter_eq_nil_iff.mpr fun v hv => by simpa using hrev v (mem_sortedSet.mp hv)
  simp only [faults, hrepeated, hlost, hdangling]
  rfl

/-- The plan of an accepted workflow owns every node exactly once, and nothing is wrong with it,
if no parallel node has two links straight back to entries that are no feedback loops. -/
theorem owned_perm_of_returnsOnce {w : Workflow} {a : Accepted} (h : check w = .ok a)
    (honce : a.ReturnsOnce) :
    a.plan.block.owned.Perm (w.nodes.map Node.id) ∧ a.plan.block.faults a.graph.ids = [] ∧
      ∀ d ∈ a.plan.diagnostics, d.code ∉ ["E001", "E002", "E003"] := by
  have hs := Check.sound_of_check h
  have hall : ∀ v ∈ a.graph.ids, v ∈ a.plan.block.owned := fun v => Plan.mem_owned hs honce
  have hfaults := Block.faults_eq_nil (Plan.owned_nodup hs) hall (Plan.revisited_subset hs)
  refine ⟨?_, hfaults, ?_⟩
  · rw [← ids_eq h]
    refine (List.perm_ext_iff_of_nodup (Plan.owned_nodup hs) hs.nodup_ids).mpr fun v => ?_
    exact ⟨Plan.owned_subset hs v, hall v⟩
  · obtain ⟨notes, hdiag⟩ := Plan.plan_diagnostics hs
    intro d hd
    rw [hdiag, hfaults, List.map_nil, List.append_nil] at hd
    obtain ⟨n, -, rfl⟩ := List.mem_map.mp hd
    cases n <;> simp [PlanNote.toDiagnostic, PlanNote.code]

/-- A draft is refined in a loop of its own and then goes to several checks at once.  The loop
around all of it is entered at the draft, ahead of its head `accept`; each of the given slots goes
straight back to the draft. -/
def reviewFlow (slots : List String) : Workflow where
  nodes :=
    [ { id := "start", config := .trigger {} },
      { id := "draft", config := .agent { prompt := "draft" } },
      { id := "refine", config := .feedbackLoop { maxIterations := 2, stopCondition := "done" } },
      { id := "polish", config := .agent { prompt := "polish" } },
      { id := "split", config := .parallel {} },
      { id := "check", config := .agent { prompt := "check" } },
      { id := "accept", config := .feedbackLoop { maxIterations := 3, stopCondition := "good" } } ]
  edges :=
    [ { id := "e1", source := "start", target := "draft" },
      { id := "e2", source := "draft", target := "refine" },
      { id := "e3", source := "refine", target := "polish" },
      { id := "e4", source := "polish", target := "refine" },
      { id := "e5", source := "refine", target := "split" },
      { id := "e6", source := "split", target := "check", slot := some "check" },
      { id := "e7", source := "check", target := "accept" },
      { id := "e8", source := "accept", target := "draft" } ] ++
    slots.map fun slot =>
      { id := "back-" ++ slot, source := "split", target := "draft", slot := some slot }

/-- With one slot that goes straight back all seven nodes are planned, the head of the outer loop
ahead of the draft. -/
theorem owned_perm_reviewFlow : ∃ a, check (reviewFlow ["redo"]) = .ok a ∧
    (a.plainReturns "split").length = 1 ∧
    a.plan.block.owned =
      ["start", "accept", "draft", "refine", "polish", "split", "check"] ∧
    a.plan.block.owned.Perm ((reviewFlow ["redo"]).nodes.map Node.id) ∧
    a.plan.block.faults a.graph.ids = [] := by
  obtain ⟨a, ha, honce, hlength, howned⟩ : ∃ a, check (reviewFlow ["redo"]) = .ok a ∧
      a.ReturnsOnce ∧ (a.plainReturns "split").length = 1 ∧ a.plan.block.owned =
        ["start", "accept", "draft", "refine", "polish", "split", "check"] :=
    exists_check_ok (by decide +kernel)
  obtain ⟨hperm, hfaults, -⟩ := owned_perm_of_returnsOnce ha honce
  exact ⟨a, ha, hlength, howned, hperm, hfaults⟩

end Flowscript
