/-
The calls of the planner.

The planner calls itself on a graph with cycles, and is given a depth that ends it in any case.  It
never comes to that.  `Runs` is a call that comes to its end by itself: it makes no calls, or it marks
a node that was not planned before and only then makes others, which come to their ends.

* `Needs` — an answer that is settled by finitely many calls, whatever would be answered to others;
* `Acts.needs` — the calls of a call that plans a node, all of them made when the node is marked;
* `runs_of_ready` — every call with the invariant comes to its end;
* `Runs.answered` — what it answers does not depend on the depth, if that is more than the nesting;
* `plan_runs` — so it is with the plan of an accepted workflow.
-/
import Flowscript.Proofs.Plan.Rule
import Flowscript.Proofs.Reducible

namespace Flowscript

namespace Plan

/-- A call of the planner and what it returns. -/
structure Visit where
  scope : Scope
  node : String
  before : Progress
  block : Block
  after : Progress

/-- A walk that returns the same. -/
def Visit.AnsweredBy (c : Visit) (walk : Walk) : Prop :=
  walk c.scope c.node c.before = (c.block, c.after)

/-- A call of the planner that comes to its end, with calls that plan a node nested at most `n` deep.
It returns a block that runs no node and makes no calls, or it plans a node that was not planned
before.  Then it makes calls when the node is marked, and returns what follows from the answers to
these. -/
inductive Runs (a : Accepted) : Nat → Visit → Prop
  | returns {n : Nat} {c : Visit} (node : c.block.owner? = none)
    (alone : ∀ walk, c.AnsweredBy (oneCall a a.order walk)) : Runs a n c
  | plans {n : Nat} {c : Visit} {v : String} {nested : List Visit}
    (node : c.block.owner? = some v) (known : v ∈ a.graph.ids) (fresh : v ∉ c.before.planned)
    (marked : ∀ d ∈ nested, v :: c.before.planned ⊆ d.before.planned)
    (settled : ∀ walk, (∀ d ∈ nested, d.AnsweredBy walk) → c.AnsweredBy (oneCall a a.order walk))
    (runs : ∀ d ∈ nested, Runs a n d) : Runs a (n + 1) c

/-! ### Answers that follow from answers -/

/-- What is made of a walk by `f` is `y`, if some calls, all with `P`, are answered as they were. -/
def Needs {β : Type} (P : Visit → Prop) (f : Walk → β) (y : β) : Prop :=
  ∃ calls : List Visit, (∀ c ∈ calls, P c) ∧
    ∀ walk, (∀ c ∈ calls, c.AnsweredBy walk) → f walk = y

namespace Needs

variable {β γ δ : Type} {P : Visit → Prop} {f : Walk → β} {g : Walk → γ} {k : Walk → δ} {x : δ}
  {y : β} {z : γ}

theorem nothing (h : ∀ walk, f walk = y) : Needs P f y :=
  ⟨[], List.forall_mem_nil _, fun walk _ => h walk⟩

theorem call {s : Scope} {id : String} {p q : Progress} {b : Block} (h : P ⟨s, id, p, b, q⟩) :
    Needs P (fun walk => walk s id p) (b, q) :=
  ⟨[⟨s, id, p, b, q⟩], List.forall_mem_singleton.mpr h,
    fun _ hwalk => hwalk _ List.mem_cons_self⟩

theorem map (hf : Needs P f y) (h : ∀ walk, f walk = y → g walk = z) : Needs P g z := by
  obtain ⟨calls, hcalls, hwalk⟩ := hf
  exact ⟨calls, hcalls, fun walk hanswered => h walk (hwalk walk hanswered)⟩

/-- Two answers, of which another one is made. -/
theorem both (hf : Needs P f y) (hg : Needs P g z)
    (h : ∀ walk, f walk = y → g walk = z → k walk = x) : Needs P k x := by
  obtain ⟨first, hfirst, hy⟩ := hf
  obtain ⟨second, hsecond, hz⟩ := hg
  refine ⟨first ++ second, List.forall_mem_append.mpr ⟨hfirst, hsecond⟩, fun walk hwalk => ?_⟩
  obtain ⟨hwalk, hwalk'⟩ := List.forall_mem_append.mp hwalk
  exact h walk (hy walk hwalk) (hz walk hwalk')

end Needs

/-! ### The calls of the parts of the planner -/

variable {a : Accepted} {A : List Loop} {s : Scope} {p q : Progress} {id : String}
  {ids base : List String} {P : Visit → Prop}

section Kept

variable {Φ : Call}
  (hP : ∀ A s id p b q, Keeps a Φ A s id p b q → base ⊆ p.planned → P ⟨s, id, p, b, q⟩)
include hP

theorem Each.needs {bs : List Block} (h : Each (Keeps a Φ) A s ids p bs q)
    (hbase : base ⊆ p.planned) : Needs P (fun walk => walkEach walk s ids p) (bs, q) := by
  induction h with
  | nil => exact .nothing fun _ => rfl
  | cons head tail ih =>
    have hnext := List.Subset.trans hbase head.2.1.grown.planned_subset
    refine (Needs.call (hP _ _ _ _ _ _ head hbase)).both (ih hnext) fun walk hfirst hrest => ?_
    simp only [walkEach, hfirst, hrest]

theorem Arms.needs {bs : List Block} {next : Block} (h : Arms a (Keeps a Φ) A s ids p bs next q)
    (hp : p.Fits a A) (hbase : base ⊆ p.planned) :
    Needs P (fun walk => armsFrom a a.order walk s ids p) (bs, next, q) := by
  cases h with
  | apart none arms =>
    refine (arms.needs hP hbase).map fun walk harms => ?_
    have hmeeting : (if ids.length > 1 then meeting? a a.order s ids else .none) = .none := by
      split
      · exact none ‹_›
      · rfl
    simp only [armsFrom, hmeeting, harms]
  | @meet m bs mid next r two some arms rest =>
    have hmid := List.Subset.trans hbase (arms.grown hp).planned_subset
    refine (arms.needs hP hbase).both (Needs.call (hP _ _ _ _ _ _ rest hmid))
      fun walk harms hrest => ?_
    rw [Scope.stopAt] at harms
    simp only [armsFrom, if_pos two, some, harms, hrest]

end Kept

theorem loopAt_eq (hs : a.Sound) {L : Loop} (hL : L ∈ a.loops.loops) (config : FeedbackLoop)
    {walk : Walk} {body : Block}
    (hround : walk (s.inside L) L.bodyEntry { p with outside := [] } = (body, q)) :
    loopAt a a.order walk s L.head config p =
      (.loop L.head body config.maxIterations config.stopCondition
          (behind a a.order walk s (exits a L ++ q.outside) ({ q with outside := p.outside }.tell
            (q.outside.map fun node => .loopExit node L.head))).1,
        (behind a a.order walk s (exits a L ++ q.outside) ({ q with outside := p.outside }.tell
          (q.outside.map fun node => .loopExit node L.head))).2) := by
  rw [Scope.inside] at hround
  simp only [loopAt, get?_eq_some hs hL, hround]
  rfl

theorem fanAt_eq (merge : Merge) {walk : Walk} {bs : List Block}
    (hrun : walkEach walk (s.stopAt (shared a s id)) ((outBySlot a id).map Link.target) p = (bs, q)) :
    fanAt a a.order walk s id merge p =
      (.fan id (((outBySlot a id).map fun l => l.edge.slot.getD "").zip bs) merge
          (behind a a.order walk s (earliest a (shared a s id))
            (q.tell (fanNotes a id merge (shared a s id) ((outBySlot a id).zip bs)))).1,
        (behind a a.order walk s (earliest a (shared a s id))
          (q.tell (fanNotes a id merge (shared a s id) ((outBySlot a id).zip bs)))).2) := by
  rw [Scope.stopAt, shared] at hrun
  simp only [fanAt, hrun]
  rfl

section Walk

variable (hs : a.Sound) {walk₀ : Walk} {n : Nat}
  (hcalls : ∀ A s id p b q, returns walk₀ A s id p b q → Ready a A s id p → unplanned a p < n →
    Ended a A s id p b q)
  (hP : ∀ A s id p b q, Kept a (returns walk₀) n A s id p b q → base ⊆ p.planned →
    P ⟨s, id, p, b, q⟩)
include hs hcalls hP

theorem behind_needs (hscope : s.Fits a A) (hids : ∀ t ∈ ids, Callable a A t) (hp : p.Fits a A)
    (hbegun : Begun A p) (hn : unplanned a p < n) (hbase : base ⊆ p.planned) :
    Needs P (fun walk => behind a a.order walk s ids p) (behind a a.order walk₀ s ids p) := by
  have hdistinct : ∀ t ∈ distinct ids, Callable a A t := fun t ht => hids t (mem_distinct.mp ht)
  simp only [behind]
  rcases hlist : distinct ids with _ | ⟨t, _ | ⟨t', ts⟩⟩
  · exact .nothing fun _ => rfl
  · have hready : Ready a A s t p :=
      ⟨hscope, hp, hdistinct t (hlist ▸ List.mem_cons_self), hbegun.mark t⟩
    exact .call (hP A _ _ _ _ _ ⟨hready, hcalls _ _ _ _ _ _ rfl hready hn, rfl, hn⟩ hbase)
  · rw [hlist] at hdistinct
    have harms := (armsFrom_arms walk₀ A s (t :: t' :: ts) p).kept hs hcalls hscope hdistinct hp
      hbegun hn
    exact (harms.needs hP hp hbase).map fun walk hwalk => by simp only [hwalk]

theorem loopAt_needs {L : Loop} (hstart : Starts a A s p L) (config : FeedbackLoop)
    (hn : unplanned a (p.mark L.head) < n) (hbase : base ⊆ L.head :: p.planned) :
    Needs P (fun walk => loopAt a a.order walk s L.head config (p.mark L.head))
      (loopAt a a.order walk₀ s L.head config (p.mark L.head)) := by
  rcases hround : walk₀ (s.inside L) L.bodyEntry { p.mark L.head with outside := [] } with ⟨body, q⟩
  have hready := hstart.ready_inside hs
  have hend := hcalls _ _ _ _ _ _ hround hready hn
  have htold := hstart.grown_told hs hend (q.outside.map fun node => .loopExit node L.head)
  have hnext := behind_needs hs hcalls hP hstart.ready.scope
    (hstart.callable_behind hs hend.grown.fits) htold.fits (htold.begun (hstart.begun hs))
    (Nat.lt_of_le_of_lt hend.grown.unplanned_le hn)
    (List.Subset.trans hbase hend.grown.planned_subset)
  refine (Needs.call (hP _ _ _ _ _ _ ⟨hready, hend, hround, hn⟩ hbase)).both hnext
    fun walk hfirst hrest => ?_
  rw [loopAt_eq hs hstart.mem config hfirst, loopAt_eq hs hstart.mem config hround]
  exact congrArg (fun y => (Block.loop L.head body config.maxIterations config.stopCondition y.1, y.2))
    hrest

variable (hplain : Plain a A s p id) (hn : unplanned a (p.mark id) < n)
  (hbase : base ⊆ id :: p.planned)
include hplain hn hbase

theorem seq_needs : Needs P
    (fun walk => behind a a.order walk s ((outByTarget a id).map Link.target) (p.mark id))
    (behind a a.order walk₀ s ((outByTarget a id).map Link.target) (p.mark id)) :=
  behind_needs hs hcalls hP hplain.ready.scope (hplain.callable_of_target hs) hplain.mark_fits
    hplain.ready.begun hn hbase

theorem branchAt_needs {c : Condition} (hc : a.config? id = some (.condition c)) :
    Needs P (fun walk => branchAt a a.order walk s id (p.mark id))
      (branchAt a a.order walk₀ s id (p.mark id)) := by
  obtain ⟨t, f, hlinks, -, htrue, hfalse⟩ := exists_labelled hs hc
  have harms := (armsFrom_arms walk₀ A s [t.target, f.target] (p.mark id)).kept hs hcalls
    hplain.ready.scope (hplain.callable_of_label hs hlinks) hplain.mark_fits hplain.ready.begun hn
  refine (harms.needs hP hplain.mark_fits hbase).map fun walk hwalk => ?_
  simp only [branchAt, htrue, hfalse, Option.map_some, hwalk]

theorem fanAt_needs (merge : Merge) :
    Needs P (fun walk => fanAt a a.order walk s id merge (p.mark id))
      (fanAt a a.order walk₀ s id merge (p.mark id)) := by
  rcases hrun : walkEach walk₀ (s.stopAt (shared a s id)) ((outBySlot a id).map Link.target)
    (p.mark id) with ⟨bs, q⟩
  have harms := walkEach_each walk₀ A (s.stopAt (shared a s id))
    ((outBySlot a id).map Link.target) (p.mark id)
  rw [hrun] at harms
  have hkept := harms.kept hcalls (hplain.fits_shared hs) (hplain.callable_of_slot hs)
    hplain.mark_fits hplain.ready.begun hn
  have hgrown := (hkept.grown hplain.mark_fits).relax
  have htold := hgrown.trans (Grown.tell hgrown.fits
    (fanNotes a id merge (shared a s id) ((outBySlot a id).zip bs)))
  have hnext := behind_needs hs hcalls hP hplain.ready.scope
    (hplain.callable_of_shared hs) htold.fits
    (htold.begun hplain.ready.begun) (Nat.lt_of_le_of_lt htold.unplanned_le hn)
    (List.Subset.trans hbase htold.planned_subset)
  refine (hkept.needs hP hbase).both hnext fun walk hfirst hrest => ?_
  rw [fanAt_eq merge hfirst, fanAt_eq merge hrun]
  exact congrArg (fun y => (Block.fan id _ merge y.1, y.2)) hrest

end Walk

theorem owner?_branchAt (order : List String) (walk : Walk) :
    (branchAt a order walk s id p).1.owner? = some id := by
  simp only [branchAt]
  split
  · split <;> rfl
  · rfl
  · rfl
  · rfl

theorem owner?_loopAt (hs : a.Sound) {L : Loop} (hL : L ∈ a.loops.loops) (config : FeedbackLoop)
    (walk : Walk) : (loopAt a a.order walk s L.head config p).1.owner? = some L.head := by
  rw [loopAt, get?_eq_some hs hL]
  rfl

/-- A call that plans a node makes its calls when the node is marked. -/
theorem Acts.needs (hs : a.Sound) {walk₀ : Walk} {n : Nat} {Q : Visit → Prop}
    (hcalls : ∀ A s id p b q, returns walk₀ A s id p b q → Ready a A s id p → unplanned a p < n →
      Ended a A s id p b q)
    (hQ : ∀ A s id p b q, Kept a (returns walk₀) n A s id p b q → Q ⟨s, id, p, b, q⟩)
    {f : Walk → Block × Progress} (h : Acts a s id p f) (hready : Ready a A s id p)
    (hn : unplanned a p ≤ n) :
    ∃ v ∈ a.graph.ids, v ∉ p.planned ∧ (f walk₀).1.owner? = some v ∧
      Needs (fun d => Q d ∧ v :: p.planned ⊆ d.before.planned) f (f walk₀) := by
  have hP : ∀ v A s id p' b q, Kept a (returns walk₀) n A s id p' b q →
      v :: p.planned ⊆ p'.planned → Q ⟨s, id, p', b, q⟩ ∧ v :: p.planned ⊆ p'.planned :=
    fun v A s id p' b q hkept hbase => ⟨hQ A s id p' b q hkept, hbase⟩
  have hrefl : ∀ v, v :: p.planned ⊆ (p.mark v).planned := fun _ => List.Subset.refl _
  cases h with
  | @loop L c opens mem entry head config =>
    subst entry
    have hstart : Starts a A s p L := ⟨mem, hready, opens, head⟩
    have hhead := hs.has_mem L mem _ (.inl rfl)
    have hmark := Nat.lt_of_lt_of_le (unplanned_mark hhead hstart.head_fresh) hn
    exact ⟨L.head, hhead, hstart.head_fresh, owner?_loopAt hs mem c walk₀,
      loopAt_needs hs hcalls (hP L.head) hstart c hmark (hrefl L.head)⟩
  | seq opens plain kind =>
    have hplain : Plain a A s p id := ⟨hready, opens, plain⟩
    have hmark := Nat.lt_of_lt_of_le (unplanned_mark hready.callable.1 opens.fresh) hn
    refine ⟨id, hready.callable.1, opens.fresh, rfl, ?_⟩
    exact (seq_needs hs hcalls (hP id) hplain hmark (hrefl id)).map fun walk hwalk => by
      simp only [hwalk]
  | branch opens plain kind =>
    have hplain : Plain a A s p id := ⟨hready, opens, plain⟩
    have hmark := Nat.lt_of_lt_of_le (unplanned_mark hready.callable.1 opens.fresh) hn
    exact ⟨id, hready.callable.1, opens.fresh, owner?_branchAt _ _,
      branchAt_needs hs hcalls (hP id) hplain hmark (hrefl id) kind⟩
  | fan opens plain kind =>
    have hplain : Plain a A s p id := ⟨hready, opens, plain⟩
    have hmark := Nat.lt_of_lt_of_le (unplanned_mark hready.callable.1 opens.fresh) hn
    exact ⟨id, hready.callable.1, opens.fresh, rfl,
      fanAt_needs hs hcalls (hP id) hplain hmark (hrefl id) _⟩

/-! ### Every call -/

theorem Runs.mono {m n : Nat} {c : Visit} (h : Runs a m c) (hmn : m ≤ n) : Runs a n c := by
  induction h generalizing n with
  | returns node alone => exact .returns node alone
  | plans node known fresh marked settled _ ih =>
    cases n with
    | zero => exact absurd hmn (Nat.not_succ_le_zero _)
    | succ n =>
      exact .plans node known fresh marked settled fun d hd => ih d hd (Nat.le_of_succ_le_succ hmn)

theorem blockFrom_eq_iterate (a : Accepted) (order : List String) (depth : Nat) :
    blockFrom a order depth = (oneCall a order)^[depth] fun _ _ p => (.done, p) := by
  induction depth with
  | zero => rfl
  | succ depth ih => rw [blockFrom_succ, ih, Function.iterate_succ_apply']

/-- Calls that are nested deeper than planning goes are not made, whatever would be answered. -/
theorem Runs.answered {n : Nat} {c : Visit} (h : Runs a n c) (deepest : Walk) :
    ∀ depth, n < depth → c.AnsweredBy ((oneCall a a.order)^[depth] deepest) := by
  induction h with
  | returns _ alone =>
    intro depth hdepth
    obtain ⟨depth, rfl⟩ := Nat.exists_eq_add_of_lt hdepth
    rw [Function.iterate_succ_apply']
    exact alone _
  | plans _ _ _ _ settled _ ih =>
    intro depth hdepth
    obtain ⟨depth, rfl⟩ := Nat.exists_eq_add_of_lt hdepth
    rw [Function.iterate_succ_apply']
    exact settled _ fun d hd => ih d hd _ (by omega)

/-- Every call with the invariant comes to its end, with no more calls nested than nodes are left. -/
theorem runs_of_ready (hs : a.Sound) : ∀ depth A s id p b q,
    blockFrom a a.order depth s id p = (b, q) → Ready a A s id p → unplanned a p < depth →
      Runs a (unplanned a p) ⟨s, id, p, b, q⟩ := by
  intro depth
  induction depth with
  | zero => exact fun A s id p b q _ _ hn => absurd hn (Nat.not_lt_zero _)
  | succ depth ih =>
    intro A s id p b q hcall hready hn
    rw [blockFrom_succ] at hcall
    rcases oneCall_cases hs s id p with ⟨b', q', hnode, hanswer, -⟩ | hacts
    · obtain ⟨rfl, rfl⟩ := Prod.mk.inj ((hanswer _).symm.trans hcall)
      exact .returns hnode hanswer
    · have hended := fun A s id p' b q hcall hready (hp' : unplanned a p' < unplanned a p) =>
        (walk_rule hs (fun _ _ _ _ _ _ => True) (fun _ _ _ _ _ _ _ _ _ => trivial) depth A s id p' b q
          hcall hready (by omega)).1
      have hruns : ∀ A s id p' b q,
          Kept a (returns (blockFrom a a.order depth)) (unplanned a p) A s id p' b q →
            Runs a (unplanned a p - 1) ⟨s, id, p', b, q⟩ := by
        rintro A s id p' b q ⟨hready, -, hcall, hp'⟩
        exact (ih A s id p' b q hcall hready (by omega)).mono (by omega)
      obtain ⟨v, hknown, hfresh, hnode, nested, hnested, hsettled⟩ :=
        hacts.needs hs hended hruns hready (Nat.le_refl _)
      rw [hcall] at hnode hsettled
      have hleft : unplanned a p = unplanned a p - 1 + 1 := by
        have := unplanned_mark hknown hfresh
        omega
      rw [hleft]
      exact .plans hnode hknown hfresh (fun d hd => (hnested d hd).2) hsettled
        fun d hd => (hnested d hd).1

end Plan

open Plan

/-- The planner comes to its end on every accepted workflow.  Each call of it makes no calls, or marks
a node that was not planned before and makes its calls then; calls that plan a node are nested at most
as deep as there are nodes.  So the plan depends neither on the depth that the planner is given, nor on
what would be answered to calls at that depth. -/
theorem plan_runs {w : Workflow} {a : Accepted} (h : check w = .ok a) :
    ∃ t q, w.trigger? = some t ∧
      Runs a w.nodes.length ⟨{}, t.id, {}, a.plan.block, q⟩ ∧
      ∀ depth, w.nodes.length < depth →
        blockFrom a a.order depth {} t.id {} = (a.plan.block, q) ∧
        ∀ deepest, (oneCall a a.order)^[depth] deepest {} t.id {} = (a.plan.block, q) := by
  have hs := Check.sound_of_check h
  obtain ⟨t, ht, hready⟩ := ready_trigger hs
  rw [(check_ok h).1] at ht
  rcases hcall : blockFrom a a.order (2 * a.graph.ids.length + 2) {} t.id {} with ⟨b, q⟩
  have hplan : a.plan.block = b := by
    simp only [Accepted.plan, (check_ok h).1, ht, hcall]
  have hlength : w.nodes.length = a.graph.ids.length := by rw [ids_eq h, List.length_map]
  have hleft := unplanned_le_length (a := a) {}
  have hruns := (runs_of_ready hs _ _ _ _ _ _ _ hcall hready (by omega)).mono (hlength ▸ hleft)
  rw [hplan]
  refine ⟨t, q, ht, hruns, fun depth hdepth => ⟨?_, fun deepest => hruns.answered deepest _ hdepth⟩⟩
  rw [blockFrom_eq_iterate]
  exact hruns.answered _ _ hdepth

/-- The outer loop is entered at `outline`, ahead of its head `accept`: the call there marks `accept`
and then calls itself at `outline` once more. -/
theorem plan_runs_essayFlow : ∃ a, check essayFlow = .ok a ∧
    a.plan.block.owned = ["start", "accept", "outline", "refine", "polish", "publish"] ∧
    ∃ t q, essayFlow.trigger? = some t ∧ Runs a 6 ⟨{}, t.id, {}, a.plan.block, q⟩ ∧
      blockFrom a a.order 7 {} t.id {} = (a.plan.block, q) := by
  obtain ⟨a, ha, howned⟩ : ∃ a, check essayFlow = .ok a ∧
      a.plan.block.owned = ["start", "accept", "outline", "refine", "polish", "publish"] :=
    exists_check_ok (by decide +kernel)
  obtain ⟨t, q, ht, hruns, hdepth⟩ := plan_runs ha
  exact ⟨a, ha, howned, t, q, ht, hruns, (hdepth 7 (by decide)).1⟩

end Flowscript
