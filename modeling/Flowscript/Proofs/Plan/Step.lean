/-
One step of planning.

`Step` says what a call of the planner can do, in terms of a relation `R` that its calls of itself
satisfy: `Each` is a run of calls one after the other, `Arms` one that stops where the arms meet,
`Behind` what comes after a node, and `Round` a loop.  The relation is also told which loops are
being planned, innermost first; the planner itself does not keep them.

* `oneCall`, `Acts` — a call with a parameter in the place of the calls it makes, and what it does if
  it plans a node;
* `blockFrom_step` — every call with some depth left is a step over the calls it makes.

The invariants of planning are proved from steps, and no other proof opens the planner.
-/
import Flowscript.Plan.Walk
import Flowscript.Proofs.Order

namespace Flowscript

namespace Plan

/-- The node is in the body of the innermost loop, if there is one. -/
def Scope.Within (s : Scope) (v : String) : Prop := ∀ body, s.within = some body → v ∈ body

/-- The scope with more nodes to stop at. -/
def Scope.stopAt (s : Scope) (more : List String) : Scope :=
  { s with reserved := s.reserved ++ more }

/-- The scope of the body of a loop. -/
def Scope.inside (s : Scope) (L : Loop) : Scope :=
  { reserved := s.reserved ++ [L.head], within := some L.body }

/-- The progress with more notes. -/
def Progress.tell (p : Progress) (notes : List PlanNote) : Progress :=
  { p with notes := p.notes ++ notes }

/-- All nodes that lead to a node by forward links are planned. -/
def Due (a : Accepted) (p : Progress) (v : String) : Prop := ∀ u, a.Forward u v → u ∈ p.planned

/-- A node that is planned now. -/
structure Opens (a : Accepted) (s : Scope) (p : Progress) (id : String) : Prop where
  free : id ∉ s.reserved
  within : s.Within id
  fresh : id ∉ p.planned
  due : Due a p id

/-- What is said of a call: the loops being planned, then scope, node and progress before it, then
what it returns. -/
abbrev Call := List Loop → Scope → String → Progress → Block → Progress → Prop

/-- Calls at several nodes one after the other, in one scope, each with the progress of the one
before. -/
inductive Each (R : Call) (A : List Loop) (s : Scope) :
    List String → Progress → List Block → Progress → Prop
  | nil {p} : Each R A s [] p [] p
  | cons {id ids p b q bs r} (head : R A s id p b q) (tail : Each R A s ids q bs r) :
    Each R A s (id :: ids) p (b :: bs) r

/-- Calls at the first nodes of several arms.  If all arms lead to a node, the calls stop at the first
such node, and a call in the outer scope goes on there. -/
inductive Arms (a : Accepted) (R : Call) (A : List Loop) (s : Scope) (ids : List String)
    (p : Progress) : List Block → Block → Progress → Prop
  | apart {bs q} (none : 1 < ids.length → meeting? a a.order s ids = none)
    (arms : Each R A s ids p bs q) : Arms a R A s ids p bs .done q
  | meet {m bs q next r} (two : 1 < ids.length) (some : meeting? a a.order s ids = some m)
    (arms : Each R A (s.stopAt [m]) ids p bs q) (rest : R A s m q next r) :
    Arms a R A s ids p bs next r

/-- Calls at what comes after a block: none, one, or a fork when there are several nodes, in whatever
order and however often they are listed. -/
inductive Behind (a : Accepted) (R : Call) (A : List Loop) (s : Scope) (ids : List String)
    (p : Progress) : Block → Progress → Prop
  | nothing (none : ids = []) : Behind a R A s ids p .done p
  | one {id b q} (only : ∀ x, x ∈ ids ↔ x = id) (call : R A s id p b q) : Behind a R A s ids p b q
  | several {ts bs next q} (nodup : ts.Nodup) (all : ∀ x, x ∈ ts ↔ x ∈ ids)
    (arms : Arms a R A s ts p bs next q) : Behind a R A s ids p (.fork bs next) q

/-- What leaves the head of a loop for a node outside its body. -/
def exits (a : Accepted) (L : Loop) : List String :=
  ((outByTarget a L.head).map Link.target).filter fun t => !L.body.contains t

/-- The nodes that two arms of a parallel node lead to. -/
def shared (a : Accepted) (s : Scope) (id : String) : List String :=
  common a a.order s ((outBySlot a id).map Link.target)

/-- A loop whose head is marked: a call plans the body inside the scope of the loop, and what comes
after it are the exits of the head and the nodes outside that the body has reached. -/
inductive Round (a : Accepted) (R : Call) (A : List Loop) (s : Scope) (L : Loop) (c : FeedbackLoop)
    (p : Progress) : Block → Progress → Prop
  | mk {body q next r}
    (round : R (L :: A) (s.inside L) L.bodyEntry { p with outside := [] } body q)
    (behind : Behind a R A s (exits a L ++ q.outside)
      ({ q with outside := p.outside }.tell (q.outside.map fun node => .loopExit node L.head))
      next r) :
    Round a R A s L c p (.loop L.head body c.maxIterations c.stopCondition next) r

/-- What one call of the planner does, as a relation over what is said of the calls it makes (`R`).
The first four cases return without a call: the node is left to a block further out, lies outside the
loop being planned, was planned before, or waits for a node before it.  In the others the node, or the
head of the loop that is entered at it, is marked before any call is made. -/
inductive Step (a : Accepted) (R : Call) (A : List Loop) (s : Scope) (id : String) (p : Progress) :
    Block → Progress → Prop
  | reserved (stop : id ∈ s.reserved) : Step a R A s id p .done p
  | outside (free : id ∉ s.reserved) (beyond : ¬s.Within id) : Step a R A s id p .done (p.leave id)
  | again (free : id ∉ s.reserved) (within : s.Within id) (old : id ∈ p.planned) :
    Step a R A s id p (.visited id) (p.note (.reachedAgain id))
  | early (free : id ∉ s.reserved) (within : s.Within id) (fresh : id ∉ p.planned)
    (wait : ¬Due a p id) : Step a R A s id p .done (p.postpone id)
  | loop {L c b q} (opens : Opens a s p id) (mem : L ∈ a.loops.loops) (entry : L.entry = id)
    (head : L.head ∉ s.reserved) (round : Round a R A s L c (p.mark L.head) b q)
    (config : a.config? L.head = some (.feedbackLoop c)) : Step a R A s id p b q
  | seq {next q} (opens : Opens a s p id)
    (plain : ∀ L ∈ a.loops.loops, L.entry = id → L.head ∈ s.reserved)
    (behind : Behind a R A s ((outByTarget a id).map Link.target) (p.mark id) next q)
    (kind : (a.config? id).map Config.kind ∉ [some .condition, some .parallel]) :
    Step a R A s id p (.seq id next) q
  | branch {c t f onTrue onFalse next q} (opens : Opens a s p id)
    (plain : ∀ L ∈ a.loops.loops, L.entry = id → L.head ∈ s.reserved)
    (kind : a.config? id = some (.condition c))
    (links : ∀ l, l ∈ a.graph.outgoing id ↔ l = t ∨ l = f)
    (labels : t.edge.branch = some true ∧ f.edge.branch = some false)
    (arms : Arms a R A s [t.target, f.target] (p.mark id) [onTrue, onFalse] next q) :
    Step a R A s id p (.branch id onTrue onFalse next) q
  | fan {c bs q next r} (opens : Opens a s p id)
    (plain : ∀ L ∈ a.loops.loops, L.entry = id → L.head ∈ s.reserved)
    (kind : a.config? id = some (.parallel c))
    (arms : Each R A (s.stopAt (shared a s id)) ((outBySlot a id).map Link.target) (p.mark id) bs q)
    (behind : Behind a R A s (earliest a (shared a s id))
      (q.tell (fanNotes a id c.merge (shared a s id) ((outBySlot a id).zip bs))) next r) :
    Step a R A s id p
      (.fan id (((outBySlot a id).map fun l => l.edge.slot.getD "").zip bs) c.merge next) r

/-! ### Steps over other relations -/

section Mono

variable {a : Accepted} {R R' : Call} (hR : ∀ A s id p b q, R A s id p b q → R' A s id p b q)
include hR

theorem Each.mono {A : List Loop} {s : Scope} {ids : List String} {p q : Progress}
    {bs : List Block} (h : Each R A s ids p bs q) : Each R' A s ids p bs q := by
  induction h with
  | nil => exact .nil
  | cons head _ ih => exact .cons (hR _ _ _ _ _ _ head) ih

theorem Arms.mono {A : List Loop} {s : Scope} {ids : List String} {p q : Progress}
    {bs : List Block} {next : Block} (h : Arms a R A s ids p bs next q) :
    Arms a R' A s ids p bs next q := by
  cases h with
  | apart none arms => exact .apart none (arms.mono hR)
  | meet two some arms rest => exact .meet two some (arms.mono hR) (hR _ _ _ _ _ _ rest)

theorem Behind.mono {A : List Loop} {s : Scope} {ids : List String} {p q : Progress} {b : Block}
    (h : Behind a R A s ids p b q) : Behind a R' A s ids p b q := by
  cases h with
  | nothing none => exact .nothing none
  | one only call => exact .one only (hR _ _ _ _ _ _ call)
  | several nodup all arms => exact .several nodup all (arms.mono hR)

theorem Step.mono {A : List Loop} {s : Scope} {id : String} {p q : Progress} {b : Block}
    (h : Step a R A s id p b q) : Step a R' A s id p b q := by
  cases h with
  | reserved stop => exact .reserved stop
  | outside free beyond => exact .outside free beyond
  | again free within old => exact .again free within old
  | early free within fresh wait => exact .early free within fresh wait
  | loop opens mem entry head round config =>
    cases round with
    | mk round behind =>
      exact .loop opens mem entry head (.mk (hR _ _ _ _ _ _ round) (behind.mono hR)) config
  | seq opens plain behind kind => exact .seq opens plain (behind.mono hR) kind
  | branch opens plain kind links labels arms =>
    exact .branch opens plain kind links labels (arms.mono hR)
  | fan opens plain kind arms behind =>
    exact .fan opens plain kind (arms.mono hR) (behind.mono hR)

end Mono

/-! ### Calls of the planner -/

variable {a : Accepted}

theorem isDue_iff {p : Progress} {v : String} : isDue a p v = true ↔ Due a p v := by
  simp only [isDue, Due, List.all_eq_true, List.contains_iff_mem, ← Accepted.mem_sources,
    List.forall_mem_map]

theorem within_any_iff {s : Scope} {v : String} :
    (s.within.any fun body => !body.contains v) = true ↔ ¬s.Within v := by
  rw [Scope.Within]
  rcases s.within with _ | body <;> simp

/-- A relation that is a function. -/
def returns (walk : Walk) : Call := fun _ s id p b q => walk s id p = (b, q)

theorem walkEach_each (walk : Walk) (A : List Loop) (s : Scope) (ids : List String) :
    ∀ p, Each (returns walk) A s ids p (walkEach walk s ids p).1 (walkEach walk s ids p).2 := by
  induction ids with
  | nil => exact fun p => .nil
  | cons id ids ih =>
    intro p
    exact .cons rfl (ih (walk s id p).2)

theorem armsFrom_arms (walk : Walk) (A : List Loop) (s : Scope) (ids : List String)
    (p : Progress) :
    Arms a (returns walk) A s ids p (armsFrom a a.order walk s ids p).1
      (armsFrom a a.order walk s ids p).2.1 (armsFrom a a.order walk s ids p).2.2 := by
  rw [armsFrom]
  split
  · rename_i hnone
    refine .apart (fun hlen => ?_) (walkEach_each walk A s ids p)
    rwa [if_pos hlen] at hnone
  · rename_i m hsome
    split at hsome
    · rename_i htwo
      exact .meet htwo hsome (walkEach_each walk A (s.stopAt [m]) ids p) rfl
    · simp at hsome

theorem behind_behind (walk : Walk) (A : List Loop) (s : Scope) (ids : List String)
    (p : Progress) :
    Behind a (returns walk) A s ids p (behind a a.order walk s ids p).1
      (behind a a.order walk s ids p).2 := by
  have hmem : ∀ x, x ∈ distinct ids ↔ x ∈ ids := fun x => mem_distinct
  have hnodup := nodup_distinct ids
  rw [behind]
  split
  · rename_i hnil
    refine .nothing (List.eq_nil_iff_forall_not_mem.mpr fun x hx => ?_)
    have := (hmem x).mpr hx
    rw [hnil] at this
    simp at this
  · rename_i only hone
    refine .one (fun x => ?_) rfl
    rw [← hmem x, hone, List.mem_singleton]
  · exact .several hnodup hmem (armsFrom_arms walk A s _ p)

theorem Each.length_eq {R : Call} {A : List Loop} {s : Scope} {ids : List String} {p q : Progress}
    {bs : List Block} (h : Each R A s ids p bs q) : bs.length = ids.length := by
  induction h with
  | nil => rfl
  | cons _ _ ih => rw [List.length_cons, List.length_cons, ih]

theorem Arms.length_eq {R : Call} {A : List Loop} {s : Scope} {ids : List String} {p q : Progress}
    {bs : List Block} {next : Block} (h : Arms a R A s ids p bs next q) :
    bs.length = ids.length := by
  cases h with
  | apart none arms => exact arms.length_eq
  | meet _ _ arms _ => exact arms.length_eq

theorem mem_outByTarget {l : Link} {id : String} :
    l ∈ outByTarget a id ↔ l ∈ a.graph.links ∧ l.source = id := by
  rw [outByTarget, mem_sortBy, Graph.mem_outgoing]

theorem mem_outBySlot {l : Link} {id : String} :
    l ∈ outBySlot a id ↔ l ∈ a.graph.links ∧ l.source = id := by
  rw [outBySlot, mem_sortBy, Graph.mem_outgoing]

theorem get?_eq_some (hs : a.Sound) {L : Loop} (hL : L ∈ a.loops.loops) :
    a.loops.get? L.head = some L := by
  have hsome : (a.loops.loops.find? fun l => l.head == L.head).isSome :=
    List.find?_isSome.mpr ⟨L, hL, by simp⟩
  obtain ⟨M, hM⟩ := Option.isSome_iff_exists.mp hsome
  have hhead : M.head = L.head := by simpa using List.find?_some hM
  rw [Loops.get?, hM, hs.head_inj M (List.mem_of_find?_eq_some hM) L hL hhead]

theorem loopAt_round (hs : a.Sound) (walk : Walk) (A : List Loop) (s : Scope) {L : Loop}
    (hL : L ∈ a.loops.loops) (c : FeedbackLoop) (p : Progress) :
    Round a (returns walk) A s L c p (loopAt a a.order walk s L.head c p).1
      (loopAt a a.order walk s L.head c p).2 := by
  rw [loopAt, get?_eq_some hs hL]
  exact .mk rfl (behind_behind walk A s _ _)

/-- A loop entered ahead of its head is planned from its entry, unless it is being planned. -/
theorem loopAhead?_cases (hs : a.Sound) (s : Scope) (id : String) :
    (∃ L ∈ a.loops.loops, ∃ c, L.entry = id ∧ L.head ∉ s.reserved ∧
      loopAhead? a s id = some (L.head, c) ∧ a.config? L.head = some (.feedbackLoop c)) ∨
    loopAhead? a s id = none ∧
      ∀ L ∈ a.loops.loops, L.entry = id → L.head ≠ id → L.head ∈ s.reserved := by
  rw [loopAhead?]
  rcases hfind : a.loops.entered? id with _ | L
  · refine .inr ⟨rfl, fun L hL hentry hne => ?_⟩
    have := List.find?_eq_none.mp hfind L hL
    simp [hentry, hne] at this
  · have hL := List.mem_of_find?_eq_some hfind
    obtain ⟨hentry, hhead⟩ : L.entry = id ∧ L.head ≠ id := by
      simpa using List.find?_some hfind
    obtain ⟨c, hconfig⟩ := hs.head_config L hL
    have hc := hconfig
    rw [Accepted.config?] at hc
    by_cases hmem : L.head ∈ s.reserved
    · refine .inr ⟨by simp [hmem], fun M hM hM' _ => ?_⟩
      rwa [hs.entry_inj M hM L hL (hM'.trans hentry.symm)]
    · exact .inl ⟨L, hL, c, hentry, hmem, by simp [hmem, hc], hconfig⟩

/-- The two links of a condition, whichever of them was drawn first. -/
theorem exists_labelled (hs : a.Sound) {id : String} {c : Condition}
    (hc : a.config? id = some (.condition c)) :
    ∃ t f : Link, (∀ l, l ∈ a.graph.outgoing id ↔ l = t ∨ l = f) ∧
      (t.edge.branch = some true ∧ f.edge.branch = some false) ∧
      (a.graph.outgoing id).find? (fun l => l.edge.branch == some true) = some t ∧
      (a.graph.outgoing id).find? (fun l => l.edge.branch == some false) = some f := by
  obtain ⟨t, f, hout, ⟨ht, hf⟩ | ⟨ht, hf⟩⟩ := hs.condition id c hc
  · exact ⟨t, f, fun l => by rw [hout]; simp, ⟨ht, hf⟩, by simp [hout, ht], by
      simp [hout, ht, hf]⟩
  · exact ⟨f, t, fun l => by rw [hout]; simp [or_comm], ⟨hf, ht⟩, by
      simp [hout, ht, hf], by simp [hout, ht]⟩

/-! ### One call -/

/-- One call of the planner; `walk` answers the calls that it makes. -/
def oneCall (a : Accepted) (order : List String) (walk : Walk) : Walk := fun scope id p =>
  if scope.reserved.contains id then (.done, p)
  else if scope.within.any fun body => !body.contains id then (.done, p.leave id)
  else if p.planned.contains id then (.visited id, p.note (.reachedAgain id))
  else if !isDue a p id then (.done, p.postpone id)
  else
    match loopAhead? a scope id with
    | some (head, config) => loopAt a order walk scope head config (p.mark head)
    | none => blockAt a order walk scope id (p.mark id)

theorem blockFrom_succ (a : Accepted) (order : List String) (depth : Nat) :
    blockFrom a order (depth + 1) = oneCall a order (blockFrom a order depth) := rfl

/-- What a call that plans a node makes of the answers to its calls. -/
inductive Acts (a : Accepted) (s : Scope) (id : String) (p : Progress) :
    (Walk → Block × Progress) → Prop
  | loop {L : Loop} {c : FeedbackLoop} (opens : Opens a s p id) (mem : L ∈ a.loops.loops)
    (entry : L.entry = id) (head : L.head ∉ s.reserved)
    (config : a.config? L.head = some (.feedbackLoop c)) :
    Acts a s id p fun walk => loopAt a a.order walk s L.head c (p.mark L.head)
  | seq (opens : Opens a s p id)
    (plain : ∀ L ∈ a.loops.loops, L.entry = id → L.head ∈ s.reserved)
    (kind : (a.config? id).map Config.kind ∉ [some .condition, some .parallel]) :
    Acts a s id p fun walk =>
      (.seq id (behind a a.order walk s ((outByTarget a id).map Link.target) (p.mark id)).1,
        (behind a a.order walk s ((outByTarget a id).map Link.target) (p.mark id)).2)
  | branch {c : Condition} (opens : Opens a s p id)
    (plain : ∀ L ∈ a.loops.loops, L.entry = id → L.head ∈ s.reserved)
    (kind : a.config? id = some (.condition c)) :
    Acts a s id p fun walk => branchAt a a.order walk s id (p.mark id)
  | fan {c : Parallel} (opens : Opens a s p id)
    (plain : ∀ L ∈ a.loops.loops, L.entry = id → L.head ∈ s.reserved)
    (kind : a.config? id = some (.parallel c)) :
    Acts a s id p fun walk => fanAt a a.order walk s id c.merge (p.mark id)

section OneCall

variable (hs : a.Sound) {s : Scope} {id : String} {p : Progress}
include hs

theorem blockAt_acts (hopens : Opens a s p id)
    (hahead : ∀ L ∈ a.loops.loops, L.entry = id → L.head ≠ id → L.head ∈ s.reserved) :
    Acts a s id p fun walk => blockAt a a.order walk s id (p.mark id) := by
  -- a node that heads no loop entered at it is planned like any other
  have hplain : (∀ L ∈ a.loops.loops, L.head = id → L.entry ≠ id) →
      ∀ L ∈ a.loops.loops, L.entry = id → L.head ∈ s.reserved := by
    intro hnone L hL hentry
    exact hahead L hL hentry fun h => hnone L hL h hentry
  have hother : (∀ c, a.config? id ≠ some (.feedbackLoop c)) →
      ∀ L ∈ a.loops.loops, L.entry = id → L.head ∈ s.reserved := by
    refine fun hnone => hplain ?_
    rintro L hL rfl
    obtain ⟨c, hc⟩ := hs.head_config L hL
    exact absurd hc (hnone c)
  simp only [blockAt]
  rcases hconfig : (a.node? id).map Node.config with _ | config
  · exact .seq hopens (hother fun c hc => absurd (hconfig.symm.trans hc) (by simp))
      (by simp [Accepted.config?, hconfig])
  · have hc : a.config? id = some config := hconfig
    cases config with
    | condition c => exact .branch hopens (hother fun d hd => by simp [hc] at hd) hc
    | parallel c => exact .fan hopens (hother fun d hd => by simp [hc] at hd) hc
    | feedbackLoop c =>
      obtain ⟨L, hL, rfl⟩ := hs.head_of_config id c hc
      rw [get?_eq_some hs hL]
      by_cases hentry : L.entry = L.head
      · simp only [hentry, Option.any_some, beq_self_eq_true, if_true]
        exact .loop hopens hL hentry hopens.free hc
      · simp only [Option.any_some, beq_iff_eq, hentry, if_false]
        refine .seq hopens (hplain fun M hM h => ?_) (by simp [hc, Config.kind])
        rwa [hs.head_inj M hM L hL h]
    | trigger c | agent c | toolCall c | retrieval c | team c =>
      exact .seq hopens (hother fun d hd => by simp [hc] at hd) (by simp [hc, Config.kind])

/-- A call returns a block that runs no node without making calls, or it plans a node. -/
theorem oneCall_cases (s : Scope) (id : String) (p : Progress) :
    (∃ b q, b.owner? = none ∧ (∀ walk, oneCall a a.order walk s id p = (b, q)) ∧
      ∀ R A, Step a R A s id p b q) ∨
    Acts a s id p fun walk => oneCall a a.order walk s id p := by
  -- the planner asks four questions about the node before it plans it
  by_cases hfree : id ∈ s.reserved
  · exact .inl ⟨.done, p, rfl, fun walk => if_pos (List.contains_iff_mem.mpr hfree),
      fun R A => .reserved hfree⟩
  by_cases hwithin : s.Within id
  swap
  · refine .inl ⟨.done, p.leave id, rfl, fun walk => ?_, fun R A => .outside hfree hwithin⟩
    simp only [oneCall, List.contains_iff_mem, hfree, within_any_iff.mpr hwithin, if_true, if_false]
  have hinside : (s.within.any fun body => !body.contains id) = false :=
    Bool.eq_false_iff.mpr (mt within_any_iff.mp (not_not.mpr hwithin))
  by_cases hfresh : id ∈ p.planned
  · refine .inl ⟨.visited id, _, rfl, fun walk => ?_, fun R A => .again hfree hwithin hfresh⟩
    simp only [oneCall, List.contains_iff_mem, hfree, hinside, hfresh, Bool.false_eq_true, if_true,
      if_false]
  by_cases hdue : Due a p id
  swap
  · refine .inl ⟨.done, _, rfl, fun walk => ?_, fun R A => .early hfree hwithin hfresh hdue⟩
    have hwait : isDue a p id = false := Bool.eq_false_iff.mpr (mt isDue_iff.mp hdue)
    simp only [oneCall, List.contains_iff_mem, hfree, hinside, hfresh, hwait, Bool.not_false,
      Bool.false_eq_true, if_true, if_false]
  have hopens : Opens a s p id := ⟨hfree, hwithin, hfresh, hdue⟩
  simp only [oneCall, List.contains_iff_mem, hfree, hinside, hfresh, isDue_iff.mpr hdue,
    Bool.not_true, Bool.false_eq_true, if_false]
  rcases loopAhead?_cases hs s id with
    ⟨L, hL, c, hentry, hhead, hahead, hconfig⟩ | ⟨hnone, hahead⟩
  · rw [hahead]
    exact .inr (.loop hopens hL hentry hhead hconfig)
  · rw [hnone]
    exact .inr (blockAt_acts hs hopens hahead)

theorem Acts.step {f : Walk → Block × Progress} (h : Acts a s id p f) (walk : Walk)
    (A : List Loop) : Step a (returns walk) A s id p (f walk).1 (f walk).2 := by
  cases h with
  | loop opens mem entry head config =>
    exact .loop opens mem entry head (loopAt_round hs walk A s mem _ _) config
  | seq opens plain kind => exact .seq opens plain (behind_behind walk A s _ _) kind
  | branch opens plain kind =>
    obtain ⟨t, f, hlinks, hlabels, htrue, hfalse⟩ := exists_labelled hs kind
    have harms := armsFrom_arms (a := a) walk A s [t.target, f.target] (p.mark id)
    simp only [branchAt, htrue, hfalse, Option.map_some]
    obtain ⟨onTrue, onFalse, hbs⟩ := List.length_eq_two.mp harms.length_eq
    rcases hrun : armsFrom a a.order walk s [t.target, f.target] (p.mark id) with ⟨bs, next, q⟩
    rw [hrun] at harms hbs
    obtain rfl : bs = [onTrue, onFalse] := hbs
    exact .branch opens plain kind hlinks hlabels harms
  | fan opens plain kind =>
    exact .fan opens plain kind (walkEach_each walk A _ _ _) (behind_behind walk A s _ _)

end OneCall

/-- Every call with some depth left is a step over the calls it makes. -/
theorem blockFrom_step (hs : a.Sound) (depth : Nat) (A : List Loop) (s : Scope) (id : String)
    (p : Progress) :
    Step a (returns (blockFrom a a.order depth)) A s id p
      (blockFrom a a.order (depth + 1) s id p).1 (blockFrom a a.order (depth + 1) s id p).2 := by
  rw [blockFrom_succ]
  rcases oneCall_cases hs s id p with ⟨b, q, -, hanswer, hstep⟩ | hacts
  · rw [hanswer]
    exact hstep _ A
  · exact hacts.step hs (blockFrom a a.order depth) A

end Plan

end Flowscript
