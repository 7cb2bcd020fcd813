/-
Loops as blocks.

The planner opens a loop at its entry and closes it when the round has come to an end.  Whatever is
planned of a loop is planned in between, and nothing else is:

* `repeats_of_has` — a planned node of a loop is run by the block of that loop, and so is the entry;
* `owned_subset_body` — a block repeats only the body of its loop;
* `loop_of_owner` — a feedback loop is run by no other kind of block, and as it is configured.
-/
import Flowscript.Proofs.Plan.Part
import Flowscript.Proofs.Plan.Coverage

namespace Flowscript

namespace Block

/-- The node is in the body of a loop with the given head. -/
def Encloses (b : Block) (head v : String) : Prop :=
  ∃ body maxIterations stopCondition next,
    .loop head body maxIterations stopCondition next ∈ b.parts ∧ v ∈ body.owned

/-- A block of the loop runs the node and the entry of the loop. -/
def Repeats (b : Block) (L : Loop) (v : String) : Prop :=
  ∃ body maxIterations stopCondition next,
    .loop L.head body maxIterations stopCondition next ∈ b.parts ∧
      v ∈ L.head :: body.owned ∧ L.entry ∈ L.head :: body.owned

theorem Repeats.of_child {b d : Block} {L : Loop} {v : String} (hd : d ∈ b.children)
    (h : d.Repeats L v) : b.Repeats L v := by
  obtain ⟨body, maxIterations, stopCondition, next, hpart, hv, hentry⟩ := h
  exact ⟨body, maxIterations, stopCondition, next, mem_parts_iff.mpr (.inr ⟨d, hd, hpart⟩), hv,
    hentry⟩

theorem Repeats.entry_mem {b : Block} {L : Loop} {v : String} (h : b.Repeats L v) :
    L.entry ∈ b.owned := by
  obtain ⟨body, maxIterations, stopCondition, next, hpart, -, hentry⟩ := h
  refine (part_sublist b hpart).subset ?_
  rw [owned, ← List.cons_append]
  exact List.mem_append_left _ hentry

end Block

namespace Plan

variable {a : Accepted} {A : List Loop} {s : Scope} {p q : Progress} {id : String}

/-- What a block owns of the loops that are not being planned is in blocks of these loops. -/
def Whole (a : Accepted) (A : List Loop) (b : Block) : Prop :=
  ∀ v ∈ b.owned, ∀ L ∈ a.loops.loops, L ∉ A → L.Has v → b.Repeats L v

theorem whole_of_children {b : Block} (howner : ∀ v, b.owner? = some v →
    ∀ L ∈ a.loops.loops, L.Has v → L ∈ A) (h : ∀ d ∈ b.children, Whole a A d) : Whole a A b := by
  intro v hv L hL hA hhas
  rcases Block.mem_owned_iff.mp hv with hv | ⟨d, hd, hv⟩
  · exact absurd (howner v hv L hL hhas) hA
  · exact .of_child hd (h d hd v hv L hL hA hhas)

theorem whole_fork {bs : List Block} {next : Block} (hbs : ∀ b ∈ bs, Whole a A b)
    (hnext : Whole a A next) : Whole a A (.fork bs next) := by
  refine whole_of_children (by simp [Block.owner?]) fun d hd => ?_
  rcases List.mem_append.mp hd with hd | hd
  · exact hbs d hd
  · exact List.mem_singleton.mp hd ▸ hnext

theorem whole_done : Whole a A .done := by simp [Whole, Block.owned]

/-- The round of a loop runs its entry. -/
theorem Starts.entry_mem (hs : a.Sound) {L : Loop} (h : Starts a A s p L) {body : Block}
    (hend : Ended a (L :: A) (s.inside L) L.bodyEntry { p.mark L.head with outside := [] } body q) :
    L.entry ∈ L.head :: body.owned := by
  rcases hend.grown.mem_planned.mp (h.entry_planned hs hend) with hbody | hold
  · exact List.mem_cons_of_mem _ hbody
  · rcases List.mem_cons.mp hold with heq | hold
    · exact List.mem_cons.mpr (.inl heq)
    · exact absurd hold h.opens.fresh

theorem Round.whole (hs : a.Sound) {L : Loop} {c : FeedbackLoop} {b : Block}
    (hstart : Starts a A s p L)
    (h : Round a (Keeps a fun A _ _ _ b _ => Whole a A b) A s L c (p.mark L.head) b q) :
    Whole a A b := by
  cases h with
  | @mk body r next q round behind =>
    obtain ⟨-, hend, hbody⟩ := round
    have hnext : Whole a A next :=
      behind.made whole_done (fun _ _ => whole_fork) fun _ _ _ _ _ hcall => hcall.2.2
    intro v hv M hM hA hhas
    rw [Block.owned, ← List.cons_append, List.mem_append] at hv
    rcases hv with hv | hv
    · by_cases hML : M = L
      · subst hML
        exact ⟨body, _, _, next, Block.mem_parts_self _, hv, hstart.entry_mem hs hend⟩
      · have hA' : M ∉ L :: A := fun hmem => (List.mem_cons.mp hmem).elim hML hA
        rcases List.mem_cons.mp hv with rfl | hv
        · exact absurd (hstart.active hs M hM hhas) hA'
        · exact .of_child (by simp [Block.children]) (hbody v hv M hM hA' hhas)
    · exact .of_child (by simp [Block.children]) (hnext v hv M hM hA hhas)

theorem Step.whole (hs : a.Sound) {b : Block} (hready : Ready a A s id p)
    (h : Step a (Keeps a fun A _ _ _ b _ => Whole a A b) A s id p b q) : Whole a A b := by
  rcases h.shape hready with ⟨hnone, hleaf⟩ | ⟨hplain, howner, hmade⟩ | ⟨L, c, hstart, -, -, hround⟩
  · exact whole_of_children (by simp [hnone]) (by simp [hleaf])
  · refine whole_of_children (fun v hv => ?_) ?_
    · obtain rfl := Option.some.inj (howner.symm.trans hv)
      exact hplain.active
    · exact hmade _ whole_done (fun _ _ => whole_fork) fun _ _ _ _ _ hcall => hcall.2.2
  · exact hround.whole hs hstart

/-- A planned node of a loop is run by the block of the loop. -/
theorem repeats_of_has (hs : a.Sound) {L : Loop} (hL : L ∈ a.loops.loops) {v : String}
    (hv : v ∈ a.plan.block.owned) (hhas : L.Has v) : a.plan.block.Repeats L v := by
  obtain ⟨t, q, -, -, hwhole, -⟩ := plan_rule hs (fun A _ _ _ b _ => Whole a A b)
    fun A s id p b q hready _ hstep => hstep.whole hs hready
  exact hwhole v hv L hL (by simp) hhas

/-- A loop of the plan is a loop of the workflow, and repeats only what is in its body. -/
theorem owned_subset_body (hs : a.Sound) {node stopCondition : String} {body next : Block}
    {maxIterations : Nat}
    (h : .loop node body maxIterations stopCondition next ∈ a.plan.block.parts) :
    ∃ L ∈ a.loops.loops, L.head = node ∧ body.owned ⊆ L.body := by
  refine plan_parts hs (fun _ _ _ _ _ _ => True) (fun b => ∀ node body maxIterations stopCondition
    next, b = .loop node body maxIterations stopCondition next →
      ∃ L ∈ a.loops.loops, L.head = node ∧ body.owned ⊆ L.body)
    (fun _ _ _ _ _ _ _ _ _ => trivial) ?_ (by simp) (by simp) _ h _ _ _ _ _ rfl
  rintro A s id p b q hready - hstep node body maxIterations stopCondition next rfl
  cases hstep with
  | @loop L c b q opens mem entry head round config =>
    cases round with
    | mk round behind =>
      exact ⟨L, mem, rfl, fun v hv => round.2.1.grown.within v hv L.body rfl⟩

/-- A feedback loop is run by a loop, with its own limit and condition. -/
theorem loop_of_owner (hs : a.Sound) {b : Block} (hb : b ∈ a.plan.block.parts)
    (howner : b.owner? = some id) {c : FeedbackLoop} (hc : a.config? id = some (.feedbackLoop c)) :
    ∃ body next, b = .loop id body c.maxIterations c.stopCondition next := by
  refine plan_parts hs (fun _ _ _ _ _ _ => True) (fun b => ∀ id c, b.owner? = some id →
    a.config? id = some (.feedbackLoop c) →
      ∃ body next, b = .loop id body c.maxIterations c.stopCondition next)
    (fun _ _ _ _ _ _ _ _ _ => trivial) ?_ (by simp [Block.owner?]) (by simp [Block.owner?])
    b hb id c howner hc
  intro A s id p b q hready _ hstep v c hv hc
  rcases hstep.shape hready with ⟨hnone, -⟩ | ⟨hplain, howner, -⟩ | ⟨L, c', hstart, -, hconfig, hround⟩
  · simp [hnone] at hv
  · -- a node inside the loop that it is the head of is reserved
    obtain rfl := Option.some.inj (howner.symm.trans hv)
    obtain ⟨L, hL, rfl⟩ := hs.head_of_config _ c hc
    have hA := hplain.active L hL (.inl rfl)
    exact absurd (hready.scope.active L hA).2 hplain.opens.free
  · cases hround with
    | @mk body _ next _ _ _ =>
      obtain rfl : L.head = v := Option.some.inj hv
      obtain rfl : c' = c := by simpa using hconfig.symm.trans hc
      exact ⟨body, next, rfl⟩

end Plan

/-- In the plan of an accepted workflow the loop of a head has in its body exactly the planned nodes
of the body of that loop.  A feedback loop that is planned is run by such a loop, with its own limit
and condition, and by no other block. -/
theorem encloses_iff_mem_body {w : Workflow} {a : Accepted} (h : check w = .ok a) :
    (∀ v ∈ a.plan.block.owned, ∀ head, a.plan.block.Encloses head v ↔
      ∃ L, a.loops.get? head = some L ∧ v ∈ L.body) ∧
    ∀ id ∈ a.plan.block.owned, ∀ c, a.config? id = some (.feedbackLoop c) →
      (∃ body next,
        .loop id body c.maxIterations c.stopCondition next ∈ a.plan.block.parts) ∧
      ∀ b ∈ a.plan.block.parts, b.owner? = some id →
        ∃ body next, b = .loop id body c.maxIterations c.stopCondition next := by
  have hs := Check.sound_of_check h
  refine ⟨fun v hv head => ⟨?_, ?_⟩, fun id hid c hc => ⟨?_, ?_⟩⟩
  · rintro ⟨body, maxIterations, stopCondition, next, hpart, hmem⟩
    obtain ⟨L, hL, rfl, hbody⟩ := Plan.owned_subset_body hs hpart
    exact ⟨L, Plan.get?_eq_some hs hL, hbody hmem⟩
  · rintro ⟨L, hget, hbody⟩
    have hL := List.mem_of_find?_eq_some hget
    obtain rfl : L.head = head := by simpa using List.find?_some hget
    obtain ⟨body, maxIterations, stopCondition, next, hpart, hmem, -⟩ :=
      Plan.repeats_of_has hs hL hv (.inr hbody)
    refine ⟨body, maxIterations, stopCondition, next, hpart, ?_⟩
    refine (List.mem_cons.mp hmem).resolve_left fun hhead => hs.head_notMem L hL (hhead ▸ hbody)
  · obtain ⟨b, hb, howner⟩ := Block.exists_owner _ hid
    obtain ⟨body, next, rfl⟩ := Plan.loop_of_owner hs hb howner hc
    exact ⟨body, next, hb⟩
  · exact fun b hb howner => Plan.loop_of_owner hs hb howner hc

/-- The refinement of a draft is a loop inside the one that writes the draft anew. -/
theorem encloses_reviewFlow : ∃ a, check (reviewFlow ["redo"]) = .ok a ∧
    a.plan.block.owned = ["start", "accept", "draft", "refine", "polish", "split", "check"] ∧
    (∀ v ∈ a.plan.block.owned, a.plan.block.Encloses "refine" v ↔ v ∈ ["polish"]) ∧
    (∀ v ∈ a.plan.block.owned, a.plan.block.Encloses "accept" v ↔
      v ∈ ["check", "draft", "polish", "refine", "split"]) ∧
    ∃ body next, .loop "accept" body 3 "good" next ∈ a.plan.block.parts := by
  obtain ⟨a, ha, howned, hrefine, haccept⟩ : ∃ a, check (reviewFlow ["redo"]) = .ok a ∧
      a.plan.block.owned = ["start", "accept", "draft", "refine", "polish", "split", "check"] ∧
      (a.loops.get? "refine").map Loop.body = some ["polish"] ∧
      (a.loops.get? "accept").map Loop.body = some ["check", "draft", "polish", "refine", "split"] :=
    exists_check_ok (by decide +kernel)
  obtain ⟨hloops, hheads⟩ := encloses_iff_mem_body ha
  have hbody : ∀ {head body}, (a.loops.get? head).map Loop.body = some body →
      ∀ v ∈ a.plan.block.owned, a.plan.block.Encloses head v ↔ v ∈ body := by
    intro head body hget v hv
    obtain ⟨L, hL, rfl⟩ := Option.map_eq_some_iff.mp hget
    rw [hloops v hv, hL]
    simp
  have hconfig : a.config? "accept" =
      some (.feedbackLoop { maxIterations := 3, stopCondition := "good" }) := by
    rw [Accepted.config?, Accepted.node?, (check_ok ha).1]
    rfl
  refine ⟨a, ha, howned, hbody hrefine, hbody haccept, ?_⟩
  exact (hheads "accept" (by simp [howned]) _ hconfig).1

end Flowscript
