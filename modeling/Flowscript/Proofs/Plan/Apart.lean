/-
Arms that run at the same time are independent.

What two arms of a parallel node lead to is reserved while the arms are planned.  This looks only at
ways past no node that is reserved further out, so that a way from one arm to another might still
pass through such a node.  It cannot: whatever leads to a planned node is planned, or belongs to a
loop whose entry is (`mem_or_entry_of_forward`), and a node that is planned inside the arms was not
reserved.

* `not_forward_of_arms` — no forward links lead from one arm to another;
* `plan_separate` — all parallel nodes of a plan;
* `concurrent_apart` — the same for the workflows that are accepted.
-/
import Flowscript.Proofs.Plan.Enclosed
import Flowscript.Proofs.Plan.Traced

open Relation

namespace Flowscript

/-- The blocks that are run at the same time. -/
def Block.concurrent : Block → List Block
  | .fan _ arms _ _ => arms.map Prod.snd
  | _ => []

namespace Plan

variable {a : Accepted} {A : List Loop} {s : Scope} {p q r : Progress} {id : String}

/-! ### What leads to a planned node -/

section Sound

variable (hs : a.Sound)
include hs

theorem Scope.Fits.mem_body (hscope : s.Fits a A) {v : String} (hv : s.Within v) :
    ∀ L ∈ A, v ∈ L.body := by
  intro L hL
  obtain ⟨N, rest, rfl⟩ := List.exists_cons_of_ne_nil (List.ne_nil_of_mem hL)
  have hbody : v ∈ N.body := hv N.body hscope.within
  rcases List.mem_cons.mp hL with rfl | hrest
  · exact hbody
  · obtain ⟨hne, hentry⟩ := (List.pairwise_cons.mp hscope.nested).1 L hrest
    exact hs.inside L (hscope.active L hL).1 N (hscope.active N List.mem_cons_self).1 hne.symm
      hentry v (.inr hbody)

/-- What leads to a planned node is planned, or in a loop that is not being planned and has its entry
planned. -/
theorem mem_or_entry_of_forward (hp : p.Fits a A) {v x : String}
    (hv : v ∈ p.planned) (hbody : ∀ L ∈ A, v ∈ L.body) (h : ReflTransGen a.Forward x v) :
    x ∈ p.planned ∨ ∃ L ∈ a.loops.loops, L ∉ A ∧ L.Has x ∧ L.entry ∈ p.planned := by
  induction h using ReflTransGen.head_induction_on with
  | refl => exact .inl hv
  | @head x y hxy hyv ih =>
    obtain ⟨l, hl, hback, rfl, rfl⟩ := hxy
    -- the planned node at the end of the link was due, or it is the head of a loop entered elsewhere
    have hplanned : l.target ∈ p.planned → l.source ∈ p.planned ∨
        ∃ L ∈ a.loops.loops, L ∉ A ∧ L.Has l.source ∧ L.entry ∈ p.planned := by
      intro hmem
      obtain ⟨newer, older, hsplit⟩ := List.append_of_mem hmem
      rcases (hp.sorted _ older ⟨newer, hsplit.symm⟩).1 with hdue | ⟨L, hL, hhead, hentry⟩
      · refine .inl ?_
        rw [hsplit]
        exact List.mem_append_right _
          (List.mem_cons_of_mem _ (hdue _ ⟨l, hl, hback, rfl, rfl⟩))
      · have hLA : L ∉ A := fun h =>
          head_not_forward hs hL (fun heq => hentry (heq.symm.trans hhead)) (hbody L h)
            (hhead ▸ hyv)
        refine .inr ⟨L, hL, hLA, ?_, hp.started L hL hLA _ hmem (.inl hhead.symm)⟩
        by_contra hnot
        exact hentry (hs.enters L hL l hl (.inl hhead.symm) hnot).symm
    rcases ih with hmem | ⟨L, hL, hLA, hhas, hentry⟩
    · exact hplanned hmem
    · by_cases hsource : L.Has l.source
      · exact .inr ⟨L, hL, hLA, hsource, hentry⟩
      · exact hplanned (hs.enters L hL l hl hhas hsource ▸ hentry)

end Sound

theorem led_of_free {x y : String} (h : ReflTransGen a.Forward x y)
    (hfree : ∀ z, ReflTransGen a.Forward x z → ReflTransGen a.Forward z y → z ∉ s.reserved) :
    Led a s x y := by
  have hway : ∀ z, ReflTransGen a.Forward z y → ReflTransGen a.Forward x z → Led a s z y := by
    intro z hzy
    induction hzy using ReflTransGen.head_induction_on with
    | refl => exact fun _ => .refl
    | @head z w hzw hwy ih =>
      intro hxz
      exact .head ⟨hfree z hxz (.head hzw hwy), hzw⟩ (ih (hxz.tail hzw))
  exact hway x h .refl

/-! ### Arms of a parallel node -/

/-- What is known of an arm that was called at `t`, when `q` is the progress behind all arms. -/
structure Arm (a : Accepted) (A : List Loop) (s : Scope) (p q : Progress) (t : String) (b : Block) :
    Prop where
  led : ∀ v ∈ b.owned, Led a s t v
  within : ∀ v ∈ b.owned, s.Within v
  free : ∀ v ∈ b.owned, v ∉ s.reserved
  fresh : ∀ v ∈ b.owned, v ∉ p.planned
  planned : ∀ v ∈ b.owned, v ∈ q.planned
  whole : Whole a A b

/-- A call plans what its node leads to, and loops as a whole. -/
def Rooted (a : Accepted) : Call := fun A s id p b q => Traced a A s id p b q ∧ Whole a A b

theorem Arm.mono {p' q' : Progress} (hp : p'.planned ⊆ p.planned) (hq : q.planned ⊆ q'.planned)
    {t : String} {b : Block} (h : Arm a A s p q t b) : Arm a A s p' q' t b :=
  { h with
    fresh := fun v hv hold => h.fresh v hv (hp hold)
    planned := fun v hv => hq (h.planned v hv) }

theorem Keeps.arm {t : String} {b : Block} (h : Keeps a (Rooted a) A s t p b q) :
    Arm a A s p q t b := by
  obtain ⟨-, hend, htraced, hwhole⟩ := h
  exact ⟨fun v hv => (htraced.1 v hv).2, hend.grown.within, hend.grown.free,
    fun v hv => hend.grown.fresh hv, fun v hv => hend.grown.mem_planned.mpr (.inl hv), hwhole⟩

theorem Each.arm_of_mem {ids : List String} {bs : List Block}
    (h : Each (Keeps a (Rooted a)) A s ids p bs q) (hp : p.Fits a A) :
    ∀ b ∈ bs, ∃ t ∈ ids, Arm a A s p q t b := by
  induction h with
  | nil => simp
  | @cons id ids p b mid bs q head tail ih =>
    have hfirst := head.2.1.grown
    have hrest := tail.grown hfirst.fits
    refine List.forall_mem_cons.mpr ⟨⟨id, List.mem_cons_self, ?_⟩, fun c hc => ?_⟩
    · exact head.arm.mono (List.Subset.refl _) hrest.planned_subset
    · obtain ⟨t, ht, harm⟩ := ih hfirst.fits c hc
      exact ⟨t, List.mem_cons_of_mem _ ht, harm.mono hfirst.planned_subset (List.Subset.refl _)⟩

/-- What the arm leads to inside the loops being planned was not planned before it. -/
theorem Arm.fresh_of_forward (hs : a.Sound) (hp : p.Fits a A) {t : String} {b : Block}
    (h : Arm a A s p q t b) {x z : String} (hx : x ∈ b.owned) (hz : ∀ L ∈ A, z ∈ L.body)
    (hway : ReflTransGen a.Forward x z) : z ∉ p.planned := by
  intro hold
  rcases mem_or_entry_of_forward hs hp hold hz hway with hold | ⟨L, hL, hA, hhas, hentry⟩
  · exact h.fresh x hx hold
  · exact h.fresh _ (h.whole x hx L hL hA hhas).entry_mem hentry

/-- Different arms were called at different places of the list. -/
theorem Each.arms {ids : List String} {bs : List Block}
    (h : Each (Keeps a (Rooted a)) A s ids p bs q) (hp : p.Fits a A) :
    bs.Pairwise fun b c => ∃ t u, [t, u].Sublist ids ∧ Arm a A s p q t b ∧ Arm a A s p q u c := by
  induction h with
  | nil => exact .nil
  | @cons id ids p b mid bs q head tail ih =>
    have hfirst := head.2.1.grown
    have hrest := tail.grown hfirst.fits
    refine .cons (fun c hc => ?_) ((ih hfirst.fits).imp ?_)
    · obtain ⟨u, hu, harm⟩ := tail.arm_of_mem hfirst.fits c hc
      exact ⟨id, u, (List.singleton_sublist.mpr hu).cons_cons _,
        head.arm.mono (List.Subset.refl _) hrest.planned_subset,
        harm.mono hfirst.planned_subset (List.Subset.refl _)⟩
    · rintro b c ⟨t, u, hsub, hb, hc⟩
      exact ⟨t, u, hsub.cons _, hb.mono hfirst.planned_subset (List.Subset.refl _),
        hc.mono hfirst.planned_subset (List.Subset.refl _)⟩

theorem mem_shared_of_arms (hs : a.Sound) {t u y : String}
    (hsub : [t, u].Sublist ((outBySlot a id).map Link.target)) (hy : y ∈ a.graph.ids)
    (hfree : y ∉ s.reserved) (ht : Led a s t y) (hu : Led a s u y) : y ∈ shared a s id := by
  refine (mem_shared hs).mpr ⟨hy, hfree, Nat.lt_of_lt_of_le ?_ hsub.countP_le⟩
  simp [mem_forwardReach.mpr ht, mem_forwardReach.mpr hu]

/-- No forward links lead from one arm of a parallel node to another. -/
theorem not_forward_of_arms (hs : a.Sound) (hplain : Plain a A s p id) {new : List String}
    (hgrown : Grown a A (s.stopAt (shared a s id)) (p.mark id) new q) {t u : String} {b c : Block}
    (hb : Arm a A (s.stopAt (shared a s id)) (p.mark id) q t b)
    (hc : Arm a A (s.stopAt (shared a s id)) (p.mark id) q u c)
    (hshared : ∀ y ∈ a.graph.ids, y ∉ s.reserved → Led a s t y → Led a s u y → y ∈ shared a s id)
    {x y : String} (hx : x ∈ b.owned) (hy : y ∈ c.owned) : ¬ReflTransGen a.Forward x y := by
  intro hway
  have hscope := hplain.ready.scope
  have hstop : ∀ {v}, v ∈ s.reserved → v ∈ (s.stopAt (shared a s id)).reserved :=
    fun hv => List.mem_append_left _ hv
  have hbody : ∀ z, ReflTransGen a.Forward x z → ReflTransGen a.Forward z y →
      ∀ L ∈ A, z ∈ L.body := fun z hxz hzy L hL =>
    body_between hs (hscope.active L hL).1 (hscope.mem_body hs (hb.within x hx) L hL)
      (hscope.mem_body hs (hc.within y hy) L hL) hxz hzy
  have hnew : ∀ z, ReflTransGen a.Forward x z → ReflTransGen a.Forward z y → z ∈ q.planned →
      z ∉ s.reserved := by
    intro z hxz hzy hz hres
    rcases hgrown.mem_planned.mp hz with hz | hz
    · exact hgrown.free z hz (hstop hres)
    · exact hb.fresh_of_forward hs hplain.mark_fits hx (hbody z hxz hzy) hxz hz
  have hfree : ∀ z, ReflTransGen a.Forward x z → ReflTransGen a.Forward z y → z ∉ s.reserved := by
    intro z hxz hzy hres
    rcases mem_or_entry_of_forward hs hgrown.fits (hc.planned y hy)
      (hbody y hway .refl) hzy with hz | ⟨L, hL, hA, hhas, hentry⟩
    · exact hnew z hxz hzy hz hres
    · -- a loop that has a reserved node has its entry reserved, too
      have hres := hscope.closed L hL hA z hres hhas
      by_cases hxL : L.Has x
      · exact hb.free _ (hb.whole x hx L hL hA hxL).entry_mem (hstop hres)
      · obtain ⟨hxe, hez⟩ := leads_entry hs hL (fun h => absurd h hxL) hhas (led_of_forward hxz)
        exact hnew L.entry (forward_of_leads hxe) ((forward_of_leads hez).trans hzy) hentry hres
  have hled : Led a s t y := ((hb.led x hx).mono (List.subset_append_left _ _)).trans
    (led_of_free hway hfree)
  refine hc.free y hy (List.mem_append_right _ (hshared y ?_ (hfree y hway .refl) hled
    ((hc.led y hy).mono (List.subset_append_left _ _))))
  exact hgrown.fits.mem y (hc.planned y hy)

/-- The arms of a parallel node: no forward links lead from one to another, a loop with the node has
all of them, and any other loop that has a node of an arm has its entry in the same arm. -/
structure Separate (a : Accepted) (node : String) (arms : List Block) : Prop where
  apart : arms.Pairwise fun b c => ∀ u ∈ b.owned, ∀ v ∈ c.owned,
    ¬ReflTransGen a.Forward u v ∧ ¬ReflTransGen a.Forward v u
  inside : ∀ b ∈ arms, ∀ v ∈ b.owned, ∀ L ∈ a.loops.loops, L.Has node → L.Has v
  whole : ∀ b ∈ arms, ∀ v ∈ b.owned, ∀ L ∈ a.loops.loops, ¬L.Has node → L.Has v →
    L.entry ∈ b.owned

theorem Step.rooted (hs : a.Sound) {b : Block} (hready : Ready a A s id p)
    (h : Step a (Keeps a (Rooted a)) A s id p b q) : Rooted a A s id p b q := by
  refine ⟨(h.mono ?_).traced hs hready, (h.mono ?_).whole hs hready⟩
  · exact fun _ _ _ _ _ _ hcall => ⟨hcall.1, hcall.2.1, hcall.2.2.1⟩
  · exact fun _ _ _ _ _ _ hcall => ⟨hcall.1, hcall.2.1, hcall.2.2.2⟩

theorem Each.separate (hs : a.Sound) (hplain : Plain a A s p id) {bs : List Block}
    (h : Each (Keeps a (Rooted a)) A (s.stopAt (shared a s id)) ((outBySlot a id).map Link.target)
      (p.mark id) bs q) : Separate a id bs := by
  have hscope := hplain.ready.scope
  have hgrown := h.grown hplain.mark_fits
  refine ⟨(h.arms hplain.mark_fits).imp ?_, fun b hb v hv L hL hhas => ?_,
    fun b hb v hv L hL hnode hhas => ?_⟩
  · rintro b c ⟨t, u, hsub, hb, hc⟩ x hx y hy
    exact ⟨not_forward_of_arms hs hplain hgrown hb hc
        (fun z hz hfree ht hu => mem_shared_of_arms hs hsub hz hfree ht hu) hx hy,
      not_forward_of_arms hs hplain hgrown hc hb
        (fun z hz hfree hu ht => mem_shared_of_arms hs hsub hz hfree ht hu) hy hx⟩
  · obtain ⟨t, -, harm⟩ := h.arm_of_mem hplain.mark_fits b hb
    exact .inr (hscope.mem_body hs (harm.within v hv) L (hplain.active L hL hhas))
  · obtain ⟨t, -, harm⟩ := h.arm_of_mem hplain.mark_fits b hb
    refine (harm.whole v hv L hL (fun hA => hnode (.inr ?_)) hhas).entry_mem
    exact hscope.mem_body hs hplain.opens.within L hA

theorem plan_separate (hs : a.Sound) {node : String} {arms : List (String × Block)} {merge : Merge}
    {next : Block} (h : .fan node arms merge next ∈ a.plan.block.parts) :
    Separate a node (arms.map Prod.snd) := by
  refine plan_parts hs (Rooted a) (fun b => ∀ node arms merge next,
    b = .fan node arms merge next → Separate a node (arms.map Prod.snd))
    (fun _ _ _ _ _ _ hready _ hstep => hstep.rooted hs hready) ?_ (by simp) (by simp) _ h _ _ _ _ rfl
  rintro A s id p b q hready - hstep node arms merge next rfl
  cases hstep with
  | loop opens mem entry head round => cases round
  | @fan c bs mid next r opens plain kind arms behind =>
    rw [map_snd_slots (by simpa using arms.length_eq)]
    exact arms.separate hs ⟨hready, opens, plain⟩

end Plan

/-- In the plan of an accepted workflow two blocks that are run at the same time own no common node,
and no forward links lead from a node of the one to a node of the other. -/
theorem concurrent_apart {w : Workflow} {a : Accepted} (h : check w = .ok a) :
    ∀ c ∈ a.plan.block.parts, c.concurrent.Pairwise fun b d => ∀ u ∈ b.owned, ∀ v ∈ d.owned,
      u ≠ v ∧ ¬ReflTransGen a.Forward u v ∧ ¬ReflTransGen a.Forward v u := by
  intro c hc
  cases c with
  | fan node arms merge next =>
    refine (Plan.plan_separate (Check.sound_of_check h) hc).apart.imp fun hapart u hu v hv => ?_
    exact ⟨fun heq => (hapart u hu v hv).1 (heq ▸ .refl), hapart u hu v hv⟩
  | _ => exact .nil

/-- An article is improved until it is good: in each round facts and style are checked at the same
time. -/
def editFlow : Workflow where
  nodes :=
    [ { id := "start", config := .trigger {} },
      { id := "improve", config := .feedbackLoop { maxIterations := 3, stopCondition := "good" } },
      { id := "split", config := .parallel {} },
      { id := "facts", config := .agent { prompt := "facts" } },
      { id := "style", config := .agent { prompt := "style" } },
      { id := "merge", config := .agent { prompt := "merge" } },
      { id := "publish", config := .agent { prompt := "publish" } } ]
  edges :=
    [ { id := "e1", source := "start", target := "improve" },
      { id := "e2", source := "improve", target := "split" },
      { id := "e3", source := "split", target := "facts", slot := some "facts" },
      { id := "e4", source := "split", target := "style", slot := some "style" },
      { id := "e5", source := "facts", target := "merge" },
      { id := "e6", source := "style", target := "merge" },
      { id := "e7", source := "merge", target := "improve" },
      { id := "e8", source := "improve", target := "publish" } ]

/-- The two checks are run at the same time, and neither leads to the other within a round. -/
theorem concurrent_apart_editFlow : ∃ a, check editFlow = .ok a ∧
    (∃ c ∈ a.plan.block.parts, c.concurrent.map Block.owned = [["facts"], ["style"]]) ∧
    ¬ReflTransGen a.Forward "facts" "style" ∧ ¬ReflTransGen a.Forward "style" "facts" := by
  obtain ⟨a, ha, c, hc, howned⟩ : ∃ a, check editFlow = .ok a ∧
      ∃ c ∈ a.plan.block.parts, c.concurrent.map Block.owned = [["facts"], ["style"]] :=
    exists_check_ok (by decide +kernel)
  have hapart := concurrent_apart ha c hc
  obtain ⟨b, rest, hconcurrent, hb, hrest⟩ := List.map_eq_cons_iff.mp howned
  obtain ⟨d, rest, rfl, hd, -⟩ := List.map_eq_cons_iff.mp hrest
  rw [hconcurrent] at hapart
  have := (List.pairwise_cons.mp hapart).1 d List.mem_cons_self "facts" (by simp [hb]) "style"
    (by simp [hd])
  exact ⟨a, ha, ⟨c, hc, howned⟩, this.2⟩

end Flowscript
