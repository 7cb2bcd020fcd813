/-
The order of a plan respects what depends on what.

The nodes of a plan are owned in the order in which they were marked, so what the invariant says
of marked nodes holds of the list of owned nodes:

* `owned_nodup`, `owned_subset`, `revisited_subset` — each node is owned at most once, and a path
  ends only at nodes that are owned;
* `forward_before` — a node stands behind the sources of its forward links, unless it is the head
  of a loop that is entered elsewhere;
* `head_before` — the head of a loop stands before the nodes of its body.
-/
import Flowscript.Proofs.Plan.Rule

namespace Flowscript

namespace Plan

variable {a : Accepted} {A : List Loop} {s : Scope} {p q r : Progress} {id : String}

/-! ### Paths that come to a planned node -/

/-- A call whose paths end only at planned nodes. -/
def Revisits (a : Accepted) : Call := Keeps a fun _ _ _ _ b q => ∀ v ∈ b.revisited, v ∈ q.planned

theorem Each.revisited {ids : List String} {bs : List Block}
    (h : Each (Revisits a) A s ids p bs q) :
    p.planned ⊆ q.planned ∧ ∀ v ∈ Block.revisitedList bs, v ∈ q.planned := by
  induction h with
  | nil => exact ⟨List.Subset.refl _, by simp [Block.revisitedList]⟩
  | cons head tail ih =>
    obtain ⟨-, hend, hrev⟩ := head
    refine ⟨fun v hv => ih.1 (hend.grown.mem_planned.mpr (.inr hv)), fun v hv => ?_⟩
    rw [Block.revisitedList] at hv
    exact (List.mem_append.mp hv).elim (fun h => ih.1 (hrev v h)) (ih.2 v)

theorem Arms.revisited {ids : List String} {bs : List Block} {next : Block}
    (h : Arms a (Revisits a) A s ids p bs next q) :
    p.planned ⊆ q.planned ∧
      (∀ v ∈ Block.revisitedList bs, v ∈ q.planned) ∧ ∀ v ∈ next.revisited, v ∈ q.planned := by
  cases h with
  | apart none arms =>
    exact ⟨arms.revisited.1, arms.revisited.2, by simp [Block.revisited]⟩
  | meet two some arms rest =>
    obtain ⟨-, hend, hrev⟩ := rest
    have hgrow : ∀ {v}, v ∈ _ → v ∈ q.planned := fun hv => hend.grown.mem_planned.mpr (.inr hv)
    exact ⟨fun v hv => hgrow (arms.revisited.1 hv), fun v hv => hgrow (arms.revisited.2 v hv), hrev⟩

theorem Behind.revisited {ids : List String} {b : Block}
    (h : Behind a (Revisits a) A s ids p b q) :
    p.planned ⊆ q.planned ∧ ∀ v ∈ b.revisited, v ∈ q.planned := by
  cases h with
  | nothing none => exact ⟨List.Subset.refl _, by simp [Block.revisited]⟩
  | one only call =>
    obtain ⟨-, hend, hrev⟩ := call
    exact ⟨fun v hv => hend.grown.mem_planned.mpr (.inr hv), hrev⟩
  | several nodup all arms =>
    obtain ⟨hgrow, harms, hnext⟩ := arms.revisited
    refine ⟨hgrow, fun v hv => ?_⟩
    rw [Block.revisited] at hv
    exact (List.mem_append.mp hv).elim (harms v) (hnext v)

theorem Step.revisited {b : Block} (h : Step a (Revisits a) A s id p b q) :
    ∀ v ∈ b.revisited, v ∈ q.planned := by
  cases h with
  | reserved stop => simp [Block.revisited]
  | outside free beyond => simp [Block.revisited]
  | again free within old =>
    intro v hv
    obtain rfl := List.mem_singleton.mp hv
    exact old
  | early free within fresh wait => simp [Block.revisited]
  | loop opens mem entry head round =>
    cases round with
    | mk round behind =>
      obtain ⟨-, -, hrev⟩ := round
      obtain ⟨hgrow, hnext⟩ := behind.revisited
      intro v hv
      rw [Block.revisited] at hv
      exact (List.mem_append.mp hv).elim (fun h => hgrow (hrev v h)) (hnext v)
  | seq opens plain behind => exact behind.revisited.2
  | branch opens plain kind links labels arms =>
    obtain ⟨-, harms, hnext⟩ := arms.revisited
    intro v hv
    rw [Block.revisited] at hv
    refine (List.mem_append.mp hv).elim (fun h => harms v ?_) (hnext v)
    simpa [Block.revisitedList] using h
  | @fan c bs mid next r opens plain kind arms behind =>
    obtain ⟨hgrow, hnext⟩ := behind.revisited
    have hlength : bs.length ≤ ((outBySlot a id).map fun l => l.edge.slot.getD "").length := by
      simp [arms.length_eq]
    intro v hv
    rw [Block.revisited, Block.revisitedArms_zip hlength] at hv
    exact (List.mem_append.mp hv).elim (fun h => hgrow (arms.revisited.2 v h)) (hnext v)

/-! ### The nodes that a plan owns -/

/-- The owned nodes are those that were marked, in that order. -/
theorem plan_marks (hs : a.Sound) : ∃ q : Progress, q.Fits a [] ∧
    q.planned = a.plan.block.owned.reverse ∧ ∀ v ∈ a.plan.block.revisited, v ∈ q.planned := by
  obtain ⟨t, q, -, hend, hrev, -⟩ := plan_rule hs _
    fun A s id p b q _ _ (hstep : Step a (Revisits a) A s id p b q) => hstep.revisited
  refine ⟨q, hend.grown.fits, ?_, hrev⟩
  rw [hend.grown.planned]
  exact List.append_nil _

theorem owned_nodup (hs : a.Sound) : a.plan.block.owned.Nodup := by
  obtain ⟨q, hfits, hplanned, -⟩ := plan_marks hs
  exact List.nodup_reverse.mp (hplanned ▸ hfits.nodup)

theorem owned_subset (hs : a.Sound) : ∀ v ∈ a.plan.block.owned, v ∈ a.graph.ids := by
  obtain ⟨q, hfits, hplanned, -⟩ := plan_marks hs
  intro v hv
  exact hfits.mem v (by rwa [hplanned, List.mem_reverse])

theorem revisited_subset (hs : a.Sound) : ∀ v ∈ a.plan.block.revisited, v ∈ a.plan.block.owned := by
  obtain ⟨q, -, hplanned, hrev⟩ := plan_marks hs
  intro v hv
  rw [← List.mem_reverse, ← hplanned]
  exact hrev v hv

/-- The first node stands before the second in a list. -/
def Before (l : List String) (u v : String) : Prop :=
  u ∈ l ∧ l.idxOf u < l.idxOf v

theorem before_of_split {earlier later : List String} {u v : String}
    (hv : v ∉ earlier) (hu : u ∈ earlier) : Before (earlier ++ v :: later) u v := by
  refine ⟨List.mem_append_left _ hu, ?_⟩
  rw [List.idxOf_append_of_mem hu, List.idxOf_append_of_notMem hv, List.idxOf_cons_self]
  exact Nat.lt_of_lt_of_le (List.idxOf_lt_length_of_mem hu) (Nat.le_add_right _ _)

/-- What was marked before a node is owned before it. -/
theorem exists_marked_before (hs : a.Sound) {v : String} (hv : v ∈ a.plan.block.owned) :
    ∃ older : List String, (∀ u ∈ older, Before a.plan.block.owned u v) ∧
      ((∀ u, a.Forward u v → u ∈ older) ∨ ∃ L ∈ a.loops.loops, L.head = v ∧ L.entry ≠ v) ∧
      ∀ L ∈ a.loops.loops, v ∈ L.body → L.head ∈ older := by
  obtain ⟨q, hfits, hplanned, -⟩ := plan_marks hs
  obtain ⟨earlier, later, hsplit⟩ := List.append_of_mem hv
  have hnodup := owned_nodup hs
  -- the marks are kept newest first, so what stands before the node is the tail of them
  refine ⟨earlier.reverse, fun u hu => ?_, hfits.sorted v earlier.reverse ?_⟩
  · rw [hsplit] at hnodup ⊢
    exact before_of_split (Order.notMem_of_nodup hnodup) (List.mem_reverse.mp hu)
  · rw [hplanned, hsplit]
    exact ⟨later.reverse, by simp⟩

theorem forward_before (hs : a.Sound) {u v : String} (huv : a.Forward u v)
    (hv : v ∈ a.plan.block.owned) :
    Before a.plan.block.owned u v ∨ ∃ L ∈ a.loops.loops, L.head = v ∧ L.entry ≠ L.head := by
  obtain ⟨older, holder, hdue | ⟨L, hL, hhead, hentry⟩, -⟩ := exists_marked_before hs hv
  · exact .inl (holder u (hdue u huv))
  · exact .inr ⟨L, hL, hhead, hhead ▸ hentry⟩

theorem head_before (hs : a.Sound) {L : Loop} (hL : L ∈ a.loops.loops) {v : String}
    (hbody : v ∈ L.body) (hv : v ∈ a.plan.block.owned) : Before a.plan.block.owned L.head v := by
  obtain ⟨older, holder, -, hheads⟩ := exists_marked_before hs hv
  exact holder L.head (hheads L hL hbody)

end Plan

/-- In the plan of an accepted workflow no node is owned twice, paths end only at owned nodes, and
the source of a link stands before its target.  The exceptions are the links back to the entry of
a loop and the links to the head of a loop that is entered elsewhere; such a head stands before
its body. -/
theorem owned_respects_links {w : Workflow} {a : Accepted} (h : check w = .ok a) :
    a.plan.block.owned.Nodup ∧
      (∀ v ∈ a.plan.block.revisited, v ∈ a.plan.block.owned) ∧
      (∀ l ∈ a.graph.links, a.loops.isBack l = false → l.target ∈ a.plan.block.owned →
        Plan.Before a.plan.block.owned l.source l.target ∨
          ∃ L ∈ a.loops.loops, L.head = l.target ∧ L.entry ≠ L.head) ∧
      ∀ L ∈ a.loops.loops, ∀ v ∈ L.body, v ∈ a.plan.block.owned →
        Plan.Before a.plan.block.owned L.head v := by
  have hs := Check.sound_of_check h
  refine ⟨Plan.owned_nodup hs, Plan.revisited_subset hs, fun l hl hback hmem => ?_, ?_⟩
  · exact Plan.forward_before hs ⟨l, hl, hback, rfl, rfl⟩ hmem
  · exact fun L hL v hbody hv => Plan.head_before hs hL hbody hv

/-- A draft is written and judged until it is good; the loop is entered at the draft, ahead of its
head. -/
def draftFlow : Workflow where
  nodes :=
    [ { id := "start", config := .trigger {} },
      { id := "draft", config := .agent { prompt := "draft" } },
      { id := "facts", config := .agent { prompt := "facts" } },
      { id := "style", config := .agent { prompt := "style" } },
      { id := "judge", config := .feedbackLoop { maxIterations := 3, stopCondition := "good" } },
      { id := "publish", config := .agent { prompt := "publish" } } ]
  edges :=
    [ { id := "e1", source := "start", target := "draft" },
      { id := "e2", source := "draft", target := "facts" },
      { id := "e3", source := "draft", target := "style" },
      { id := "e4", source := "facts", target := "judge" },
      { id := "e5", source := "style", target := "judge" },
      { id := "e6", source := "judge", target := "draft" },
      { id := "e7", source := "judge", target := "publish" } ]

/-- The head of the loop stands before the draft, though two links lead from the body to it. -/
theorem owned_respects_draftFlow : ∃ a, check draftFlow = .ok a ∧
    a.plan.block.owned = ["start", "judge", "draft", "facts", "style", "publish"] ∧
    a.plan.block.owned.Nodup ∧
    ∀ L ∈ a.loops.loops, ∀ v ∈ L.body, v ∈ a.plan.block.owned →
      Plan.Before a.plan.block.owned L.head v := by
  obtain ⟨a, ha, howned⟩ : ∃ a, check draftFlow = .ok a ∧
      a.plan.block.owned = ["start", "judge", "draft", "facts", "style", "publish"] :=
    exists_check_ok (by decide +kernel)
  obtain ⟨hnodup, -, -, hheads⟩ := owned_respects_links ha
  exact ⟨a, ha, howned, hnodup, hheads⟩

end Flowscript
