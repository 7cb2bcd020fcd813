/-
What the two searches find.

* `mem_breadthFirst` — breadth-first search visits exactly what can be reached from its queue,
  as long as the steps it is given cover the queue and the links that can enter it, and each vertex
  once (`breadthFirst_nodup`);
* `Trace.Sorted` — after a depth-first search every link of a finished vertex goes back to an open
  vertex or to one that was finished before, so the finished vertices are in an order that only
  the links found to go back do not respect; each of these closes a way down the tree of the search
  (`Trace.Descends`);
* `depthFirst_sorted` — a visit keeps that, and leaves open what was open.

Whether a vertex is finished before another one is a matter of places in `Trace.finished`, where
the latest stands first.
-/
import Flowscript.Graph.Search
import Mathlib.Data.List.Basic
import Mathlib.Logic.Relation

open Relation

namespace Flowscript

variable {α : Type} [DecidableEq α] {next : α → List α}

/-- One step of a search. -/
def Follows (next : α → List α) (u v : α) : Prop := v ∈ next u

/-! ### Breadth-first search -/

theorem breadthFirst_sound {steps : Nat} {queue seen : List α} {v : α}
    (h : v ∈ breadthFirst next steps queue seen) :
    ∃ s ∈ queue, ReflTransGen (Follows next) s v := by
  fun_induction breadthFirst next steps queue seen with
  | case1 => simp at h
  | case2 => simp at h
  | case3 steps u queue seen hu ih =>
    obtain ⟨s, hs, hsv⟩ := ih h
    exact ⟨s, List.mem_cons_of_mem _ hs, hsv⟩
  | case4 steps u queue seen hu ih =>
    rcases List.mem_cons.mp h with rfl | h
    · exact ⟨v, List.mem_cons_self, .refl⟩
    · obtain ⟨s, hs, hsv⟩ := ih h
      rcases List.mem_append.mp hs with hs | hs
      · exact ⟨s, List.mem_cons_of_mem _ hs, hsv⟩
      · exact ⟨u, List.mem_cons_self, .head hs hsv⟩

theorem countP_notMem_cons {β : Type} (items : List β) (key : β → α) {v : α} {seen : List α}
    (hv : v ∉ seen) :
    items.countP (fun b => key b ∉ seen) =
      items.countP (fun b => key b = v) + items.countP (fun b => key b ∉ v :: seen) := by
  induction items with
  | nil => rfl
  | cons b bs ih =>
    simp only [List.countP_cons, ih]
    by_cases hb : key b = v
    · simp [hb, hv]
      omega
    · simp [hb]
      omega

/-- With enough steps the queue is visited, and whatever a visited vertex leads to. -/
theorem breadthFirst_closed {β : Type} {items : List β} {key : β → α}
    (hnext : ∀ v, (next v).length ≤ items.countP fun b => key b = v) {steps : Nat}
    {queue seen : List α}
    (hsteps : queue.length + items.countP (fun b => key b ∉ seen) < steps) :
    (∀ v ∈ queue, v ∈ seen ∨ v ∈ breadthFirst next steps queue seen) ∧
      ∀ v ∈ breadthFirst next steps queue seen, ∀ w ∈ next v,
        w ∈ seen ∨ w ∈ breadthFirst next steps queue seen := by
  fun_induction breadthFirst next steps queue seen with
  | case1 => omega
  | case2 => simp
  | case3 steps u queue seen hu ih =>
    rw [List.length_cons] at hsteps
    obtain ⟨hqueue, hclosed⟩ := ih (by omega)
    refine ⟨fun v hv => ?_, hclosed⟩
    rcases List.mem_cons.mp hv with rfl | hv
    · exact .inl hu
    · exact hqueue v hv
  | case4 steps u queue seen hu ih =>
    rw [List.length_cons, countP_notMem_cons items key hu] at hsteps
    -- the links of `u` pay for what is added to the queue
    have hu' := hnext u
    obtain ⟨hqueue, hclosed⟩ := ih (by rw [List.length_append]; omega)
    have hcons : ∀ w, w ∈ u :: seen ∨ w ∈ breadthFirst next steps (queue ++ next u) (u :: seen) →
        w ∈ seen ∨ w ∈ u :: breadthFirst next steps (queue ++ next u) (u :: seen) := by
      intro w hw
      simp only [List.mem_cons] at hw ⊢
      tauto
    constructor
    · intro v hv
      rcases List.mem_cons.mp hv with rfl | hv
      · exact .inr List.mem_cons_self
      · exact hcons v (hqueue v (List.mem_append_left _ hv))
    · intro v hv w hw
      rcases List.mem_cons.mp hv with rfl | hv
      · exact hcons w (hqueue w (List.mem_append_right _ hw))
      · exact hcons w (hclosed v hv w hw)

/-- Breadth-first search with enough steps visits exactly what can be reached. -/
theorem mem_breadthFirst {β : Type} {items : List β} {key : β → α}
    (hnext : ∀ v, (next v).length ≤ items.countP fun b => key b = v) {steps : Nat}
    {starts : List α} (hsteps : starts.length + items.length < steps) {v : α} :
    v ∈ breadthFirst next steps starts [] ↔ ∃ s ∈ starts, ReflTransGen (Follows next) s v := by
  refine ⟨breadthFirst_sound, ?_⟩
  rintro ⟨s, hs, hsv⟩
  have hcount : items.countP (fun b => key b ∉ ([] : List α)) ≤ items.length :=
    List.countP_le_length
  have hbound : starts.length + items.countP (fun b => key b ∉ ([] : List α)) < steps := by omega
  obtain ⟨hqueue, hclosed⟩ := breadthFirst_closed hnext hbound
  -- along the way each vertex is visited because the one before it is
  induction hsv with
  | refl => simpa using hqueue s hs
  | tail _ huv ih => simpa using hclosed _ ih _ huv

/-- Breadth-first search visits no vertex twice. -/
theorem breadthFirst_nodup {steps : Nat} {queue seen : List α} :
    (breadthFirst next steps queue seen).Nodup ∧
      ∀ v ∈ breadthFirst next steps queue seen, v ∉ seen := by
  fun_induction breadthFirst next steps queue seen with
  | case1 => simp
  | case2 => simp
  | case3 steps u queue seen hu ih => exact ih
  | case4 steps u queue seen hu ih =>
    obtain ⟨hnodup, hnew⟩ := ih
    refine ⟨List.nodup_cons.mpr ⟨fun hmem => hnew u hmem List.mem_cons_self, hnodup⟩, ?_⟩
    exact List.forall_mem_cons.mpr
      ⟨hu, fun v hv hold => hnew v hv (List.mem_cons_of_mem _ hold)⟩

/-! ### Depth-first search -/

namespace Trace

/-- A vertex whose neighbours are still being followed. -/
def Open (t : Trace α) (v : α) : Prop := v ∈ t.discovered ∧ v ∉ t.finished

/-- A step down the tree of a search: it does not lead to a vertex that `Dom` puts above its start,
since that one is open already. -/
def Descends (next : α → List α) (Dom : α → α → Prop) (u v : α) : Prop := v ∈ next u ∧ ¬Dom v u

/-- What a search knows about the links it has followed.  `Dom e v` is any relation that passes
from the target of a link to its source, such as "every way to `v` leads through `e`". -/
structure Sorted (next : α → List α) (Dom : α → α → Prop) (t : Trace α) : Prop where
  found : ∀ v ∈ t.finished, v ∈ t.discovered
  nodup : t.finished.Nodup
  back : ∀ u v, (u, v) ∈ t.retreating →
    v ∈ t.discovered ∧ v ∈ next u ∧ u ≠ v ∧ ReflTransGen (Descends next Dom) v u
  sorted : ∀ u older, u :: older <:+ t.finished → ∀ v ∈ next u,
    v ∈ older ∨ (u, v) ∈ t.retreating ∨ u = v
  late : ∀ u older, u :: older <:+ t.finished → ∀ e, Dom e u → e ≠ u → e ∉ older

/-- How a search goes on: nothing is forgotten, and what is open stays open. -/
structure Grows (t t' : Trace α) : Prop where
  discovered : t.discovered ⊆ t'.discovered
  finished : t.finished <:+ t'.finished
  retreating : t.retreating ⊆ t'.retreating
  still_open : ∀ v, t'.Open v ↔ t.Open v

omit [DecidableEq α] in
theorem Grows.refl (t : Trace α) : t.Grows t :=
  ⟨fun _ h => h, List.suffix_rfl, fun _ h => h, fun _ => Iff.rfl⟩

omit [DecidableEq α] in
theorem Grows.trans {t t' t'' : Trace α} (h : t.Grows t') (h' : t'.Grows t'') : t.Grows t'' :=
  ⟨List.Subset.trans h.discovered h'.discovered, h.finished.trans h'.finished,
    List.Subset.trans h.retreating h'.retreating, fun v => (h'.still_open v).trans (h.still_open v)⟩

/-- What can still be discovered among `ids` gets no more. -/
theorem Grows.undiscovered_le {t t' : Trace α} (h : t.Grows t') (ids : List α) :
    ids.countP (fun v => v ∉ t'.discovered) ≤ ids.countP fun v => v ∉ t.discovered := by
  refine List.countP_mono_left fun v _ hv => ?_
  simp only [decide_eq_true_eq] at hv ⊢
  exact fun hd => hv (h.discovered hd)

variable {Dom : α → α → Prop}

/-- Following one link: the target is visited, or noted as still open, or done already. -/
theorem follow_sorted {visit : α → Trace α → Trace α} {u v : α} {t : Trace α}
    (ht : t.Sorted next Dom) (huv : v ∈ next u)
    (hopen : ∀ w, t.Open w → ReflTransGen (Descends next Dom) w u)
    (hvisit : v ∉ t.discovered →
      (visit v t).Sorted next Dom ∧ t.Grows (visit v t) ∧ v ∈ (visit v t).finished) :
    (t.follow visit u v).Sorted next Dom ∧ t.Grows (t.follow visit u v) ∧
      (v ∈ (t.follow visit u v).finished ∨ (u, v) ∈ (t.follow visit u v).retreating ∨ u = v) := by
  rw [follow]
  by_cases hv : v ∉ t.discovered
  · rw [if_pos hv]
    obtain ⟨h1, h2, h3⟩ := hvisit hv
    exact ⟨h1, h2, .inl h3⟩
  · rw [if_neg hv]
    have hfound : v ∈ t.discovered := not_not.mp hv
    -- an open target leads to `u`, as all that is open does
    by_cases hb : v ∉ t.finished ∧ u ≠ v
    · rw [if_pos hb]
      refine ⟨⟨ht.found, ht.nodup, ?_, ?_, ht.late⟩, ⟨fun _ h => h, List.suffix_rfl,
        fun _ h => List.mem_cons_of_mem _ h, fun _ => Iff.rfl⟩, .inr (.inl List.mem_cons_self)⟩
      · intro x y hxy
        rcases List.mem_cons.mp hxy with heq | hxy
        · obtain ⟨rfl, rfl⟩ := Prod.mk.inj heq
          exact ⟨hfound, huv, hb.2, hopen y ⟨hfound, hb.1⟩⟩
        · exact ht.back x y hxy
      · intro x older hx y hy
        rcases ht.sorted x older hx y hy with h | h | h
        · exact .inl h
        · exact .inr (.inl (List.mem_cons_of_mem _ h))
        · exact .inr (.inr h)
    · rw [if_neg hb]
      refine ⟨ht, .refl t, ?_⟩
      by_cases hf : v ∈ t.finished
      · exact .inl hf
      · exact .inr (.inr (not_not.mp fun hne => hb ⟨hf, hne⟩))

/-- Following several links of an open vertex, one after the other. -/
theorem foldl_follow_sorted {visit : α → Trace α → Trace α} {u : α} (vs : List α)
    (hvs : ∀ v ∈ vs, v ∈ next u) : ∀ {t : Trace α}, t.Sorted next Dom →
    (∀ w, t.Open w → ReflTransGen (Descends next Dom) w u) →
    (∀ v ∈ vs, ∀ t', t.Grows t' → t'.Sorted next Dom → v ∉ t'.discovered →
      (visit v t').Sorted next Dom ∧ t'.Grows (visit v t') ∧ v ∈ (visit v t').finished) →
    (vs.foldl (follow visit u) t).Sorted next Dom ∧ t.Grows (vs.foldl (follow visit u) t) ∧
      ∀ v ∈ vs, v ∈ (vs.foldl (follow visit u) t).finished ∨
        (u, v) ∈ (vs.foldl (follow visit u) t).retreating ∨ u = v := by
  induction vs with
  | nil =>
    intro t ht _ _
    exact ⟨ht, .refl t, by simp⟩
  | cons v vs ih =>
    intro t ht hopen hvisit
    have huv := hvs v List.mem_cons_self
    obtain ⟨ht1, hg1, hv1⟩ := follow_sorted ht huv hopen
      (hvisit v List.mem_cons_self t (.refl t) ht)
    obtain ⟨ht2, hg2, hrest⟩ := ih (fun w hw => hvs w (List.mem_cons_of_mem _ hw)) ht1
      (fun w hw => hopen w ((hg1.still_open w).mp hw))
      (fun w hw t' hg => hvisit w (List.mem_cons_of_mem _ hw) t' (hg1.trans hg))
    refine ⟨ht2, hg1.trans hg2, fun w hw => ?_⟩
    rcases List.mem_cons.mp hw with rfl | hw
    · rcases hv1 with h | h | h
      · exact .inl (hg2.finished.subset h)
      · exact .inr (.inl (hg2.retreating h))
      · exact .inr (.inr h)
    · exact hrest w hw

omit [DecidableEq α] in
theorem Sorted.discover {t : Trace α} (ht : t.Sorted next Dom) (u : α) :
    ({ t with discovered := u :: t.discovered } : Trace α).Sorted next Dom where
  found := fun v hv => List.mem_cons_of_mem _ (ht.found v hv)
  nodup := ht.nodup
  back := fun x y hxy => (ht.back x y hxy).imp_left (List.mem_cons_of_mem _)
  sorted := ht.sorted
  late := ht.late

omit [DecidableEq α] in
/-- An open vertex is finished once all its links are sorted. -/
theorem Sorted.finish {t : Trace α} (ht : t.Sorted next Dom) {u : α} (hu : t.Open u)
    (hdone : ∀ v ∈ next u, v ∈ t.finished ∨ (u, v) ∈ t.retreating ∨ u = v)
    (hlate : ∀ e, Dom e u → e ≠ u → e ∉ t.finished) :
    ({ t with finished := u :: t.finished } : Trace α).Sorted next Dom where
  found := by
    intro v hv
    rcases List.mem_cons.mp hv with rfl | hv
    · exact hu.1
    · exact ht.found v hv
  nodup := List.nodup_cons.mpr ⟨hu.2, ht.nodup⟩
  back := ht.back
  sorted := by
    intro x older hx v hv
    rcases List.suffix_cons_iff.mp hx with heq | hx
    · obtain ⟨rfl, rfl⟩ := List.cons.inj heq
      exact hdone v hv
    · exact ht.sorted x older hx v hv
  late := by
    intro x older hx e he hne
    rcases List.suffix_cons_iff.mp hx with heq | hx
    · obtain ⟨rfl, rfl⟩ := List.cons.inj heq
      exact hlate e he hne
    · exact ht.late x older hx e he hne

omit [DecidableEq α] in
/-- From the discovery of a vertex to its end the other vertices stay as open as they were. -/
theorem Grows.around {t t' : Trace α} {u : α} (hnew : u ∉ t.discovered)
    (h : Grows { t with discovered := u :: t.discovered } t') :
    t.Grows { t' with finished := u :: t'.finished } where
  discovered := fun v hv => h.discovered (List.mem_cons_of_mem _ hv)
  finished := h.finished.trans (List.suffix_cons u _)
  retreating := h.retreating
  still_open := by
    intro w
    constructor
    · rintro ⟨hw, hf⟩
      obtain ⟨hwu, hf⟩ := List.ne_and_not_mem_of_not_mem_cons hf
      obtain ⟨hold, hopen⟩ := (h.still_open w).mp ⟨hw, hf⟩
      exact ⟨(List.mem_cons.mp hold).resolve_left hwu, hopen⟩
    · rintro ⟨hw, hf⟩
      have hwu : w ≠ u := fun heq => hnew (heq ▸ hw)
      obtain ⟨hfound, hopen⟩ := (h.still_open w).mpr ⟨List.mem_cons_of_mem _ hw, hf⟩
      exact ⟨hfound, List.not_mem_cons_of_ne_of_not_mem hwu hopen⟩

end Trace

/-- A visit sorts the links of all that it finishes, and finishes the vertex it is given. -/
theorem depthFirst_sorted {Dom : α → α → Prop} {ids : List α}
    (hids : ∀ u, ∀ v ∈ next u, v ∈ ids)
    (hdom : ∀ e u v, v ∈ next u → Dom e v → e ≠ v → e = u ∨ Dom e u) :
    ∀ (depth : Nat) (u : α) (t : Trace α), u ∈ ids →
      ids.countP (fun v => v ∉ t.discovered) < depth → t.Sorted next Dom → u ∉ t.discovered →
      (∀ w, t.Open w → ReflTransGen (Trace.Descends next Dom) w u) →
      (∀ e, Dom e u → e ≠ u → t.Open e) →
      (depthFirst next depth u t).Sorted next Dom ∧ t.Grows (depthFirst next depth u t) ∧
        u ∈ (depthFirst next depth u t).finished := by
  intro depth
  induction depth with
  | zero =>
    intro u t _ h
    omega
  | succ depth ih =>
    intro u t hu hdepth ht hnew hopen hdomu
    rw [depthFirst, if_neg hnew]
    set t₁ : Trace α := { t with discovered := u :: t.discovered } with ht₁
    have hunfinished : u ∉ t.finished := fun h => hnew (ht.found u h)
    have hopen₁ : ∀ w, t.Open w → t₁.Open w := fun w hw => ⟨List.mem_cons_of_mem _ hw.1, hw.2⟩
    have hu₁ : t₁.Open u := ⟨List.mem_cons_self, hunfinished⟩
    have hreach₁ : ∀ w, t₁.Open w → ReflTransGen (Trace.Descends next Dom) w u := by
      rintro w ⟨hw, hf⟩
      rcases List.mem_cons.mp hw with rfl | hw
      · exact .refl
      · exact hopen w ⟨hw, hf⟩
    have hdepth₁ : ids.countP (fun v => v ∉ t₁.discovered) < depth := by
      have hcount := countP_notMem_cons ids id hnew
      have hpos : 0 < ids.countP (fun v => id v = u) :=
        List.countP_pos_iff.mpr ⟨u, hu, by simp⟩
      simp only [id_eq] at hcount hpos
      simp only [ht₁]
      omega
    -- the neighbours are visited one level further down, with `u` open
    have hvisit : ∀ v ∈ next u, ∀ t', t₁.Grows t' → t'.Sorted next Dom → v ∉ t'.discovered →
        (depthFirst next depth v t').Sorted next Dom ∧ t'.Grows (depthFirst next depth v t') ∧
          v ∈ (depthFirst next depth v t').finished := by
      intro v hv t' hg' hs' hnew'
      refine ih v t' (hids u v hv) ?_ hs' hnew' ?_ ?_
      · exact Nat.lt_of_le_of_lt (hg'.undiscovered_le ids) hdepth₁
      · -- what stands above `u` is open, and `v` is not even discovered
        have hvu : v ≠ u := fun h => hnew' (hg'.discovered (h ▸ hu₁.1))
        have habove : ¬Dom v u := fun h =>
          hnew' (hg'.discovered (hopen₁ v (hdomu v h hvu)).1)
        intro w hw
        exact (hreach₁ w ((hg'.still_open w).mp hw)).tail ⟨hv, habove⟩
      · intro e he hne
        rw [hg'.still_open]
        by_cases heu : e = u
        · exact heu ▸ hu₁
        · exact hopen₁ e (hdomu e ((hdom e u v hv he hne).resolve_left heu) heu)
    obtain ⟨hs, hg, hdone⟩ :=
      Trace.foldl_follow_sorted (next u) (fun v hv => hv) (ht.discover u) hreach₁ hvisit
    refine ⟨hs.finish ((hg.still_open u).mpr hu₁) hdone fun e he hne => ?_, .around hnew hg,
      List.mem_cons_self⟩
    exact ((hg.still_open e).mpr (hopen₁ e (hdomu e he hne))).2

/-- Visits of several vertices one after the other, each with nothing open. -/
theorem foldl_depthFirst_sorted {Dom : α → α → Prop} {ids : List α}
    (hids : ∀ u, ∀ v ∈ next u, v ∈ ids)
    (hdom : ∀ e u v, v ∈ next u → Dom e v → e ≠ v → e = u ∨ Dom e u) (starts : List α)
    (hstarts : ∀ u ∈ starts, u ∈ ids ∧ ∀ e, Dom e u → e = u) :
    ∀ {t : Trace α}, t.Sorted next Dom → (∀ v, ¬t.Open v) →
      (starts.foldl (fun t u => depthFirst next (ids.length + 1) u t) t).Sorted next Dom ∧
        t.Grows (starts.foldl (fun t u => depthFirst next (ids.length + 1) u t) t) ∧
        ∀ u ∈ starts,
          u ∈ (starts.foldl (fun t u => depthFirst next (ids.length + 1) u t) t).finished := by
  induction starts with
  | nil =>
    intro t ht _
    exact ⟨ht, .refl t, by simp⟩
  | cons u us ih =>
    intro t ht hclosed
    obtain ⟨hu, hus⟩ := List.forall_mem_cons.mp hstarts
    have hvisit : (depthFirst next (ids.length + 1) u t).Sorted next Dom ∧
        t.Grows (depthFirst next (ids.length + 1) u t) ∧
        u ∈ (depthFirst next (ids.length + 1) u t).finished := by
      by_cases hnew : u ∈ t.discovered
      · rw [depthFirst, if_pos hnew]
        exact ⟨ht, .refl t, not_not.mp fun hf => hclosed u ⟨hnew, hf⟩⟩
      · refine depthFirst_sorted hids hdom _ u t hu.1 ?_ ht hnew ?_ ?_
        · exact Nat.lt_succ_of_le List.countP_le_length
        · exact fun w hw => absurd hw (hclosed w)
        · exact fun e he hne => absurd (hu.2 e he) hne
    obtain ⟨hs, hg, hf⟩ := hvisit
    obtain ⟨hs', hg', hf'⟩ := ih hus hs fun v hv => hclosed v ((hg.still_open v).mp hv)
    exact ⟨hs', hg.trans hg', List.forall_mem_cons.mpr ⟨hg'.finished.subset hf, hf'⟩⟩

/-- A search from several vertices leaves nothing open and finishes all of them. -/
theorem Graph.trace_sorted {g : Graph} {next : String → List String}
    {Dom : String → String → Prop} {starts : List String}
    (hids : ∀ u, ∀ v ∈ next u, v ∈ g.ids)
    (hdom : ∀ e u v, v ∈ next u → Dom e v → e ≠ v → e = u ∨ Dom e u)
    (hstarts : ∀ u ∈ starts, u ∈ g.ids ∧ ∀ e, Dom e u → e = u) :
    (g.trace next starts).Sorted next Dom ∧ (∀ v, ¬(g.trace next starts).Open v) ∧
      ∀ u ∈ starts, u ∈ (g.trace next starts).finished := by
  have hempty : ({} : Trace String).Sorted next Dom :=
    ⟨by simp, List.nodup_nil, by simp, by simp, by simp⟩
  have hnone : ∀ v, ¬({} : Trace String).Open v := fun v hv => absurd hv.1 (by simp)
  obtain ⟨hs, hg, hf⟩ := foldl_depthFirst_sorted hids hdom starts hstarts hempty hnone
  exact ⟨hs, fun v hv => hnone v ((hg.still_open v).mp hv), hf⟩

omit [DecidableEq α] in
/-- What a finished vertex leads to is finished too, once nothing is open. -/
theorem Trace.Sorted.finished_of_reach {Dom : α → α → Prop} {t : Trace α}
    (ht : t.Sorted next Dom) (hclosed : ∀ v, ¬t.Open v) {u v : α} (hu : u ∈ t.finished)
    (huv : ReflTransGen (Follows next) u v) : v ∈ t.finished := by
  induction huv with
  | refl => exact hu
  | @tail x y _ hxy ih =>
    obtain ⟨newer, older, hsplit⟩ := List.append_of_mem ih
    rcases ht.sorted x older ⟨newer, hsplit.symm⟩ y hxy with h | h | rfl
    · rw [hsplit]
      exact List.mem_append_right _ (List.mem_cons_of_mem _ h)
    · exact not_not.mp fun hf => hclosed y ⟨(ht.back x y h).1, hf⟩
    · exact ih

/-- A finished vertex stands before the target of each of its links that does not go back. -/
theorem Trace.Sorted.idxOf_lt {Dom : α → α → Prop} {t : Trace α} (ht : t.Sorted next Dom)
    {u v : α} (hu : u ∈ t.finished) (huv : v ∈ next u) (hne : u ≠ v)
    (hback : (u, v) ∉ t.retreating) : t.finished.idxOf u < t.finished.idxOf v := by
  obtain ⟨newer, older, hsplit⟩ := List.append_of_mem hu
  -- what was finished before `u` stands behind it
  have hv : v ∈ older :=
    (ht.sorted u older ⟨newer, hsplit.symm⟩ v huv).resolve_right fun h => h.elim hback hne
  have hnd := ht.nodup
  rw [hsplit] at hnd ⊢
  obtain ⟨hu', hv'⟩ : u ∉ newer ∧ v ∉ newer := by
    rw [List.nodup_append] at hnd
    exact ⟨fun h => hnd.2.2 u h u List.mem_cons_self rfl,
      fun h => hnd.2.2 v h v (List.mem_cons_of_mem _ hv) rfl⟩
  rw [List.idxOf_append_of_notMem hu', List.idxOf_append_of_notMem hv', List.idxOf_cons_self,
    List.idxOf_cons_ne _ hne]
  omega

end Flowscript
