/-
Members of the lists that `Sorting` builds.

* `mem_distinct`, `nodup_distinct` — `distinct` keeps every member, once;
* `repetitions_eq_nil` — a list repeats nothing iff it has no duplicates;
* `mem_sortedSet`, `nodup_sortedSet` — the same for the sorted form;
* `sortedSet_increasing` — the sorted form increases;
* `sortBy_eq_of_perm`, `sortedSet_congr` — what is sorted depends on the members only, as long as
  no two of them are equal under the comparison.
-/
import Flowscript.Sorting
import Mathlib.Data.List.Nodup

namespace Flowscript

variable {α : Type} [DecidableEq α]

@[simp] theorem mem_distinct {a : α} {l : List α} : a ∈ distinct l ↔ a ∈ l := by
  induction l with
  | nil => simp [distinct]
  | cons b bs ih =>
    by_cases h : a = b
    · simp [distinct, h]
    · simp [distinct, h, ih]

theorem nodup_distinct (l : List α) : (distinct l).Nodup := by
  induction l with
  | nil => exact List.nodup_nil
  | cons b bs ih =>
    rw [distinct, List.nodup_cons]
    exact ⟨by simp, ih.filter _⟩

theorem distinct_eq_self {l : List α} (h : l.Nodup) : distinct l = l := by
  induction l with
  | nil => rfl
  | cons b bs ih =>
    obtain ⟨hb, hbs⟩ := List.nodup_cons.mp h
    rw [distinct, ih hbs, List.filter_eq_self.mpr]
    intro a ha
    simpa using fun hab : a = b => hb (hab ▸ ha)

theorem repetitions_eq_nil {seen l : List α} :
    repetitions seen l = [] ↔ l.Nodup ∧ ∀ a ∈ l, a ∉ seen := by
  induction l generalizing seen with
  | nil => simp [repetitions]
  | cons b bs ih =>
    by_cases hb : b ∈ seen
    · simp [repetitions, hb]
    · rw [repetitions, if_neg hb, ih, List.nodup_cons]
      constructor
      · rintro ⟨hbs, hseen⟩
        refine ⟨⟨fun h => hseen b h (by simp), hbs⟩, ?_⟩
        intro a ha
        rcases List.mem_cons.mp ha with rfl | ha
        · exact hb
        · exact fun h => hseen a ha (List.mem_cons_of_mem _ h)
      · rintro ⟨⟨hbn, hbs⟩, hseen⟩
        refine ⟨hbs, fun a ha h => ?_⟩
        rcases List.mem_cons.mp h with rfl | h
        · exact hbn ha
        · exact hseen a (List.mem_cons_of_mem _ ha) h

@[simp] theorem mem_sortBy {β : Type} {le : β → β → Bool} {b : β} {l : List β} :
    b ∈ sortBy le l ↔ b ∈ l :=
  (sortBy_perm le l).mem_iff

@[simp] theorem mem_sortTexts {a : String} {l : List String} : a ∈ sortTexts l ↔ a ∈ l :=
  mem_sortBy

@[simp] theorem mem_sortedSet {a : String} {l : List String} : a ∈ sortedSet l ↔ a ∈ l := by
  rw [sortedSet, mem_sortTexts, mem_distinct]

theorem nodup_sortTexts {l : List String} (h : l.Nodup) : (sortTexts l).Nodup :=
  (sortBy_perm _ l).nodup_iff.mpr h

theorem nodup_sortedSet (l : List String) : (sortedSet l).Nodup :=
  nodup_sortTexts (nodup_distinct l)

/-! ### Sorting by a comparison -/

section Comparison

variable {β : Type} {cmp : β → β → Ordering}

theorem bne_gt_eq_isLE (o : Ordering) : (o != .gt) = o.isLE := by
  cases o <;> rfl

theorem insertBy_sorted [Std.TransCmp cmp] (b : β) {l : List β}
    (h : l.Pairwise fun x y => (cmp x y).isLE) :
    (insertBy (fun x y => cmp x y != .gt) b l).Pairwise fun x y => (cmp x y).isLE := by
  induction l with
  | nil => exact List.pairwise_singleton _ b
  | cons c l ih =>
    obtain ⟨hc, hl⟩ := List.pairwise_cons.mp h
    rw [insertBy, bne_gt_eq_isLE]
    split
    · rename_i hbc
      refine List.pairwise_cons.mpr ⟨fun x hx => ?_, h⟩
      rcases List.mem_cons.mp hx with rfl | hx
      · exact hbc
      · exact Std.TransCmp.isLE_trans hbc (hc x hx)
    · rename_i hbc
      refine List.pairwise_cons.mpr ⟨fun x hx => ?_, ih hl⟩
      rcases List.mem_cons.mp ((insertBy_perm _ b l).mem_iff.mp hx) with rfl | hx
      · have hswap : cmp c x = (cmp x c).swap := Std.OrientedCmp.eq_swap
        rw [hswap]
        cases hcx : cmp x c <;> simp [hcx] at hbc ⊢
      · exact hc x hx

theorem sortBy_sorted [Std.TransCmp cmp] (l : List β) :
    (sortBy (fun x y => cmp x y != .gt) l).Pairwise fun x y => (cmp x y).isLE := by
  induction l with
  | nil => exact .nil
  | cons b l ih => exact insertBy_sorted b ih

/-- Lists with the same members are sorted alike if no two members are equal under the
comparison. -/
theorem sortBy_eq_of_perm [Std.TransCmp cmp] {l l' : List β} (h : l.Perm l')
    (heq : ∀ x ∈ l, ∀ y ∈ l, cmp x y = .eq → x = y) :
    sortBy (fun x y => cmp x y != .gt) l = sortBy (fun x y => cmp x y != .gt) l' := by
  refine List.Perm.eq_of_pairwise (fun x y hx hy hxy hyx => ?_) (sortBy_sorted l)
    (sortBy_sorted l') ((sortBy_perm _ l).trans (h.trans (sortBy_perm _ l').symm))
  exact heq x (mem_sortBy.mp hx) y (h.mem_iff.mpr (mem_sortBy.mp hy))
    (Std.OrientedCmp.isLE_antisymm hxy hyx)

theorem insertBy_map {γ : Type} {le : β → β → Bool} {le' : γ → γ → Bool} (f : β → γ)
    (h : ∀ x y, le x y = le' (f x) (f y)) (b : β) (l : List β) :
    (insertBy le b l).map f = insertBy le' (f b) (l.map f) := by
  induction l with
  | nil => rfl
  | cons c l ih =>
    rw [insertBy, List.map_cons, insertBy, ← h]
    split
    · rfl
    · rw [List.map_cons, ih]

theorem sortBy_map {γ : Type} {le : β → β → Bool} {le' : γ → γ → Bool} (f : β → γ)
    (h : ∀ x y, le x y = le' (f x) (f y)) (l : List β) :
    (sortBy le l).map f = sortBy le' (l.map f) := by
  induction l with
  | nil => rfl
  | cons b l ih => rw [sortBy, insertBy_map f h, ih, List.map_cons, sortBy]

end Comparison

theorem compareText_eq {a b : String} : compareText a b = .eq ↔ a = b := by
  rw [compareText]
  constructor
  · intro h
    by_cases hab : a < b
    · simp [hab] at h
    · by_cases hba : b < a
      · simp [hab, hba] at h
      · exact String.le_antisymm (String.not_lt.mp hba) (String.not_lt.mp hab)
  · rintro rfl
    rw [if_neg (String.lt_irrefl a), if_neg (String.lt_irrefl a)]

theorem compareText_isLE {a b : String} : (compareText a b).isLE ↔ a ≤ b := by
  rw [compareText]
  by_cases hab : a < b
  · simp [hab, String.not_lt.mp (String.lt_asymm hab)]
  · by_cases hba : b < a
    · simp [hab, hba]
    · simp [hab, hba, String.not_lt.mp hba]

instance : Std.TransCmp compareText where
  eq_swap {a b} := by
    rw [compareText, compareText]
    by_cases hab : a < b
    · simp [hab, String.lt_asymm hab]
    · by_cases hba : b < a <;> simp [hab, hba]
  isLE_trans {a b c} hab hbc := by
    rw [compareText_isLE] at hab hbc ⊢
    exact String.le_trans hab hbc

/-- Values can be compared by what is read off them. -/
theorem transCmp_on {β γ : Type} (cmp : γ → γ → Ordering) [Std.TransCmp cmp] (f : β → γ) :
    Std.TransCmp fun x y => cmp (f x) (f y) where
  eq_swap := Std.OrientedCmp.eq_swap
  isLE_trans := Std.TransCmp.isLE_trans

/-- Values can be compared in two ways, the second for those that are equal in the first. -/
theorem transCmp_then {β : Type} {cmp cmp' : β → β → Ordering} (h : Std.TransCmp cmp)
    (h' : Std.TransCmp cmp') : Std.TransCmp fun x y => (cmp x y).then (cmp' x y) :=
  inferInstanceAs (Std.TransCmp (compareLex cmp cmp'))

theorem sortTexts_eq_of_perm {l l' : List String} (h : l.Perm l') : sortTexts l = sortTexts l' :=
  sortBy_eq_of_perm h fun _ _ _ _ => compareText_eq.mp

/-- The sorted form depends on the members only. -/
theorem sortedSet_congr {l l' : List String} (h : ∀ a, a ∈ l ↔ a ∈ l') :
    sortedSet l = sortedSet l' := by
  refine sortTexts_eq_of_perm ?_
  refine (List.perm_ext_iff_of_nodup (nodup_distinct l) (nodup_distinct l')).mpr fun a => ?_
  rw [mem_distinct, mem_distinct, h a]

/-- The sorted form increases from member to member. -/
theorem sortedSet_increasing (l : List String) : (sortedSet l).Pairwise (· < ·) := by
  have hsorted : (sortedSet l).Pairwise fun x y => (compareText x y).isLE := sortBy_sorted _
  refine (hsorted.and (nodup_sortedSet l)).imp fun {a b} hab => ?_
  by_contra hlt
  exact hab.2 (String.le_antisymm (compareText_isLE.mp hab.1) (String.not_lt.mp hlt))

theorem head?_sortedSet {l : List String} {a : String} :
    (sortedSet l).head? = some a ↔ a ∈ l ∧ ∀ b ∈ l, a ≤ b := by
  have hleast : ∀ c, (sortedSet l).head? = some c → ∀ b ∈ l, c ≤ b := by
    intro c hc b hb
    obtain ⟨rest, hlist⟩ := List.head?_eq_some_iff.mp hc
    have hsorted : (sortedSet l).Pairwise fun x y => (compareText x y).isLE := sortBy_sorted _
    rw [hlist, List.pairwise_cons] at hsorted
    have hmem : b ∈ c :: rest := hlist ▸ mem_sortedSet.mpr hb
    rcases List.mem_cons.mp hmem with rfl | hrest
    · exact String.le_refl _
    · exact compareText_isLE.mp (hsorted.1 b hrest)
  constructor
  · exact fun h => ⟨mem_sortedSet.mp (List.mem_of_head? h), hleast a h⟩
  · rintro ⟨ha, hall⟩
    obtain ⟨c, rest, hlist⟩ :=
      List.exists_cons_of_ne_nil (List.ne_nil_of_mem (mem_sortedSet.mpr ha))
    have hc : (sortedSet l).head? = some c := by rw [hlist, List.head?_cons]
    have hmem := mem_sortedSet.mp (List.mem_of_head? hc)
    rw [hc, String.le_antisymm (hleast c hc a ha) (hall c hmem)]

end Flowscript
