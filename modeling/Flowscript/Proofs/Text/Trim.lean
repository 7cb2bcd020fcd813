/-
Blanks around texts and around their pieces.

* `dropOuterBlanks_append`, `dropOuterBlanks_append_left` — blanks at an end do not matter;
* `dropOuterBlanks_eq_nil_iff` — nothing is left of blanks, and of nothing else;
* `map_trim_pieces` — a text can be cut before or after the blanks around it are dropped.
-/
import Flowscript.Text.Basic
import Mathlib.Data.List.TakeWhile

namespace Flowscript.Text

variable {bs : List Char}

/-! ### Blanks at the ends -/

section Blanks

variable (hbs : ∀ c ∈ bs, isBlank c = true) (cs : List Char)
include hbs

theorem dropEndBlanks_append : dropEndBlanks (cs ++ bs) = dropEndBlanks cs := by
  have hrev : ∀ c ∈ bs.reverse, isBlank c = true := fun c hc => hbs c (List.mem_reverse.mp hc)
  rw [dropEndBlanks, List.reverse_append, List.dropWhile_append_of_pos hrev, dropEndBlanks]

theorem dropOuterBlanks_append_left : dropOuterBlanks (bs ++ cs) = dropOuterBlanks cs := by
  rw [dropOuterBlanks, List.dropWhile_append_of_pos hbs, dropOuterBlanks]

theorem dropOuterBlanks_append : dropOuterBlanks (cs ++ bs) = dropOuterBlanks cs := by
  rw [dropOuterBlanks, dropOuterBlanks, List.dropWhile_append]
  split
  · rename_i hnone
    rw [List.isEmpty_iff.mp hnone, List.dropWhile_eq_nil_iff.mpr hbs]
  · exact dropEndBlanks_append hbs _

end Blanks

theorem exists_outer_blanks (cs : List Char) : ∃ before after,
    cs = before ++ (dropOuterBlanks cs ++ after) ∧ (∀ c ∈ before, isBlank c = true) ∧
      ∀ c ∈ after, isBlank c = true := by
  have hsplit : ∀ ds : List Char,
      dropEndBlanks ds ++ (ds.reverse.takeWhile isBlank).reverse = ds := by
    intro ds
    rw [dropEndBlanks, ← List.reverse_append, List.takeWhile_append_dropWhile, List.reverse_reverse]
  refine ⟨cs.takeWhile isBlank, ((cs.dropWhile isBlank).reverse.takeWhile isBlank).reverse, ?_,
    fun c hc => List.mem_takeWhile_imp hc,
    fun c hc => List.mem_takeWhile_imp (List.mem_reverse.mp hc)⟩
  rw [dropOuterBlanks, hsplit, List.takeWhile_append_dropWhile]

theorem dropOuterBlanks_eq_nil_iff {cs : List Char} :
    dropOuterBlanks cs = [] ↔ ∀ c ∈ cs, isBlank c = true := by
  constructor
  · intro hnil
    obtain ⟨before, after, hcs, hbefore, hafter⟩ := exists_outer_blanks cs
    rw [hnil, List.nil_append] at hcs
    rw [hcs]
    exact fun c hc => (List.mem_append.mp hc).elim (hbefore c) (hafter c)
  · intro hblank
    rw [← List.append_nil cs, dropOuterBlanks_append_left hblank]
    rfl

/-! ### Pieces -/

theorem pieces_append_left {sep : Char} (h : sep ∉ bs) (cs : List Char) :
    ∃ p ps, pieces sep cs = p :: ps ∧ pieces sep (bs ++ cs) = (bs ++ p) :: ps := by
  induction bs with
  | nil =>
    have hne : pieces sep cs ≠ [] := by
      cases cs with
      | nil => simp [pieces]
      | cons c cs =>
        rw [pieces]
        repeat' split
        all_goals simp
    obtain ⟨p, ps, hps⟩ := List.exists_cons_of_ne_nil hne
    exact ⟨p, ps, hps, hps⟩
  | cons b bs ih =>
    obtain ⟨hb, hbs⟩ := not_or.mp (mt List.mem_cons.mpr h)
    obtain ⟨p, ps, hps, happend⟩ := ih hbs
    refine ⟨p, ps, hps, ?_⟩
    rw [List.cons_append, pieces, if_neg (Ne.symm hb), happend, List.cons_append]

theorem pieces_append_right {sep : Char} (h : sep ∉ bs) (cs : List Char) :
    ∃ ps p, pieces sep cs = ps ++ [p] ∧ pieces sep (cs ++ bs) = ps ++ [p ++ bs] := by
  induction cs with
  | nil =>
    obtain ⟨p, ps, hps, happend⟩ := pieces_append_left h []
    obtain ⟨rfl, rfl⟩ := List.cons.inj (hps : [[]] = p :: ps)
    rw [List.append_nil] at happend
    exact ⟨[], [], rfl, happend⟩
  | cons c cs ih =>
    obtain ⟨ps, p, hps, happend⟩ := ih
    by_cases hc : c = sep
    · refine ⟨[] :: ps, p, ?_, ?_⟩
      · rw [pieces, if_pos hc, hps, List.cons_append]
      · rw [List.cons_append, pieces, if_pos hc, happend, List.cons_append]
    · -- the character belongs to the first piece, which may be the last one
      rw [List.cons_append, pieces, pieces, if_neg hc, if_neg hc, hps, happend]
      cases ps with
      | nil => exact ⟨[], c :: p, rfl, rfl⟩
      | cons q ps => exact ⟨(c :: q) :: ps, p, rfl, rfl⟩

theorem mem_of_mem_pieces {sep c : Char} {cs p : List Char} (hp : p ∈ pieces sep cs)
    (hc : c ∈ p) : c ∈ cs := by
  induction cs generalizing p with
  | nil => exact List.mem_singleton.mp hp ▸ hc
  | cons x cs ih =>
    by_cases hx : x = sep
    · rw [pieces, if_pos hx] at hp
      rcases List.mem_cons.mp hp with rfl | hp
      · exact absurd hc List.not_mem_nil
      · exact List.mem_cons_of_mem _ (ih hp hc)
    · obtain ⟨q, qs, hqs, happend⟩ := pieces_append_left (mt List.mem_singleton.mp (Ne.symm hx)) cs
      rw [hqs] at ih
      rw [show x :: cs = [x] ++ cs from rfl, happend] at hp
      rcases List.mem_cons.mp hp with rfl | hp
      · rcases List.mem_append.mp hc with hc | hc
        · exact List.mem_append_left cs hc
        · exact List.mem_cons_of_mem _ (ih List.mem_cons_self hc)
      · exact List.mem_cons_of_mem _ (ih (List.mem_cons_of_mem _ hp) hc)

/-- A text can be cut before or after the blanks around it are dropped. -/
theorem map_trim_pieces {sep : Char} (hsep : isBlank sep = false) (cs : List Char) :
    (pieces sep (dropOuterBlanks cs)).map dropOuterBlanks =
      (pieces sep cs).map dropOuterBlanks := by
  have hnot : ∀ {bs : List Char}, (∀ c ∈ bs, isBlank c = true) → sep ∉ bs := by
    intro bs hbs hmem
    rw [hbs sep hmem] at hsep
    cases hsep
  obtain ⟨before, after, hcs, hbefore, hafter⟩ := exists_outer_blanks cs
  obtain ⟨p, ps, hps, hfront⟩ := pieces_append_left (hnot hbefore) (dropOuterBlanks cs ++ after)
  obtain ⟨qs, q, hqs, hback⟩ := pieces_append_right (hnot hafter) (dropOuterBlanks cs)
  calc (pieces sep (dropOuterBlanks cs)).map dropOuterBlanks
      = (pieces sep (dropOuterBlanks cs ++ after)).map dropOuterBlanks := by
        rw [hqs, hback, List.map_append, List.map_append, List.map_singleton, List.map_singleton,
          dropOuterBlanks_append hafter]
    _ = (pieces sep (before ++ (dropOuterBlanks cs ++ after))).map dropOuterBlanks := by
        rw [hps, hfront, List.map_cons, List.map_cons, dropOuterBlanks_append_left hbefore]
    _ = (pieces sep cs).map dropOuterBlanks := by rw [← hcs]

end Flowscript.Text
