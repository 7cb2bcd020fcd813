/-
The order of texts is the order of their bytes.

Texts are compared by their characters, and a character is written in UTF-8 as one to four bytes.
A smaller character is written with a smaller byte at the first place where the two differ, so it
makes no difference whether characters or bytes are compared:

* `encode_below` — the bytes of a smaller character are smaller, whatever follows;
* `precedes_iff` — the lexicographic order of the bytes is the order of the texts.
-/
import Mathlib.Data.List.Lex
import Mathlib.Tactic.SplitIfs

namespace Flowscript

namespace Text

/-- The bytes of a text. -/
def bytes (s : String) : List UInt8 := s.toUTF8.data.toList

/-- One text comes before another if its bytes do. -/
def Precedes (s t : String) : Prop := bytes s < bytes t

instance (s t : String) : Decidable (Precedes s t) := inferInstanceAs (Decidable (_ < _))

theorem bytes_eq (s : String) : bytes s = s.toList.flatMap String.utf8EncodeChar := by
  rw [bytes, String.toUTF8_eq_toByteArray, ← String.utf8Encode_toList, List.utf8Encode,
    List.toList_data_toByteArray]

/-- The first bytes decide, whatever follows them. -/
def Below (as bs : List UInt8) : Prop := ∀ r r', as ++ r < bs ++ r'

/-- Two sequences are compared by their first bytes, and by the rest only if these are equal. -/
theorem below_ofNat_cons {m n : Nat} {as bs : List UInt8} (hle : m ≤ n) (hn : n < 256)
    (h : m = n → Below as bs) : Below (UInt8.ofNat m :: as) (UInt8.ofNat n :: bs) := by
  intro r r'
  rcases Nat.eq_or_lt_of_le hle with heq | hlt
  · rw [heq]
    exact .cons (h heq r r')
  · refine .rel (UInt8.lt_iff_toNat_lt.mpr ?_)
    rw [UInt8.toNat_ofNat', UInt8.toNat_ofNat']
    omega

/-- The bytes of a smaller character are smaller. -/
theorem encode_below {c d : Char} (h : c < d) :
    Below (String.utf8EncodeChar c) (String.utf8EncodeChar d) := by
  have hlt : c.val.toNat < d.val.toNat := h
  have hd : d.val.toNat < 0x110000 := by
    rcases d.valid with hd | hd <;> omega
  -- a character with fewer bytes has a smaller first byte; with equally many, the bytes are digits
  rw [String.utf8EncodeChar, String.utf8EncodeChar]
  split_ifs
  all_goals
    try omega
  all_goals
    refine below_ofNat_cons (by omega) (by omega) fun h₁ => ?_
    try omega
  all_goals
    refine below_ofNat_cons (by omega) (by omega) fun h₂ => ?_
    try omega
  all_goals
    refine below_ofNat_cons (by omega) (by omega) fun h₃ => ?_
    try omega
  refine below_ofNat_cons (by omega) (by omega) fun h₄ => ?_
  omega

theorem bytes_lt {cs ds : List Char} (h : cs < ds) :
    cs.flatMap String.utf8EncodeChar < ds.flatMap String.utf8EncodeChar := by
  induction h with
  | @nil d ds =>
    obtain ⟨b, bs, hb⟩ := List.exists_cons_of_ne_nil (String.utf8EncodeChar_ne_nil (c := d))
    rw [List.flatMap_cons, hb]
    exact .nil
  | @cons c cs ds _ ih =>
    rw [List.flatMap_cons, List.flatMap_cons]
    exact List.Lex.append_left (· < ·) ih _
  | rel h =>
    rw [List.flatMap_cons, List.flatMap_cons]
    exact encode_below h _ _

/-- Comparing the bytes of two texts is comparing the texts. -/
theorem precedes_iff {s t : String} : Precedes s t ↔ s < t := by
  have hlt : ∀ {s t : String}, s < t → Precedes s t := by
    intro s t h
    rw [Precedes, bytes_eq, bytes_eq]
    exact bytes_lt h
  refine ⟨fun h => ?_, hlt⟩
  by_contra hst
  by_cases hts : t < s
  · exact List.lt_asymm h (hlt hts)
  · obtain rfl := String.le_antisymm (String.not_lt.mp hst) (String.not_lt.mp hts)
    exact List.lt_irrefl _ h

end Text

end Flowscript
