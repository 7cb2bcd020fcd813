/-
Texts of values.

The text of a value is scanned from left to right, and what is scanned is the value's source.  The
induction is on the value; it carries the text behind the value, which must not go on with a
number, and enough fuel, two for each character of the value's text.

* `quoted_quote` — a quoted text is unquoted;
* `scans_of_readsBack` — the text of a value in front of another text;
* `ofText_render` — the text of a value alone.
-/
import Flowscript.Proofs.Json.Number
import Flowscript.Proofs.Json.Value
import Mathlib.Data.List.DropRight

namespace Flowscript.Json.Source

open Text

/-! ### Quoted texts -/

theorem hexValue?_hexDigit {n : Nat} (h : n < 16) : hexValue? (hexDigit n) = some n := by
  have hall : ∀ n < 16, hexValue? (hexDigit n) = some n := by decide
  exact hall n h

theorem unit?_hexDigit {n : Nat} (h : n < 0x20) :
    unit? '0' '0' (hexDigit (n / 16)) (hexDigit (n % 16)) = some n := by
  have hzero : hexValue? '0' = some 0 := rfl
  rw [unit?, hzero, hexValue?_hexDigit (by omega), hexValue?_hexDigit (by omega)]
  show some ((0 * 16 + 0) * 256 + n / 16 * 16 + n % 16) = some n
  rw [Option.some_inj]
  omega

theorem join_char (c : Char) (ps : List Piece) :
    join none (.char c :: ps) = (join none ps).map (c :: ·) := by
  rw [join]
  cases join none ps <;> rfl

/-- Below the surrogates a unit is a character, whatever follows. -/
theorem join_unit {n : Nat} (h : n < 0x20) (ps : List Piece) :
    join none (.unit n :: ps) = (join none ps).map (Char.ofNat n :: ·) := by
  have htrailing : isTrailing n = false := by simp [isTrailing]; omega
  have hleading : isLeading n = false := by simp [isLeading]; omega
  rw [join.eq_def]
  split
  · next heq => cases heq
  · next heq => cases heq
  · next heq =>
    cases heq
    simp only [htrailing, hleading, Bool.false_eq_true, if_false]
    cases join none _ <;> rfl
  · next heq =>
    cases heq
    simp only [htrailing, hleading, Bool.false_eq_true, if_false]
    cases join none _ <;> rfl

theorem pieces_simpleEscape {c x : Char} (hc : c ≠ 'u') (hx : simpleEscape? c = some x)
    (cs : List Char) :
    pieces ('\\' :: c :: cs) = (.char x :: (pieces cs).1, (pieces cs).2) := by
  rw [pieces.eq_5 c cs (fun _ _ _ _ _ h _ => hc h) hc, hx]

theorem pieces_unit {a b c d : Char} {n : Nat} (h : unit? a b c d = some n) (cs : List Char) :
    pieces ('\\' :: 'u' :: a :: b :: c :: d :: cs) =
      (.unit n :: (pieces cs).1, (pieces cs).2) := by
  rw [pieces, h]

theorem pieces_plain {c : Char} (hquote : c ≠ '"') (hslash : c ≠ '\\') (hc : ¬ c.toNat < 0x20)
    (cs : List Char) : pieces (c :: cs) = (.char c :: (pieces cs).1, (pieces cs).2) := by
  rw [pieces.eq_def]
  split
  · next heq => cases heq
  · next heq => cases heq; exact absurd rfl hquote
  · next heq => cases heq; exact absurd rfl hslash
  · next heq => cases heq; exact absurd rfl hslash
  · next heq => cases heq; exact absurd rfl hslash
  · next heq => cases heq; exact absurd rfl hslash
  · next heq =>
    cases heq
    rw [if_neg hc]

/-- The piece that is read where a character was written, and that stands for it. -/
def Piece.Spells (p : Piece) (c : Char) : Prop :=
  (∀ cs, pieces (escapeJson c ++ cs) = (p :: (pieces cs).1, (pieces cs).2)) ∧
    ∀ ps, join none (p :: ps) = (join none ps).map (c :: ·)

theorem spells_char {c e : Char} (he : e ≠ 'u') (hc : simpleEscape? e = some c)
    (htext : escapeJson c = ['\\', e]) : (Piece.char c).Spells c :=
  ⟨fun cs => by rw [htext]; exact pieces_simpleEscape he hc cs, join_char c⟩

theorem exists_spells (c : Char) : ∃ p : Piece, p.Spells c := by
  by_cases hquote : c = '"'
  · subst hquote
    exact ⟨_, spells_char (e := '"') (by decide) rfl rfl⟩
  by_cases hslash : c = '\\'
  · subst hslash
    exact ⟨_, spells_char (e := '\\') (by decide) rfl rfl⟩
  by_cases hlf : c = '\n'
  · subst hlf
    exact ⟨_, spells_char (e := 'n') (by decide) rfl rfl⟩
  by_cases hcr : c = '\r'
  · subst hcr
    exact ⟨_, spells_char (e := 'r') (by decide) rfl rfl⟩
  by_cases htab : c = '\t'
  · subst htab
    exact ⟨_, spells_char (e := 't') (by decide) rfl rfl⟩
  by_cases hbackspace : c.toNat = 8
  · obtain rfl : c = Char.ofNat 8 := by rw [← hbackspace, Char.ofNat_toNat]
    exact ⟨_, spells_char (e := 'b') (by decide) rfl rfl⟩
  by_cases hfeed : c.toNat = 12
  · obtain rfl : c = Char.ofNat 12 := by rw [← hfeed, Char.ofNat_toNat]
    exact ⟨_, spells_char (e := 'f') (by decide) rfl rfl⟩
  by_cases hcontrol : c.toNat < 0x20
  · refine ⟨.unit c.toNat, fun cs => ?_, fun ps => ?_⟩
    · rw [escapeJson, if_neg hquote, if_neg hslash, if_neg hlf, if_neg hcr, if_neg htab,
        if_neg hbackspace, if_neg hfeed, if_pos hcontrol]
      exact pieces_unit (unit?_hexDigit hcontrol) cs
    · rw [join_unit hcontrol, Char.ofNat_toNat]
  · refine ⟨.char c, fun cs => ?_, join_char c⟩
    rw [escapeJson, if_neg hquote, if_neg hslash, if_neg hlf, if_neg hcr, if_neg htab,
      if_neg hbackspace, if_neg hfeed, if_neg hcontrol]
    exact pieces_plain hquote hslash hcontrol cs

theorem exists_pieces (cs rest : List Char) :
    ∃ ps, pieces (cs.flatMap escapeJson ++ '"' :: rest) = (ps, .ok rest) ∧
      join none ps = .ok cs := by
  induction cs with
  | nil => exact ⟨[], rfl, rfl⟩
  | cons c cs ih =>
    obtain ⟨ps, hpieces, hjoin⟩ := ih
    obtain ⟨p, hp, hc⟩ := exists_spells c
    refine ⟨p :: ps, ?_, ?_⟩
    · rw [List.flatMap_cons, List.append_assoc, hp, hpieces]
    · rw [hc, hjoin]
      rfl

theorem quoted_quote (s : String) (rest : List Char) :
    quoted (s.toList.flatMap escapeJson ++ '"' :: rest) = (.string (.ok s), some rest) := by
  obtain ⟨ps, hpieces, hjoin⟩ := exists_pieces s.toList rest
  rw [quoted, hpieces]
  simp only [hjoin, Except.map, String.ofList_toList]

theorem scan_quote (fuel : Nat) (s : String) (rest : List Char) :
    scan (fuel + 1) ((quote s).toList ++ rest) = (.string (.ok s), some rest) := by
  have htext : (quote s).toList ++ rest = '"' :: (s.toList.flatMap escapeJson ++ '"' :: rest) := by
    simp [quote, quoteWith]
  rw [htext, scan, List.dropWhile_cons_of_neg (by decide)]
  exact quoted_quote s rest

/-! ### Items and members -/

theorem scan_dropWhile (fuel : Nat) (cs : List Char) :
    scan fuel (cs.dropWhile isSpace) = scan fuel cs := by
  cases fuel with
  | zero => rfl
  | succ fuel => rw [scan, scan, List.dropWhile_idempotent]

/-- A value that is found begins neither with the end of the text nor with a closing bracket. -/
theorem exists_cons_of_scan {fuel : Nat} {cs after : List Char} {s : Source}
    (h : scan fuel cs = (s, some after)) :
    ∃ c rest, cs.dropWhile isSpace = c :: rest ∧ c ≠ ']' ∧ c ≠ '\x7d' := by
  rw [← scan_dropWhile] at h
  cases fuel with
  | zero => cases h
  | succ fuel =>
    rw [scan, List.dropWhile_idempotent] at h
    cases hcs : cs.dropWhile isSpace with
    | nil =>
      rw [hcs] at h
      cases h
    | cons c rest =>
      rw [hcs] at h
      refine ⟨c, rest, rfl, ?_, ?_⟩ <;> rintro rfl <;> cases h

/-- The first item stands at once, each other behind a comma. -/
theorem scanItems_cons {fuel : Nat} {cs after : List Char} {s : Source} (first : Bool)
    (h : scan fuel cs = (s, some after)) :
    scanItems (fuel + 1) first (if first then cs else ',' :: cs) =
      (s :: (scanItems fuel false after).1, (scanItems fuel false after).2) := by
  cases first with
  | true =>
    obtain ⟨c, rest, hcs, hc, -⟩ := exists_cons_of_scan h
    rw [← scan_dropWhile, hcs] at h
    rw [if_pos rfl, scanItems, hcs]
    split
    · next heq => cases heq
    · next heq => cases heq; exact absurd rfl hc
    · next heq =>
      cases heq
      simp only [Bool.true_or, if_true, h]
  | false =>
    rw [if_neg Bool.false_ne_true, scanItems, List.dropWhile_cons_of_neg (by decide)]
    split
    · next heq => cases heq
    · next heq => cases heq
    · next heq =>
      cases heq
      simp only [Bool.false_or, decide_true, if_true, Bool.false_eq_true, if_false, h]

/-- A member is a name, a colon and a value. -/
theorem scanMembers_cons {fuel : Nat} {cs colon after : List Char} {k : Except Flaw String}
    {s : Source} (first : Bool) (hkey : scan fuel cs = (.string k, some (':' :: colon)))
    (h : scan fuel colon = (s, some after)) :
    scanMembers (fuel + 1) first (if first then cs else ',' :: cs) =
      ((.string k, s) :: (scanMembers fuel false after).1, (scanMembers fuel false after).2) := by
  have hcolon : (':' :: colon).dropWhile isSpace = ':' :: colon :=
    List.dropWhile_cons_of_neg (by decide)
  cases first with
  | true =>
    obtain ⟨c, rest, hcs, -, hc⟩ := exists_cons_of_scan hkey
    rw [← scan_dropWhile, hcs] at hkey
    rw [if_pos rfl, scanMembers, hcs]
    split
    · next heq => cases heq
    · next heq => cases heq; exact absurd rfl hc
    · next heq =>
      cases heq
      simp only [Bool.true_or, if_true, hkey, hcolon, h]
  | false =>
    rw [if_neg Bool.false_ne_true, scanMembers, List.dropWhile_cons_of_neg (by decide)]
    split
    · next heq => cases heq
    · next heq => cases heq
    · next heq =>
      cases heq
      simp only [Bool.false_or, decide_true, if_true, Bool.false_eq_true, if_false, hkey, hcolon, h]

theorem toList_intercalate (sep s : String) (l : List String) :
    (String.intercalate sep (s :: l)).toList =
      s.toList ++ l.flatMap (fun t => sep.toList ++ t.toList) := by
  induction l generalizing s with
  | nil => simp
  | cons t l ih =>
    rw [String.intercalate_cons_cons, String.toList_append, String.toList_append, ih]
    simp

/-- Behind a value stands a comma or the closing mark. -/
theorem stops_flatMap {α : Type} (text : α → List Char) (l : List α) {close : Char}
    (hclose : close = ']' ∨ close = '\x7d') (rest : List Char) :
    Stops (l.flatMap (fun a => ',' :: text a) ++ close :: rest) := by
  intro c hc
  cases l with
  | nil =>
    cases hc
    exact .inr hclose
  | cons a l =>
    cases hc
    exact .inl rfl

/-! ### Whole values -/

/-- The text of the value is found in front of any text that cannot go on with it. -/
def Scans (v : Value) : Prop :=
  ∀ fuel rest, 2 * v.render.toList.length ≤ fuel → Stops rest →
    scan fuel (v.render.toList ++ rest) = (v.source, some rest)

theorem scanItems_tail {vs : List Value} (h : ∀ v ∈ vs, Scans v) {fuel : Nat} {rest : List Char}
    (hfuel : 2 * (vs.flatMap fun v => ',' :: v.render.toList).length < fuel) :
    scanItems fuel false (vs.flatMap (fun v => ',' :: v.render.toList) ++ ']' :: rest) =
      (vs.map Value.source, none, some rest) := by
  induction vs generalizing fuel with
  | nil =>
    obtain ⟨fuel, rfl⟩ : ∃ k, fuel = k + 1 := ⟨fuel - 1, by omega⟩
    rfl
  | cons v vs ih =>
    simp only [List.flatMap_cons, List.length_append, List.length_cons] at hfuel
    obtain ⟨fuel, rfl⟩ : ∃ k, fuel = k + 1 := ⟨fuel - 1, by omega⟩
    have hv := h v List.mem_cons_self fuel _ (by omega)
      (stops_flatMap (fun v => v.render.toList) vs (.inl rfl) rest)
    have hcons := scanItems_cons false hv
    rw [if_neg Bool.false_ne_true,
      ih (fun v hv => h v (List.mem_cons_of_mem _ hv)) (by omega)] at hcons
    rw [List.flatMap_cons, List.cons_append, List.cons_append, List.append_assoc, hcons,
      List.map_cons]

/-- The text of a member. -/
def memberText (m : String × Value) : List Char :=
  (quote m.1).toList ++ ':' :: m.2.render.toList

theorem scanMembers_member (first : Bool) {m : String × Value} (h : Scans m.2) (fuel : Nat)
    (hfuel : 2 * (memberText m).length ≤ fuel) {rest : List Char} (hrest : Stops rest) :
    scanMembers (fuel + 1) first
        (if first then memberText m ++ rest else ',' :: (memberText m ++ rest)) =
      ((.string (.ok m.1), m.2.source) :: (scanMembers fuel false rest).1,
        (scanMembers fuel false rest).2) := by
  have htext : memberText m ++ rest = (quote m.1).toList ++ ':' :: (m.2.render.toList ++ rest) := by
    rw [memberText, List.append_assoc, List.cons_append]
  rw [memberText, List.length_append, List.length_cons] at hfuel
  obtain ⟨fuel, rfl⟩ : ∃ k, fuel = k + 1 := ⟨fuel - 1, by omega⟩
  rw [htext]
  exact scanMembers_cons first (scan_quote fuel m.1 _) (h _ rest (by omega) hrest)

theorem scanMembers_tail {ms : List (String × Value)} (h : ∀ m ∈ ms, Scans m.2) {fuel : Nat}
    {rest : List Char} (hfuel : 2 * (ms.flatMap fun m => ',' :: memberText m).length < fuel) :
    scanMembers fuel false (ms.flatMap (fun m => ',' :: memberText m) ++ '\x7d' :: rest) =
      (memberSources ms, none, some rest) := by
  induction ms generalizing fuel with
  | nil =>
    obtain ⟨fuel, rfl⟩ : ∃ k, fuel = k + 1 := ⟨fuel - 1, by omega⟩
    rfl
  | cons m ms ih =>
    simp only [List.flatMap_cons, List.length_append, List.length_cons] at hfuel
    obtain ⟨fuel, rfl⟩ : ∃ k, fuel = k + 1 := ⟨fuel - 1, by omega⟩
    have hm := scanMembers_member false (h m List.mem_cons_self) fuel (by omega)
      (stops_flatMap memberText ms (.inr rfl) rest)
    rw [if_neg Bool.false_ne_true,
      ih (fun m hm => h m (List.mem_cons_of_mem _ hm)) (by omega)] at hm
    rw [List.flatMap_cons, List.cons_append, List.cons_append, List.append_assoc, hm]
    rfl

theorem scans_array {items : List Value} (h : ∀ v ∈ items, Scans v) : Scans (.array items) := by
  intro fuel rest hfuel hrest
  cases items with
  | nil =>
    obtain ⟨fuel, rfl⟩ : ∃ k, fuel = k + 2 := ⟨fuel - 2, by simp [Value.render] at hfuel; omega⟩
    rfl
  | cons v vs =>
    have htext : (Value.array (v :: vs)).render.toList =
        '[' :: (v.render.toList ++ (vs.flatMap (fun v => ',' :: v.render.toList) ++ [']'])) := by
      rw [Value.render, Value.renderItems_eq_map, List.map_cons, String.toList_append,
        String.toList_append, toList_intercalate, List.flatMap_map]
      simp
    rw [htext] at hfuel ⊢
    simp only [List.length_cons, List.length_append, List.length_nil] at hfuel
    obtain ⟨fuel, rfl⟩ : ∃ k, fuel = k + 2 := ⟨fuel - 2, by omega⟩
    have hv := scanItems_cons true (h v List.mem_cons_self fuel _ (by omega)
      (stops_flatMap (fun v => v.render.toList) vs (.inl rfl) rest))
    rw [if_pos rfl, scanItems_tail (fun v hv => h v (List.mem_cons_of_mem _ hv)) (by omega)] at hv
    simp only [List.cons_append, List.append_assoc, List.nil_append]
    rw [scan, List.dropWhile_cons_of_neg (by decide)]
    simp only [hv, Value.source, itemSources_eq_map, List.map_cons]

theorem scans_object {members : List (String × Value)} (h : ∀ m ∈ members, Scans m.2) :
    Scans (.object members) := by
  intro fuel rest hfuel hrest
  cases members with
  | nil =>
    obtain ⟨fuel, rfl⟩ : ∃ k, fuel = k + 2 := ⟨fuel - 2, by simp [Value.render] at hfuel; omega⟩
    rfl
  | cons m ms =>
    have htext : (Value.object (m :: ms)).render.toList =
        '\x7b' :: (memberText m ++ (ms.flatMap (fun m => ',' :: memberText m) ++ ['\x7d'])) := by
      rw [Value.render, Value.renderMembers_eq_map, List.map_cons, String.toList_append,
        String.toList_append, toList_intercalate, List.flatMap_map]
      simp [memberText]
    rw [htext] at hfuel ⊢
    simp only [List.length_cons, List.length_append, List.length_nil] at hfuel
    obtain ⟨fuel, rfl⟩ : ∃ k, fuel = k + 2 := ⟨fuel - 2, by omega⟩
    have hm := scanMembers_member true (h m List.mem_cons_self) fuel (by omega)
      (stops_flatMap memberText ms (.inr rfl) rest)
    rw [if_pos rfl, scanMembers_tail (fun m hm => h m (List.mem_cons_of_mem _ hm)) (by omega)] at hm
    simp only [List.cons_append, List.append_assoc, List.nil_append]
    rw [scan, List.dropWhile_cons_of_neg (by decide)]
    simp only [hm, Value.source, memberSources]

theorem length_pos_of_readsBack {n : Number} (h : n.ReadsBack) : 0 < n.render.toList.length := by
  obtain ⟨r, hscan, -⟩ := exists_scan_of_ofText h
  cases hcs : n.render.toList with
  | nil =>
    rw [hcs] at hscan
    cases hscan
  | cons c cs => exact Nat.succ_pos _

/-- The text of a value is scanned as the value, if its numbers read back. -/
theorem scans_of_readsBack {v : Value} (h : ∀ n ∈ v.numbers, n.ReadsBack) : Scans v := by
  induction v using Value.induct with
  | null =>
    intro fuel rest hfuel hrest
    obtain ⟨fuel, rfl⟩ : ∃ k, fuel = k + 1 := ⟨fuel - 1, by simp [Value.render] at hfuel; omega⟩
    rfl
  | bool b =>
    intro fuel rest hfuel hrest
    cases b <;>
    · obtain ⟨fuel, rfl⟩ : ∃ k, fuel = k + 1 := ⟨fuel - 1, by simp [Value.render] at hfuel; omega⟩
      rfl
  | number n =>
    intro fuel rest hfuel hrest
    have hback : n.ReadsBack := h n (by simp [Value.numbers])
    rw [Value.render] at hfuel ⊢
    have hpos := length_pos_of_readsBack hback
    obtain ⟨fuel, rfl⟩ : ∃ k, fuel = k + 1 := ⟨fuel - 1, by omega⟩
    exact scan_number hback fuel hrest
  | string s =>
    intro fuel rest hfuel hrest
    obtain ⟨fuel, rfl⟩ : ∃ k, fuel = k + 1 :=
      ⟨fuel - 1, by simp [Value.render, quote, quoteWith] at hfuel; omega⟩
    exact scan_quote fuel s rest
  | array items ih =>
    exact scans_array fun v hv => ih v hv fun n hn =>
      h n (Value.mem_numbers_array.mpr ⟨v, hv, hn⟩)
  | object members ih =>
    exact scans_object fun m hm => ih m hm fun n hn =>
      h n (Value.mem_numbers_object.mpr ⟨m, hm, hn⟩)

theorem ofText_render {v : Value} (h : ∀ n ∈ v.numbers, n.ReadsBack) :
    ofText v.render = (v.source, none) := by
  have hstops : Stops [] := fun _ hc => by cases hc
  have hscan := scans_of_readsBack h (2 * v.render.toList.length + 2) [] (by omega) hstops
  rw [List.append_nil] at hscan
  rw [ofText, hscan]
  rfl

end Flowscript.Json.Source
