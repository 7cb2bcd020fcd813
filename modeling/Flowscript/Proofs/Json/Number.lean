/-
Numbers that are written and read back.

A number in a text ends where the characters stop that could go on with it, so what is read of it
does not depend on what comes after a comma, a bracket or a brace.  An integer of 64 bits is read
as it was written.  Whether a double is, depends on the double: the reader takes it from a
coefficient and a power of ten by a single operation, which may round.  `Number.ReadsBack` says
that it is.

* `isLocal_numeral` — what is read of a number in front of a text does not depend on the text
  behind it;
* `scan_number` — a number that reads back alone reads back in front of a comma or a bracket;
* `readsBack_integer` — integers of 64 bits, signed or unsigned, read back;
* `fits_of_readNumeral` — no other integers are ever read.
-/
import Flowscript.Json.Source
import Flowscript.Proofs.Outcome
import Mathlib.Data.List.TakeWhile

namespace Flowscript

namespace Json

/-- The written number is a text from which the number is read. -/
def Number.ReadsBack (n : Number) : Prop := Source.ofText n.render = (.number (.ok n), none)

/-- Reads the written number and compares. -/
def Number.readsBack (n : Number) : Bool :=
  match Source.ofText n.render with
  | (.number (.ok m), none) => m == n
  | _ => false

theorem Number.readsBack_iff (n : Number) : n.readsBack = true ↔ n.ReadsBack := by
  rw [readsBack, ReadsBack]
  constructor
  · intro h
    split at h
    · next heq => rw [heq, beq_iff_eq.mp h]
    · cases h
  · intro h
    rw [h]
    exact beq_self_eq_true n

instance (n : Number) : Decidable n.ReadsBack := decidable_of_iff _ n.readsBack_iff

/-- An integer has to fit 64 bits, signed or unsigned. -/
def Number.Fits : Number → Prop
  | .integer i => -9223372036854775808 ≤ i ∧ i < 18446744073709551616
  | .real _ => True

/-- The characters of a number. -/
def isNumeric (c : Char) : Bool :=
  c.isDigit || c == '.' || c == 'e' || c == '+' || c == '-'

namespace Source

/-- A text that cannot go on with a value that ends in front of it. -/
def Stops (rest : List Char) : Prop :=
  ∀ c ∈ rest.head?, c = ',' ∨ c = ']' ∨ c = '\x7d'

/-! ### What is read does not depend on what follows -/

/-- Reading looks at nothing behind the place where it ends. -/
def IsLocal {ε α : Type} (p : List Char → Except ε (α × List Char)) : Prop :=
  ∀ cs a after, p cs = .ok (a, after) →
    after <:+ cs ∧ ∀ rest, Stops rest → p (cs ++ rest) = .ok (a, after ++ rest)

theorem digits_append {rest : List Char} (hrest : Stops rest) (cs : List Char) :
    digits (cs ++ rest) = ((digits cs).1, (digits cs).2 ++ rest) := by
  induction cs with
  | nil =>
    cases rest with
    | nil => rfl
    | cons c rest =>
      have hc : c.isDigit = false := by
        rcases hrest c rfl with rfl | rfl | rfl <;> rfl
      simp [digits, hc]
  | cons c cs ih =>
    have htake := congrArg Prod.fst ih
    have hdrop := congrArg Prod.snd ih
    rw [digits, digits] at htake hdrop
    cases hc : c.isDigit <;> simp_all [digits]

theorem isLocal_someDigits : IsLocal someDigits := by
  intro cs a after h
  cases cs with
  | nil => cases h
  | cons c cs =>
    rw [someDigits] at h
    split at h
    · next hc =>
      cases h
      refine ⟨List.dropWhile_suffix _, fun rest hrest => ?_⟩
      rw [List.cons_append, someDigits, if_pos hc, ← List.cons_append, digits_append hrest]
      rfl
    · cases h

theorem isLocal_wholeDigits : IsLocal wholeDigits := by
  intro cs a after h
  rw [wholeDigits.eq_def] at h
  split at h
  · next c cs =>
    split at h
    · cases h
    · next hc =>
      obtain ⟨hafter, hlocal⟩ := isLocal_someDigits _ _ _ h
      refine ⟨hafter, fun rest hrest => ?_⟩
      rw [List.cons_append, List.cons_append, wholeDigits, if_neg hc]
      exact hlocal rest hrest
  · next hzero =>
    obtain ⟨hafter, hlocal⟩ := isLocal_someDigits _ _ _ h
    refine ⟨hafter, fun rest hrest => ?_⟩
    rw [wholeDigits.eq_def]
    split
    · next c cs' heq =>
      -- a single zero, so that the second character is the first of what follows
      rcases cs with _ | ⟨c₀, _ | ⟨c₁, cs⟩⟩
      · cases h
      · simp only [List.cons_append, List.nil_append, List.cons.injEq] at heq
        have hc : c.isDigit = false := by
          rcases hrest c (by rw [heq.2]; rfl) with rfl | rfl | rfl <;> rfl
        rw [if_neg (by rw [hc]; exact Bool.false_ne_true)]
        have := hlocal rest hrest
        simpa [heq] using this
      · simp only [List.cons_append, List.cons.injEq] at heq
        exact absurd (by rw [heq.1]) (hzero c₁ cs)
    · exact hlocal rest hrest

theorem isLocal_fractionPart : IsLocal fractionPart := by
  intro cs a after h
  rw [fractionPart.eq_def] at h
  split at h
  · next cs =>
    obtain ⟨hafter, hlocal⟩ := isLocal_someDigits _ _ _ h
    exact ⟨hafter.trans (List.suffix_cons _ _), fun rest hrest => hlocal rest hrest⟩
  · next hpoint =>
    cases h
    refine ⟨List.suffix_rfl, fun rest hrest => ?_⟩
    rw [fractionPart.eq_def]
    split
    · next cs' heq =>
      rcases cs with _ | ⟨c₀, cs⟩
      · rcases hrest '.' (by rw [← List.nil_append rest, heq]; rfl) with h | h | h <;> cases h
      · simp only [List.cons_append, List.cons.injEq] at heq
        exact absurd (by rw [heq.1]) (hpoint cs)
    · rfl

/-- The sign of an exponent and the text behind it. -/
def exponentSign : List Char → Bool × List Char
  | '+' :: cs => (false, cs)
  | '-' :: cs => (true, cs)
  | cs => (false, cs)

theorem exponentPart_cons (c : Char) (cs : List Char) :
    exponentPart (c :: cs) =
      if c = 'e' || c = 'E' then do
        let (ds, after) ← someDigits (exponentSign cs).2
        let e : Nat := ds.foldl (fun n d => n * 10 + d) 0
        return (some (if (exponentSign cs).1 then -(e : Int) else e), after)
      else .ok (none, c :: cs) := by
  rw [exponentPart.eq_def]
  dsimp only
  by_cases hc : (c = 'e' || c = 'E') = true
  · rw [if_pos hc, if_pos hc]
    split
    · rfl
    · rfl
    · next hplus hminus => rw [exponentSign.eq_3 cs hplus hminus]
  · rw [if_neg hc, if_neg hc]

theorem exponentSign_append {cs : List Char} (hcs : cs ≠ []) (rest : List Char) :
    exponentSign (cs ++ rest) = ((exponentSign cs).1, (exponentSign cs).2 ++ rest) := by
  cases cs with
  | nil => exact absurd rfl hcs
  | cons c cs =>
    by_cases hplus : c = '+'
    · subst hplus; rfl
    by_cases hminus : c = '-'
    · subst hminus; rfl
    · simp [exponentSign, hplus, hminus]

theorem exponentSign_suffix (cs : List Char) : (exponentSign cs).2 <:+ cs := by
  rw [exponentSign.eq_def]
  split
  · exact List.suffix_cons _ _
  · exact List.suffix_cons _ _
  · exact List.suffix_rfl

theorem isLocal_exponentPart : IsLocal exponentPart := by
  intro cs a after h
  cases cs with
  | nil =>
    cases h
    refine ⟨List.suffix_rfl, fun rest hrest => ?_⟩
    cases rest with
    | nil => rfl
    | cons c rest =>
      rw [List.nil_append, exponentPart_cons, if_neg]
      rcases hrest c rfl with rfl | rfl | rfl <;> decide
  | cons c cs =>
    rw [exponentPart_cons] at h
    split at h
    · next hc =>
      obtain ⟨⟨ds, after'⟩, hds, hrest⟩ := bind_eq_ok.mp h
      cases hrest
      obtain ⟨hafter, hlocal⟩ := isLocal_someDigits _ _ _ hds
      refine ⟨(hafter.trans (exponentSign_suffix cs)).trans (List.suffix_cons _ _),
        fun rest hrest => ?_⟩
      have hcs : cs ≠ [] := by
        rintro rfl
        cases hds
      rw [List.cons_append, exponentPart_cons, if_pos hc, exponentSign_append hcs]
      exact bind_eq_ok.mpr ⟨_, hlocal rest hrest, rfl⟩
    · next hc =>
      cases h
      refine ⟨List.suffix_rfl, fun rest hrest => ?_⟩
      rw [List.cons_append, exponentPart_cons, if_neg hc]

theorem isLocal_numeral (negative : Bool) : IsLocal (numeral negative) := by
  intro cs a after h
  obtain ⟨⟨whole, cs₁⟩, hwhole, h⟩ := bind_eq_ok.mp h
  obtain ⟨⟨fraction, cs₂⟩, hfraction, h⟩ := bind_eq_ok.mp h
  obtain ⟨⟨exponent, cs₃⟩, hexponent, h⟩ := bind_eq_ok.mp h
  cases h
  obtain ⟨hafter₁, hlocal₁⟩ := isLocal_wholeDigits _ _ _ hwhole
  obtain ⟨hafter₂, hlocal₂⟩ := isLocal_fractionPart _ _ _ hfraction
  obtain ⟨hafter₃, hlocal₃⟩ := isLocal_exponentPart _ _ _ hexponent
  refine ⟨hafter₃.trans (hafter₂.trans hafter₁), fun rest hrest => ?_⟩
  exact bind_eq_ok.mpr ⟨_, hlocal₁ rest hrest, bind_eq_ok.mpr ⟨_, hlocal₂ rest hrest,
    bind_eq_ok.mpr ⟨_, hlocal₃ rest hrest, rfl⟩⟩⟩

/-! ### Numbers in front of a text -/

theorem ofNumeral_eq_number {negative : Bool} {cs : List Char} {x : Except Flaw Number}
    {r : Option (List Char)} (h : ofNumeral negative cs = (.number x, r)) :
    ∃ m after, numeral negative cs = .ok (m, after) ∧ readNumeral m = x ∧ r = some after := by
  rw [ofNumeral] at h
  split at h
  · next m after hm =>
    cases h
    exact ⟨m, after, hm, rfl, rfl⟩
  · cases h

theorem isSpace_of_isNumeric {c : Char} (hc : isNumeric c = true) : isSpace c = false := by
  cases hspace : isSpace c with
  | false => rfl
  | true =>
    simp only [isSpace, Bool.or_eq_true, beq_iff_eq] at hspace
    rcases hspace with ((rfl | rfl) | rfl) | rfl <;> cases hc

theorem scan_of_isNumeric (fuel : Nat) {c : Char} (hc : isNumeric c = true) (cs : List Char) :
    scan (fuel + 1) (c :: cs) =
      if c = '-' then ofNumeral true cs
      else if c.isDigit then ofNumeral false (c :: cs)
      else (missing .malformed, none) := by
  rw [scan, List.dropWhile_cons_of_neg (by simp [isSpace_of_isNumeric hc])]
  split
  · next heq => cases heq
  · next heq => cases heq; exact absurd hc (by decide)
  · next heq => cases heq; exact absurd hc (by decide)
  · next heq => cases heq; exact absurd hc (by decide)
  · next heq => cases heq; exact absurd hc (by decide)
  · next heq => cases heq; exact absurd hc (by decide)
  · next heq => cases heq; exact absurd hc (by decide)
  · next heq => cases heq; rfl
  · next hminus heq =>
    cases heq
    rw [if_neg hminus]

end Source

/-! ### The characters of written numbers -/

theorem isNumeric_of_mem_toDigits {n : Nat} {c : Char} (h : c ∈ Nat.toDigits 10 n) :
    isNumeric c = true := by
  simp [isNumeric, Nat.isDigit_of_mem_toDigits (by decide) (by decide) h]

theorem isNumeric_of_mem_positional {point : Bool} {d : Decimal} {c : Char}
    (h : c ∈ Decimal.positional point d) : isNumeric c = true := by
  rw [Decimal.positional] at h
  split at h
  · rw [List.mem_append, List.mem_append] at h
    rcases h with (h | h) | h
    · exact isNumeric_of_mem_toDigits h
    · rw [List.eq_of_mem_replicate h]; rfl
    · split at h
      · rw [List.mem_cons, List.mem_singleton] at h
        rcases h with rfl | rfl <;> rfl
      · cases h
  · dsimp only at h
    split at h
    · rw [List.mem_append, List.mem_cons] at h
      rcases h with h | rfl | h
      · exact isNumeric_of_mem_toDigits (List.mem_of_mem_take h)
      · rfl
      · exact isNumeric_of_mem_toDigits (List.mem_of_mem_drop h)
    · rw [List.mem_cons, List.mem_cons, List.mem_append] at h
      rcases h with rfl | rfl | h | h
      · rfl
      · rfl
      · rw [List.eq_of_mem_replicate h]; rfl
      · exact isNumeric_of_mem_toDigits h

theorem isNumeric_of_mem_scientific {d : Decimal} {c : Char} (h : c ∈ d.scientific) :
    isNumeric c = true := by
  have hdigits : ∀ c ∈ Nat.toDigits 10 d.coefficient, isNumeric c = true :=
    fun _ => isNumeric_of_mem_toDigits
  rw [Decimal.scientific, List.mem_append, List.mem_cons, List.mem_cons] at h
  rcases h with h | rfl | rfl | h
  · split at h
    · next hone =>
      exact hdigits c (hone ▸ h)
    · next first others _ hmore =>
      rw [hmore] at hdigits
      rcases List.mem_cons.mp h with rfl | h
      · exact hdigits _ List.mem_cons_self
      rcases List.mem_cons.mp h with rfl | h
      · rfl
      · exact hdigits c (List.mem_cons_of_mem _ h)
    · cases h
  · rfl
  · split <;> rfl
  · exact isNumeric_of_mem_toDigits h

theorem isNumeric_of_mem_write {l : Decimal.Layout} {x : Float} {c : Char}
    (h : c ∈ (l.write x).toList) : isNumeric c = true := by
  have hbody : ∀ (b : Bool) point (d : Decimal),
      c ∈ (if b then d.positional point else d.scientific) → isNumeric c = true := by
    intro b point d hmem
    cases b
    · exact isNumeric_of_mem_scientific hmem
    · exact isNumeric_of_mem_positional hmem
  rw [Decimal.Layout.write, String.toList_ofList] at h
  split at h
  · exact hbody _ _ _ h
  · rcases List.mem_cons.mp h with rfl | h
    · rfl
    · exact hbody _ _ _ h

theorem toList_toString (i : Int) :
    (toString i).toList = (if 0 ≤ i then [] else ['-']) ++ Nat.toDigits 10 i.natAbs := by
  cases i with
  | ofNat n =>
    show (Nat.repr n).toList = _
    rw [if_pos (by simp), Nat.toList_repr]
    rfl
  | negSucc n =>
    rw [if_neg (by omega)]
    show ("-" ++ Nat.repr (n + 1)).toList = _
    rw [String.toList_append, Nat.toList_repr]
    rfl

theorem Number.isNumeric_of_mem_render {n : Number} {c : Char} (h : c ∈ n.render.toList) :
    isNumeric c = true := by
  cases n with
  | integer i =>
    rw [render, toList_toString, List.mem_append] at h
    rcases h with h | h
    · split at h
      · cases h
      · rw [List.mem_singleton.mp h]; rfl
    · exact isNumeric_of_mem_toDigits h
  | real x => exact isNumeric_of_mem_write h

namespace Source

theorem exists_scan_of_ofText {text : String} {s : Source} (h : ofText text = (s, none)) :
    ∃ r, scan (2 * text.toList.length + 2) text.toList = (s, r) ∧
      ∀ after ∈ r, after.dropWhile isSpace = [] := by
  rw [ofText] at h
  split at h
  · next hscan =>
    cases h
    exact ⟨none, hscan, fun _ hafter => by cases hafter⟩
  · next after hscan =>
    split at h
    · next hblank =>
      cases h
      refine ⟨some after, hscan, fun _ hafter => ?_⟩
      cases hafter
      exact List.isEmpty_iff.mp hblank
    · cases h

theorem ofNumeral_append {negative : Bool} {body : List Char}
    (hbody : ∀ c ∈ body, isNumeric c = true) {n : Number} {r : Option (List Char)}
    (h : ofNumeral negative body = (.number (.ok n), r))
    (hr : ∀ after ∈ r, after.dropWhile isSpace = []) {rest : List Char} (hrest : Stops rest) :
    ofNumeral negative (body ++ rest) = (.number (.ok n), some rest) := by
  obtain ⟨m, after, hm, hn, rfl⟩ := ofNumeral_eq_number h
  obtain ⟨hsuffix, hlocal⟩ := isLocal_numeral negative _ _ _ hm
  -- nothing is left of the number: what is left would be spaces
  have hafter : after = [] := by
    cases after with
    | nil => rfl
    | cons c cs =>
      have hc : isSpace c = false :=
        isSpace_of_isNumeric (hbody c (hsuffix.subset List.mem_cons_self))
      have := hr _ rfl
      rw [List.dropWhile_cons_of_neg (by simp [hc])] at this
      cases this
  rw [ofNumeral, hlocal rest hrest, hafter]
  simp only [hn, List.nil_append]

/-- A number that reads back alone does so in front of a text that cannot go on with it. -/
theorem scan_number {n : Number} (h : n.ReadsBack) (fuel : Nat) {rest : List Char}
    (hrest : Stops rest) :
    scan (fuel + 1) (n.render.toList ++ rest) = (.number (.ok n), some rest) := by
  obtain ⟨r, hscan, hr⟩ := exists_scan_of_ofText h
  have hnumeric : ∀ c ∈ n.render.toList, isNumeric c = true :=
    fun _ => Number.isNumeric_of_mem_render
  cases hcs : n.render.toList with
  | nil =>
    rw [hcs] at hscan
    cases hscan
  | cons c cs =>
    rw [hcs] at hscan hnumeric
    have hc := hnumeric c List.mem_cons_self
    rw [scan_of_isNumeric _ hc] at hscan
    rw [List.cons_append, scan_of_isNumeric _ hc]
    split at hscan
    · next hminus =>
      rw [if_pos hminus]
      exact ofNumeral_append (fun c hmem => hnumeric c (List.mem_cons_of_mem _ hmem)) hscan hr hrest
    · next hminus =>
      rw [if_neg hminus]
      split at hscan
      · next hdigit =>
        rw [if_pos hdigit]
        exact ofNumeral_append hnumeric hscan hr hrest
      · cases hscan

end Source

/-! ### Integers -/

theorem head?_toDigits {n : Nat} (h : 0 < n) : (Nat.toDigits 10 n).head? ≠ some '0' := by
  induction n using Nat.strongRecOn with
  | _ n ih =>
    by_cases hlt : n < 10
    · have hdigit : ∀ k < 10, 0 < k → Nat.digitChar k ≠ '0' := by decide
      rw [Nat.toDigits_of_lt_base hlt]
      simpa using hdigit n hlt h
    · rw [Nat.toDigits_of_base_le (by decide) (by omega),
        List.head?_append, List.head?_eq_some_head Nat.toDigits_ne_nil, Option.some_or,
        ← List.head?_eq_some_head]
      exact ih (n / 10) (by omega) (by omega)

/-- The value of a digit. -/
def digitValue (c : Char) : Nat := c.toNat - '0'.toNat

theorem digits_toDigits (n : Nat) :
    Source.digits (Nat.toDigits 10 n) = ((Nat.toDigits 10 n).map digitValue, []) := by
  have hdigit : ∀ c ∈ Nat.toDigits 10 n, c.isDigit = true :=
    fun c => Nat.isDigit_of_mem_toDigits (by decide) (by decide)
  rw [Source.digits, List.takeWhile_eq_self_iff.mpr hdigit, List.dropWhile_eq_nil_iff.mpr hdigit]
  rfl

theorem numeral_toDigits (negative : Bool) (n : Nat) :
    Source.numeral negative (Nat.toDigits 10 n) =
      .ok (⟨negative, (Nat.toDigits 10 n).map digitValue, [], none⟩, []) := by
  have hsome : Source.someDigits (Nat.toDigits 10 n) =
      .ok ((Nat.toDigits 10 n).map digitValue, []) := by
    rw [← digits_toDigits]
    cases hcs : Nat.toDigits 10 n with
    | nil => exact absurd hcs Nat.toDigits_ne_nil
    | cons c cs =>
      have hc : c.isDigit = true :=
        Nat.isDigit_of_mem_toDigits (by decide) (by decide) (hcs ▸ List.mem_cons_self)
      rw [Source.someDigits, if_pos hc]
  have hwhole : Source.wholeDigits (Nat.toDigits 10 n) =
      .ok ((Nat.toDigits 10 n).map digitValue, []) := by
    rw [Source.wholeDigits.eq_def, hsome]
    split
    · next c cs hcs =>
      -- a zero in front is the whole number
      rcases Nat.eq_zero_or_pos n with rfl | hpos
      · rw [Nat.toDigits_zero] at hcs
        cases hcs
      · exact absurd (by rw [hcs]; rfl) (head?_toDigits hpos)
    · rfl
  rw [Source.numeral, hwhole]
  rfl

theorem le_foldl_digits (ds : List Nat) (m : Nat) : m ≤ ds.foldl (fun n d => n * 10 + d) m := by
  induction ds generalizing m with
  | nil => exact Nat.le_refl m
  | cons d ds ih => exact Nat.le_trans (by omega) (ih (m * 10 + d))

theorem absorb_of_lt {ds : List Nat} {m : Nat}
    (h : ds.foldl (fun n d => n * 10 + d) m < Numeral.wordSize) :
    Numeral.absorb m ds = (ds.foldl (fun n d => n * 10 + d) m, []) := by
  induction ds generalizing m with
  | nil => rfl
  | cons d ds ih =>
    rw [Numeral.absorb, if_pos (Nat.lt_of_le_of_lt (le_foldl_digits ds _) h)]
    exact ih h

theorem foldl_digits_toDigits (n : Nat) :
    ((Nat.toDigits 10 n).map digitValue).foldl (fun n d => n * 10 + d) 0 = n := by
  rw [List.foldl_map]
  have hvalue := @Nat.ofDigitChars_ten_toDigits n
  simpa only [Nat.ofDigitChars, Nat.mul_comm, digitValue] using hvalue

theorem absorb_toDigits {n : Nat} (h : n < Numeral.wordSize) :
    Numeral.absorb 0 ((Nat.toDigits 10 n).map digitValue) = (n, []) := by
  rw [absorb_of_lt (by rw [foldl_digits_toDigits]; exact h), foldl_digits_toDigits]

theorem scan_toDigits (fuel n : Nat) :
    Source.scan (fuel + 1) (Nat.toDigits 10 n) = Source.ofNumeral false (Nat.toDigits 10 n) := by
  cases hcs : Nat.toDigits 10 n with
  | nil => exact absurd hcs Nat.toDigits_ne_nil
  | cons c cs =>
    have hmem : c ∈ Nat.toDigits 10 n := hcs ▸ List.mem_cons_self
    have hc : c.isDigit = true := Nat.isDigit_of_mem_toDigits (by decide) (by decide) hmem
    have hminus : c ≠ '-' := by
      rintro rfl
      cases hc
    rw [Source.scan_of_isNumeric fuel (isNumeric_of_mem_toDigits hmem), if_neg hminus, if_pos hc]

/-- A whole number is read as an integer if it fits. -/
theorem readNumeral_toDigits (negative : Bool) {n : Nat} (hn : n < Numeral.wordSize)
    (hnegative : negative = true → n ≠ 0 ∧ n ≤ Numeral.wordSize / 2) :
    Source.readNumeral ⟨negative, (Nat.toDigits 10 n).map digitValue, [], none⟩ =
      .ok (.integer (if negative then -n else n)) := by
  rw [Source.readNumeral, Numeral.value, absorb_toDigits hn]
  cases negative with
  | false => rfl
  | true =>
    obtain ⟨hzero, hhalf⟩ := hnegative rfl
    simp [hzero, Nat.not_lt.mpr hhalf]

theorem readsBack_integer {i : Int} (h : (Number.integer i).Fits) :
    (Number.integer i).ReadsBack := by
  obtain ⟨hlow, hhigh⟩ := h
  have hword : i.natAbs < Numeral.wordSize := by rw [Numeral.wordSize]; omega
  have hscan : ∀ fuel, Source.scan (fuel + 1) (toString i).toList =
      (.number (.ok (.integer i)), some []) := by
    intro fuel
    rw [toList_toString]
    by_cases hi : 0 ≤ i
    · have hread := readNumeral_toDigits false hword (fun h => absurd h Bool.false_ne_true)
      rw [if_neg Bool.false_ne_true, Int.natAbs_of_nonneg hi] at hread
      rw [if_pos hi, List.nil_append, scan_toDigits, Source.ofNumeral, numeral_toDigits]
      simp only [hread]
    · have hnegative : i.natAbs ≠ 0 ∧ i.natAbs ≤ Numeral.wordSize / 2 := by
        rw [Numeral.wordSize]
        omega
      have hread := readNumeral_toDigits true hword (fun _ => hnegative)
      rw [if_pos rfl, show -(i.natAbs : Int) = i by omega] at hread
      rw [if_neg hi, List.singleton_append, Source.scan_of_isNumeric fuel rfl, if_pos rfl,
        Source.ofNumeral, numeral_toDigits]
      simp only [hread]
  rw [Number.ReadsBack, Source.ofText, Number.render]
  simp only [hscan]
  rfl

theorem absorb_lt {m : Nat} (hm : m < Numeral.wordSize) (ds : List Nat) :
    (Numeral.absorb m ds).1 < Numeral.wordSize := by
  induction ds generalizing m with
  | nil => exact hm
  | cons d ds ih =>
    rw [Numeral.absorb]
    split
    · next hlt => exact ih hlt
    · exact hm

/-- Every integer that is read fits 64 bits. -/
theorem fits_of_readNumeral {m : Numeral} {n : Number} (h : Source.readNumeral m = .ok n) :
    n.Fits := by
  cases n with
  | real x => exact trivial
  | integer i =>
    have hlt : (Numeral.absorb 0 m.whole).1 < Numeral.wordSize := absorb_lt (by decide) _
    rw [Numeral.wordSize] at hlt
    rw [Source.readNumeral] at h
    split at h
    · next x hx =>
      cases h
      rw [Numeral.value] at hx
      dsimp only at hx
      split at hx
      · split at hx
        · cases hx
          exact ⟨by omega, by omega⟩
        · split at hx
          · cases hx
          · next hbound =>
            simp only [Bool.or_eq_true, decide_eq_true_eq, not_or] at hbound
            rw [Numeral.wordSize] at hbound
            cases hx
            exact ⟨by omega, by omega⟩
      · obtain ⟨x, -, hx⟩ := Option.map_eq_some_iff.mp hx
        cases hx
    · cases h

end Json

end Flowscript
