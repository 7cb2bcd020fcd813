/-
Texts without line feeds.

`Text.OneLine` is kept by all the ways in which the emitted program puts texts together: literals
and property accesses escape what they are given, identifiers and numbers have no line feed anyway,
and a template or an expression has none if the text that it was made of has none.

* `oneLine_literal`, `oneLine_memberAccess`, `oneLine_write` — texts that are always on one line;
* `mem_of_mem_tokens` — the tokens of a template hold nothing but its characters;
* `oneLine_textValue`, `oneLine_expressionValue` — resolved templates.
-/
import Flowscript.Proofs.Json.Number
import Flowscript.Proofs.Reference.Lossless
import Flowscript.Script.Literal

namespace Flowscript

namespace Text

/-- A text without line feeds. -/
def OneLine (s : String) : Prop := '\n' ∉ s.toList

instance (s : String) : Decidable (OneLine s) := inferInstanceAs (Decidable (¬_))

@[simp] theorem oneLine_append {s t : String} : OneLine (s ++ t) ↔ OneLine s ∧ OneLine t := by
  rw [OneLine, String.toList_append, List.mem_append, not_or, OneLine, OneLine]

@[simp] theorem oneLine_ofList {cs : List Char} : OneLine (String.ofList cs) ↔ '\n' ∉ cs := by
  rw [OneLine, String.toList_ofList]

theorem oneLine_join {l : List String} (h : ∀ s ∈ l, OneLine s) : OneLine (String.join l) := by
  rw [OneLine, String.toList_join, List.mem_flatMap]
  rintro ⟨s, hs, hmem⟩
  exact h s hs hmem

theorem oneLine_intercalate {sep : String} (hsep : OneLine sep) {l : List String}
    (h : ∀ s ∈ l, OneLine s) : OneLine (String.intercalate sep l) := by
  induction l with
  | nil =>
    rw [String.intercalate_nil]
    decide
  | cons s l ih =>
    cases l with
    | nil => simpa using h
    | cons t l =>
      rw [String.intercalate_cons_cons, oneLine_append, oneLine_append]
      exact ⟨⟨h s List.mem_cons_self, hsep⟩, ih fun u hu => h u (List.mem_cons_of_mem _ hu)⟩

/-! ### Trimmed and cut texts -/

theorem mem_of_mem_dropEndBlanks {cs : List Char} {c : Char} (h : c ∈ dropEndBlanks cs) : c ∈ cs := by
  rw [dropEndBlanks, List.mem_reverse] at h
  exact List.mem_reverse.mp ((List.dropWhile_sublist _).mem h)

theorem OneLine.trimEnd {s : String} (h : OneLine s) : OneLine (Text.trimEnd s) :=
  oneLine_ofList.mpr fun hmem => h (mem_of_mem_dropEndBlanks hmem)

theorem OneLine.trim {s : String} (h : OneLine s) : OneLine (Text.trim s) :=
  oneLine_ofList.mpr fun hmem => h ((List.dropWhile_sublist _).mem (mem_of_mem_dropEndBlanks hmem))

/-! ### Quoted texts, identifiers and numbers -/

theorem notMem_quoteWith {escape : Char → List Char} {x : Char} (hx : x ≠ '"')
    (h : ∀ c, x ∉ escape c) (cs : List Char) : x ∉ quoteWith escape cs := by
  simp only [quoteWith, List.mem_cons, List.mem_append, List.mem_flatMap, List.not_mem_nil, or_false,
    not_or, not_exists, not_and]
  exact ⟨hx, fun c _ => h c, hx⟩

@[simp] theorem oneLine_literal (s : String) : OneLine (literal s) := by
  refine oneLine_ofList.mpr (notMem_quoteWith (by decide) (fun c => ?_) _)
  rw [escapeLiteral]
  repeat' split
  all_goals simp_all [eq_comm]

theorem newline_notMem_escapeJson (c : Char) : '\n' ∉ escapeJson c := by
  by_cases hsmall : c.toNat < 0x20
  · have hall : ∀ n < 0x20, '\n' ∉ escapeJson (Char.ofNat n) := by decide
    exact Char.ofNat_toNat c ▸ hall c.toNat hsmall
  · have hne : c ≠ '\n' := by
      rintro rfl
      exact hsmall (by decide)
    rw [escapeJson, if_neg hne, if_neg hsmall]
    repeat' split
    all_goals simp [hne.symm]

@[simp] theorem oneLine_quote (s : String) : OneLine (quote s) :=
  oneLine_ofList.mpr (notMem_quoteWith (by decide) newline_notMem_escapeJson _)

theorem oneLine_of_isIdentChar {s : String} (h : ∀ c ∈ s.toList, isIdentChar c = true) :
    OneLine s := by
  intro hmem
  exact absurd (h _ hmem) (by decide)

theorem isIdentChar_of_isIdentifier {s : String} (h : isIdentifier s.toList = true) :
    ∀ c ∈ s.toList, isIdentChar c = true := by
  rw [isIdentifier, Bool.and_eq_true] at h
  exact List.all_eq_true.mp h.2

theorem newline_notMem_toDigits (n : Nat) : '\n' ∉ Nat.toDigits 10 n := by
  intro hmem
  exact absurd (Nat.isDigit_of_mem_toDigits (by decide) (by decide) hmem) (by decide)

@[simp] theorem oneLine_toString (n : Nat) : OneLine (toString n) := by
  rw [Nat.toString_eq_ofList_toDigits, oneLine_ofList]
  exact newline_notMem_toDigits n

end Text

open Text

@[simp] theorem oneLine_write (l : Decimal.Layout) (x : Float) : OneLine (l.write x) := by
  intro hmem
  exact absurd (Json.isNumeric_of_mem_write hmem) (by decide)

theorem oneLine_keyText (name : String) : OneLine (Script.keyText name) := by
  rw [Script.keyText]
  split
  · rename_i hname
    exact oneLine_of_isIdentChar (isIdentChar_of_isIdentifier hname)
  · exact oneLine_literal name

@[simp] theorem oneLine_textArray (values : List String) : OneLine (Script.textArray values) := by
  simp only [Script.textArray, oneLine_append]
  refine ⟨⟨by decide, oneLine_intercalate (by decide) fun s hs => ?_⟩, by decide⟩
  obtain ⟨value, -, rfl⟩ := List.mem_map.mp hs
  exact oneLine_literal value

theorem oneLine_memberAccess (name : String) : OneLine (memberAccess name) := by
  rw [memberAccess]
  split
  · rename_i hname
    exact oneLine_append.mpr
      ⟨by decide, oneLine_of_isIdentChar (isIdentChar_of_isIdentifier hname)⟩
  · simp only [oneLine_append, oneLine_quote, and_true]
    decide

theorem oneLine_accesses (path : List String) : OneLine (accesses path) := by
  refine oneLine_join fun s hs => ?_
  obtain ⟨name, -, rfl⟩ := List.mem_map.mp hs
  exact oneLine_memberAccess name

/-! ### Templates -/

namespace Template

theorem mem_of_mem_tokens {cs : List Char} {t : Token} (h : t ∈ tokens cs) :
    ∀ c ∈ t.source, c ∈ cs := by
  intro c hc
  rw [← flatMap_source_tokens cs]
  exact List.mem_flatMap.mpr ⟨t, h, hc⟩

end Template

/-- A part of a resolved template without line feeds. -/
def Part.OneLine : Part → Prop
  | .lit text => Text.OneLine text
  | .ref _ accessor => Text.OneLine accessor

namespace Resolver

variable {r : Resolver}

/-- Whatever a placeholder becomes is on one line. -/
theorem oneLine_lookup (hnames : ∀ id, Text.OneLine (r.names.variableOf id)) {inner : List Char}
    {accessor : String} (h : r.lookup inner = .ok accessor) : Text.OneLine accessor := by
  rcases lookup_ok h with ⟨path, rfl⟩ | ⟨x, -, -, path, rfl⟩
  · exact oneLine_append.mpr ⟨by decide, oneLine_accesses path⟩
  · exact oneLine_append.mpr ⟨hnames _, oneLine_accesses path⟩

theorem oneLine_consLit {text : String} (htext : Text.OneLine text) {parts : List Part}
    (hparts : ∀ p ∈ parts, p.OneLine) : ∀ p ∈ consLit text parts, p.OneLine := by
  rw [consLit.eq_def]
  split
  · rename_i rest parts
    obtain ⟨hrest, hparts⟩ := List.forall_mem_cons.mp hparts
    exact List.forall_mem_cons.mpr ⟨oneLine_append.mpr ⟨htext, hrest⟩, hparts⟩
  · split
    · exact hparts
    · exact List.forall_mem_cons.mpr ⟨htext, hparts⟩

theorem oneLine_resolveTokens (hnames : ∀ id, Text.OneLine (r.names.variableOf id))
    {ts : List Template.Token} (hts : ∀ t ∈ ts, '\n' ∉ t.source) :
    ∀ p ∈ (r.resolveTokens ts).1, p.OneLine := by
  induction ts with
  | nil => simp [resolveTokens]
  | cons t ts ih =>
    obtain ⟨ht, hts⟩ := List.forall_mem_cons.mp hts
    rcases r.resolveTokens_cons t ts with ⟨inner, accessor, -, hlookup, hparts⟩ | hparts
    · rw [hparts]
      exact List.forall_mem_cons.mpr ⟨oneLine_lookup hnames hlookup, ih hts⟩
    · rw [hparts]
      exact oneLine_consLit (oneLine_ofList.mpr ht) (ih hts)

theorem oneLine_resolve (hnames : ∀ id, Text.OneLine (r.names.variableOf id)) {text : String}
    (htext : Text.OneLine text) : ∀ p ∈ (r.resolve text).parts, p.OneLine :=
  oneLine_resolveTokens hnames fun _ ht hmem =>
    htext (Template.mem_of_mem_tokens ht _ hmem)

end Resolver

namespace Script

variable {r : Resolved} (h : ∀ p ∈ r.parts, p.OneLine)
include h

theorem oneLine_expression : Text.OneLine r.expression := by
  rw [Resolved.expression]
  refine oneLine_join fun s hs => ?_
  obtain ⟨p, hp, rfl⟩ := List.mem_map.mp hs
  cases p <;> exact h _ hp

theorem oneLine_expressionValue : Text.OneLine (expressionValue r) := by
  simp only [expressionValue]
  split
  · decide
  · exact (oneLine_expression h).trim

theorem oneLine_textValue : Text.OneLine (textValue r) := by
  have hescape : ∀ cs : List Char, '\n' ∉ cs → '\n' ∉ escapeTemplate cs := by
    intro cs
    fun_induction escapeTemplate cs <;> simp_all
  rw [textValue]
  split
  · rename_i accessor hsole
    rw [Resolved.soleRef?] at hsole
    split at hsole
    · rename_i placeholder accessor' hparts
      obtain rfl := Option.some.inj hsole
      exact h (.ref placeholder accessor') (hparts ▸ List.mem_singleton_self _)
    · simp at hsole
  · split
    · simp only [templateLiteral, oneLine_ofList, List.mem_cons, List.mem_append, List.mem_flatMap,
        List.not_mem_nil, or_false, not_or, not_exists, not_and]
      refine ⟨by decide, fun p hp => ?_, by decide⟩
      have hpart := h p hp
      cases p with
      | lit text => exact hescape _ hpart
      | ref placeholder accessor =>
        simp only [templatePart, List.mem_cons, List.mem_append, List.not_mem_nil, or_false, not_or]
        exact ⟨by decide, by decide, hpart, by decide⟩
    · exact oneLine_literal _

end Script

end Flowscript
