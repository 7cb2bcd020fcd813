/-
String literals can be read back.

A string literal is written character by character.  That is the same as five replacements one after
the other, since every replacement acts on each character by itself and none of them makes a
character that a later one replaces.  The readers below know nothing of how literals are written:

* `escapeAll_eq_flatMap` — replacements one after the other, character by character;
* `readBody_escapeLiteral` — a written character is read as this character;
* `readItems_literals` — literals with commas between them;
* `literal_reads_back` — a literal is read as its text, and an array of literals as its texts.
-/
import Flowscript.Proofs.Json.Scan
import Flowscript.Proofs.Text.OneLine

namespace Flowscript

namespace Text

/-! ### Replacements -/

/-- Puts a backslash and `e` wherever `c` stands. -/
def escapeEach (c e : Char) (cs : List Char) : List Char :=
  cs.flatMap fun x => if x = c then ['\\', e] else [x]

/-- Replacements one after the other, each in what the ones before it have made. -/
def escapeAll (table : List (Char × Char)) (cs : List Char) : List Char :=
  table.foldl (fun cs entry => escapeEach entry.1 entry.2 cs) cs

/-- What is replaced in a string literal, and what stands behind the backslash instead. -/
def literalTable : List (Char × Char) :=
  [('\\', '\\'), ('"', '"'), ('\n', 'n'), ('\r', 'r'), ('\t', 't')]

theorem escapeAll_cons (entry : Char × Char) (table : List (Char × Char)) (cs : List Char) :
    escapeAll (entry :: table) cs = escapeAll table (escapeEach entry.1 entry.2 cs) := rfl

/-- No replacement looks at more than one character, so neither do several of them. -/
theorem escapeAll_eq_flatMap (table : List (Char × Char)) (cs : List Char) :
    escapeAll table cs = cs.flatMap fun c => escapeAll table [c] := by
  induction table generalizing cs with
  | nil => exact (List.flatMap_singleton' cs).symm
  | cons entry table ih =>
    rw [escapeAll_cons, ih, escapeEach, List.flatMap_assoc]
    refine List.flatMap_congr fun c _ => ?_
    rw [escapeAll_cons, ih, escapeEach, List.flatMap_singleton]

theorem escapeAll_of_notMem {table : List (Char × Char)} {c : Char}
    (h : ∀ entry ∈ table, entry.1 ≠ c) : escapeAll table [c] = [c] := by
  induction table with
  | nil => rfl
  | cons entry table ih =>
    obtain ⟨hentry, htable⟩ := List.forall_mem_cons.mp h
    rw [escapeAll_cons, escapeEach, List.flatMap_singleton, if_neg (Ne.symm hentry), ih htable]

/-- A character is in the table and written with a backslash, or is written as it is. -/
theorem escapeLiteral_cases (c : Char) :
    (∃ e, (c, e) ∈ literalTable ∧ escapeLiteral c = ['\\', e]) ∨
      (∀ entry ∈ literalTable, entry.1 ≠ c) ∧ escapeLiteral c = [c] := by
  by_cases hslash : c = '\\'
  · subst hslash
    exact .inl ⟨'\\', by decide, rfl⟩
  by_cases hquote : c = '"'
  · subst hquote
    exact .inl ⟨'"', by decide, rfl⟩
  by_cases hlf : c = '\n'
  · subst hlf
    exact .inl ⟨'n', by decide, rfl⟩
  by_cases hcr : c = '\r'
  · subst hcr
    exact .inl ⟨'r', by decide, rfl⟩
  by_cases htab : c = '\t'
  · subst htab
    exact .inl ⟨'t', by decide, rfl⟩
  · refine .inr ⟨?_, ?_⟩
    · simp [literalTable, Ne.symm hslash, Ne.symm hquote, Ne.symm hlf, Ne.symm hcr, Ne.symm htab]
    · rw [escapeLiteral, if_neg hslash, if_neg hquote, if_neg hlf, if_neg hcr, if_neg htab]

/-- No replacement makes a character that a later one replaces. -/
theorem escapeLiteral_eq_escapeAll (c : Char) : escapeLiteral c = escapeAll literalTable [c] := by
  have htable : ∀ entry ∈ literalTable, escapeAll literalTable [entry.1] = ['\\', entry.2] := by
    decide
  rcases escapeLiteral_cases c with ⟨e, hmem, hwritten⟩ | ⟨hnot, hwritten⟩
  · exact hwritten.trans (htable _ hmem).symm
  · exact hwritten.trans (escapeAll_of_notMem hnot).symm

/-- A string literal is its text with five characters replaced, between quotes. -/
theorem literal_eq_escapeAll (s : String) :
    literal s = "\"" ++ String.ofList (escapeAll literalTable s.toList) ++ "\"" := by
  rw [← String.toList_inj, literal, String.toList_ofList, quoteWith, escapeAll_eq_flatMap,
    funext escapeLiteral_eq_escapeAll]
  simp

/-! ### Literals -/

/-- Puts something in front of what was read; what is left to read stays the same. -/
def prepend {α β : Type} (front : List α) (read : Option (List α × β)) : Option (List α × β) :=
  read.map fun found => (front ++ found.1, found.2)

@[simp] theorem prepend_some {α β : Type} (front found : List α) (after : β) :
    prepend front (some (found, after)) = some (front ++ found, after) := rfl

theorem prepend_append {α β : Type} (front front' : List α) (read : Option (List α × β)) :
    prepend (front ++ front') read = prepend front (prepend front' read) := by
  cases read with
  | none => rfl
  | some found => rw [prepend, prepend, prepend, Option.map_some, Option.map_some, Option.map_some,
      List.append_assoc]

theorem prepend_eq_some {α β : Type} {front found : List α} {read : Option (List α × β)} {after : β}
    (h : prepend front read = some (found, after)) : ∃ later, read = some (later, after) := by
  obtain ⟨⟨later, after'⟩, hread, heq⟩ := Option.map_eq_some_iff.mp h
  obtain ⟨-, rfl⟩ := Prod.mk.inj heq
  exact ⟨later, hread⟩

/-- The character that a backslash and another character stand for. -/
def unescape? (c : Char) : Option Char :=
  if c = '\\' ∨ c = '"' then some c
  else if c = 'n' then some '\n'
  else if c = 'r' then some '\r'
  else if c = 't' then some '\t'
  else none

/-- Reads a string literal behind its opening quote: the characters up to the first quote that is not
escaped, and the text behind that quote. -/
def readBody : List Char → Option (List Char × List Char)
  | [] => none
  | '"' :: rest => some ([], rest)
  | '\\' :: c :: rest => (unescape? c).bind fun x => prepend [x] (readBody rest)
  | c :: rest => prepend [c] (readBody rest)

/-- Reads a string literal: its text, and what follows it. -/
def readLiteral : List Char → Option (String × List Char)
  | '"' :: rest => (readBody rest).map fun found => (String.ofList found.1, found.2)
  | _ => none

theorem readBody_plain {c : Char} (hslash : c ≠ '\\') (hquote : c ≠ '"') (rest : List Char) :
    readBody (c :: rest) = prepend [c] (readBody rest) := by
  rw [readBody.eq_def]
  split
  · next heq => cases heq
  · next heq => exact absurd (List.cons.inj heq).1 hquote
  · next heq => exact absurd (List.cons.inj heq).1 hslash
  · next heq =>
    obtain ⟨rfl, rfl⟩ := List.cons.inj heq
    rfl

/-- What is written for a character is read as this character. -/
theorem readBody_escapeLiteral (c : Char) (rest : List Char) :
    readBody (escapeLiteral c ++ rest) = prepend [c] (readBody rest) := by
  have htable : ∀ entry ∈ literalTable, unescape? entry.2 = some entry.1 := by decide
  rcases escapeLiteral_cases c with ⟨e, hmem, hwritten⟩ | ⟨hnot, hwritten⟩
  · rw [hwritten, List.cons_append, List.singleton_append, readBody, htable _ hmem,
      Option.bind_some]
  · rw [hwritten]
    exact readBody_plain (Ne.symm (hnot ('\\', '\\') (by decide)))
      (Ne.symm (hnot ('"', '"') (by decide))) rest

theorem readBody_flatMap (cs rest : List Char) :
    readBody (cs.flatMap escapeLiteral ++ '"' :: rest) = some (cs, rest) := by
  induction cs with
  | nil => rfl
  | cons c cs ih =>
    rw [List.flatMap_cons, List.append_assoc, readBody_escapeLiteral, ih]
    rfl

theorem readLiteral_literal (s : String) (rest : List Char) :
    readLiteral ((literal s).toList ++ rest) = some (s, rest) := by
  have htext : (literal s).toList ++ rest =
      '"' :: (s.toList.flatMap escapeLiteral ++ '"' :: rest) := by
    simp [literal, quoteWith]
  rw [htext, readLiteral, readBody_flatMap, Option.map_some, String.ofList_toList]

theorem length_of_readBody {cs found after : List Char} (h : readBody cs = some (found, after)) :
    after.length < cs.length := by
  fun_induction readBody cs generalizing found with
  | case1 => cases h
  | case2 rest =>
    obtain ⟨-, rfl⟩ := Prod.mk.inj (Option.some.inj h)
    exact Nat.lt_succ_self _
  | case3 c rest ih =>
    obtain ⟨x, -, h⟩ := Option.bind_eq_some_iff.mp h
    obtain ⟨later, hrest⟩ := prepend_eq_some h
    exact Nat.lt_add_right 2 (ih hrest)
  | case4 c rest _ _ ih =>
    obtain ⟨later, hrest⟩ := prepend_eq_some h
    exact Nat.lt_add_right 1 (ih hrest)

theorem length_of_readLiteral {cs after : List Char} {s : String}
    (h : readLiteral cs = some (s, after)) : after.length < cs.length := by
  rw [readLiteral.eq_def] at h
  split at h
  · obtain ⟨⟨found, later⟩, hbody, heq⟩ := Option.map_eq_some_iff.mp h
    obtain ⟨-, rfl⟩ := Prod.mk.inj heq
    exact Nat.lt_add_right 1 (length_of_readBody hbody)
  · cases h

/-! ### Arrays -/

/-- Reads string literals with commas between them, up to the closing bracket. Blanks may stand
behind a comma. -/
def readItems (cs : List Char) : Option (List String × List Char) :=
  match h : readLiteral cs with
  | none => none
  | some (_, []) => none
  | some (s, c :: rest) =>
    have := length_of_readLiteral h
    if c = ']' then some ([s], rest)
    else if c = ',' then prepend [s] (readItems (rest.dropWhile (· == ' ')))
    else none
termination_by cs.length
decreasing_by
  have hblanks := (List.dropWhile_sublist (· == ' ') (l := rest)).length_le
  simp only [List.length_cons] at this
  omega

/-- Reads an array of string literals: their texts, and what follows the array. -/
def readArray : List Char → Option (List String × List Char)
  | '[' :: cs => if cs.head? = some ']' then some ([], cs.tail) else readItems cs
  | _ => none

theorem readItems_of_readLiteral {cs rest : List Char} {s : String} {c : Char}
    (h : readLiteral cs = some (s, c :: rest)) :
    readItems cs =
      if c = ']' then some ([s], rest)
      else if c = ',' then prepend [s] (readItems (rest.dropWhile (· == ' ')))
      else none := by
  rw [readItems]
  split
  · next hread =>
    rw [hread] at h
    cases h
  · next hread =>
    rw [hread] at h
    cases h
  · next hread =>
    rw [hread] at h
    cases h
    rfl

theorem head?_literal (s : String) (rest : List Char) :
    ((literal s).toList ++ rest).head? = some '"' := by
  rw [literal, String.toList_ofList, quoteWith]
  rfl

/-- Literals with commas between them are read as their texts. -/
theorem readItems_literals (s : String) (values : List String) (rest : List Char) :
    readItems ((literal s).toList ++
      (values.flatMap (fun t => ", ".toList ++ (literal t).toList) ++ ']' :: rest)) =
        some (s :: values, rest) := by
  induction values generalizing s with
  | nil =>
    rw [List.flatMap_nil, List.nil_append, readItems_of_readLiteral (readLiteral_literal s _),
      if_pos rfl]
  | cons t values ih =>
    have htext : (t :: values).flatMap (fun t => ", ".toList ++ (literal t).toList) ++ ']' :: rest =
        ',' :: ' ' :: ((literal t).toList ++
          (values.flatMap (fun t => ", ".toList ++ (literal t).toList) ++ ']' :: rest)) := by
      simp
    -- only one blank stands between the comma and the next quote
    have hblank : ∀ more : List Char, more.head? = some '"' →
        (' ' :: more).dropWhile (· == ' ') = more := by
      intro more hmore
      obtain ⟨body, rfl⟩ := List.head?_eq_some_iff.mp hmore
      rfl
    rw [htext, readItems_of_readLiteral (readLiteral_literal s _), if_neg (by decide), if_pos rfl,
      hblank _ (head?_literal t _), ih, prepend_some, List.singleton_append]

end Text

open Text

theorem readArray_textArray (values : List String) (rest : List Char) :
    readArray ((Script.textArray values).toList ++ rest) = some (values, rest) := by
  cases values with
  | nil => rfl
  | cons s values =>
    have htext : (Script.textArray (s :: values)).toList ++ rest =
        '[' :: ((literal s).toList ++
          (values.flatMap (fun t => ", ".toList ++ (literal t).toList) ++ ']' :: rest)) := by
      rw [Script.textArray, List.map_cons, String.toList_append, String.toList_append,
        Json.Source.toList_intercalate, List.flatMap_map]
      simp
    rw [htext, readArray, head?_literal, if_neg (by decide), readItems_literals]

theorem return_notMem_literal (s : String) : '\r' ∉ (literal s).toList := by
  have htable : ∀ entry ∈ literalTable, '\r' ∉ ['\\', entry.2] := by decide
  have hescape : ∀ c, '\r' ∉ escapeLiteral c := by
    intro c
    rcases escapeLiteral_cases c with ⟨e, hmem, hwritten⟩ | ⟨hnot, hwritten⟩
    · exact hwritten ▸ htable _ hmem
    · rw [hwritten, List.mem_singleton]
      exact hnot ('\r', 'r') (by decide)
  rw [literal, String.toList_ofList]
  exact notMem_quoteWith (by decide) hescape _

/-- A string literal is its text with five characters replaced one after the other.  It is read as
this text, up to its end, and has no line feed and no carriage return; and an array of literals is
read as the texts that it was made of. -/
theorem literal_reads_back :
    (∀ s, literal s = "\"" ++ String.ofList (escapeAll literalTable s.toList) ++ "\"" ∧
      readLiteral (literal s).toList = some (s, []) ∧
      '\n' ∉ (literal s).toList ∧ '\r' ∉ (literal s).toList) ∧
    ∀ values, readArray (Script.textArray values).toList = some (values, []) := by
  refine ⟨fun s => ⟨literal_eq_escapeAll s, ?_, oneLine_literal s, return_notMem_literal s⟩, ?_⟩
  · have := readLiteral_literal s []
    rwa [List.append_nil] at this
  · intro values
    have := readArray_textArray values []
    rwa [List.append_nil] at this

end Flowscript
