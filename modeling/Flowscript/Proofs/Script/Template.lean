/-
Template literals can be read back, but for carriage returns.

A template literal is read from left to right: an escaped character stands for itself, an opener that
is not escaped begins an expression, and a carriage return stands for a line feed, alone or together
with the line feed behind it.  What was written as literal text is read as this text with its line
breaks unified, whatever is in it, and what was written as an accessor is read as this accessor:

* `passes_accesses` — the accesses of a reference do not end its expression;
* `readSpans_escapeTemplate` — literal text in front of the end or of an opener;
* `readSpans_parts` — the parts of a template, one after the other;
* `template_reads_iff` — a template literal is read as its parts exactly if none has a carriage
  return.
-/
import Flowscript.Proofs.Text.Literal

namespace Flowscript

open Text

namespace Script

/-! ### Expressions -/

/-- Reads an expression up to the brace that ends it.  Outside of quotes names, points and brackets
can stand in it; between quotes a backslash takes the next character with it, and the line cannot
end. -/
def readExpression : (quoted : Bool) → List Char → Option (List Char × List Char)
  | _, [] => none
  | false, c :: rest =>
    if c = '\x7d' then some ([], rest)
    else if isIdentChar c ∨ c ∈ ['"', '.', '[', ']'] then
      prepend [c] (readExpression (c == '"') rest)
    else none
  | true, '\\' :: c :: rest => prepend ['\\', c] (readExpression true rest)
  | true, c :: rest =>
    if c = '\n' ∨ c = '\r' then none else prepend [c] (readExpression (c != '"') rest)

theorem length_of_readExpression {quoted : Bool} {cs found after : List Char}
    (h : readExpression quoted cs = some (found, after)) : after.length < cs.length := by
  fun_induction readExpression quoted cs generalizing found with
  | case1 => cases h
  | case2 rest =>
    obtain ⟨-, rfl⟩ := Prod.mk.inj (Option.some.inj h)
    exact Nat.lt_succ_self _
  | case3 c rest _ _ ih =>
    obtain ⟨later, hrest⟩ := prepend_eq_some h
    exact Nat.lt_add_right 1 (ih hrest)
  | case4 => cases h
  | case5 c rest ih =>
    obtain ⟨later, hrest⟩ := prepend_eq_some h
    exact Nat.lt_add_right 2 (ih hrest)
  | case6 => cases h
  | case7 c rest _ _ ih =>
    obtain ⟨later, hrest⟩ := prepend_eq_some h
    exact Nat.lt_add_right 1 (ih hrest)

/-- A piece of an expression, after which the expression goes on; inside of quotes or outside. -/
def Passes (quoted : Bool) (cs : List Char) : Prop :=
  ∀ rest, readExpression quoted (cs ++ rest) = prepend cs (readExpression quoted rest)

namespace Passes

variable {quoted : Bool} {cs ds : List Char}

theorem nil : Passes quoted [] := by
  intro rest
  rw [List.nil_append]
  cases readExpression quoted rest <;> rfl

theorem append (hcs : Passes quoted cs) (hds : Passes quoted ds) : Passes quoted (cs ++ ds) := by
  intro rest
  rw [List.append_assoc, hcs, hds, prepend_append]

theorem of_forall (h : ∀ c ∈ cs, Passes quoted [c]) : Passes quoted cs := by
  induction cs with
  | nil => exact nil
  | cons c cs ih =>
    obtain ⟨hc, hcs⟩ := List.forall_mem_cons.mp h
    have hsplit : c :: cs = [c] ++ cs := rfl
    rw [hsplit]
    exact append hc (ih hcs)

theorem flatMap {α : Type} {l : List α} {f : α → List Char} (h : ∀ a ∈ l, Passes quoted (f a)) :
    Passes quoted (l.flatMap f) := by
  induction l with
  | nil => exact nil
  | cons a l ih =>
    obtain ⟨ha, hl⟩ := List.forall_mem_cons.mp h
    rw [List.flatMap_cons]
    exact append ha (ih hl)

/-- An expression that goes on up to its brace is read as a whole. -/
theorem readExpression_eq (h : Passes false cs) (rest : List Char) :
    readExpression false (cs ++ '\x7d' :: rest) = some (cs, rest) := by
  have hend : readExpression false ('\x7d' :: rest) = some ([], rest) := rfl
  rw [h, hend, prepend_some, List.append_nil]

end Passes

theorem passes_mark {c : Char} (hc : isIdentChar c = true ∨ c ∈ ['.', '[', ']']) :
    Passes false [c] := by
  intro rest
  have hbrace : c ≠ '\x7d' := by
    rintro rfl
    exact absurd hc (by decide)
  have hquote : (c == '"') = false := by
    rw [beq_eq_false_iff_ne]
    rintro rfl
    exact absurd hc (by decide)
  rw [List.singleton_append, readExpression, if_neg hbrace,
    if_pos (hc.imp_right (List.mem_cons_of_mem _)), hquote]

/-- A character that ends neither the quotes nor the line, and begins no escape. -/
def isInner (c : Char) : Bool := c != '"' && c != '\\' && c != '\n' && c != '\r'

theorem passes_inner {c : Char} (hc : isInner c = true) : Passes true [c] := by
  simp only [isInner, Bool.and_eq_true, bne_iff_ne] at hc
  obtain ⟨⟨⟨hquote, hslash⟩, hlf⟩, hcr⟩ := hc
  intro rest
  rw [List.singleton_append, readExpression.eq_def]
  split
  · next heq => cases heq
  · next hquoted heq => cases hquoted
  · next heq => exact absurd (List.cons.inj heq).1 hslash
  · next heq =>
    obtain ⟨rfl, rfl⟩ := List.cons.inj heq
    rw [if_neg (not_or.mpr ⟨hlf, hcr⟩), bne_iff_ne.mpr hquote]

theorem escapeJson_plain {c : Char} (hquote : c ≠ '"') (hslash : c ≠ '\\')
    (hc : ¬c.toNat < 0x20) : escapeJson c = [c] ∧ isInner c = true := by
  have hne : ∀ {d : Char}, d.toNat < 0x20 → c ≠ d := by
    rintro d hd rfl
    exact hc hd
  have hlf : c ≠ '\n' := hne (by decide)
  have hcr : c ≠ '\r' := hne (by decide)
  have htab : c ≠ '\t' := hne (by decide)
  constructor
  · rw [escapeJson, if_neg hquote, if_neg hslash, if_neg hlf, if_neg hcr, if_neg htab,
      if_neg (by omega), if_neg (by omega), if_neg hc]
  · simp [isInner, hquote, hslash, hlf, hcr]

/-- What is written for a character between quotes does not end them. -/
theorem passes_escapeJson (c : Char) : Passes true (escapeJson c) := by
  -- an escape is a backslash, a character that it takes with it, and maybe digits
  have hescape : (escapeJson c).head? = some '\\' ∧ 2 ≤ (escapeJson c).length ∧
      ((escapeJson c).drop 2).all isInner = true → Passes true (escapeJson c) := by
    rintro ⟨hhead, hlength, hinner⟩
    obtain ⟨rest, hrest⟩ := List.head?_eq_some_iff.mp hhead
    rw [hrest] at hlength hinner ⊢
    cases rest with
    | nil => exact absurd hlength (by decide)
    | cons e more =>
      have hslash : Passes true ['\\', e] := fun _ => rfl
      exact hslash.append (.of_forall fun x hx => passes_inner (List.all_eq_true.mp hinner x hx))
  by_cases hsmall : c.toNat < 0x20
  · have hall : ∀ n < 0x20, (escapeJson (Char.ofNat n)).head? = some '\\' ∧
        2 ≤ (escapeJson (Char.ofNat n)).length ∧
        ((escapeJson (Char.ofNat n)).drop 2).all isInner = true := by decide
    have hc := hall c.toNat hsmall
    rw [Char.ofNat_toNat] at hc
    exact hescape hc
  by_cases hquote : c = '"'
  · subst hquote
    exact hescape (by decide)
  by_cases hslash : c = '\\'
  · subst hslash
    exact hescape (by decide)
  · obtain ⟨hwritten, hinner⟩ := escapeJson_plain hquote hslash hsmall
    rw [hwritten]
    exact passes_inner hinner

theorem passes_quote (s : String) : Passes false (quote s).toList := by
  intro rest
  have hopen : ∀ cs : List Char, readExpression false ('"' :: cs) =
      prepend ['"'] (readExpression true cs) := fun _ => rfl
  have hclose : readExpression true ('"' :: rest) = prepend ['"'] (readExpression false rest) := rfl
  have hbody : Passes true (s.toList.flatMap escapeJson) :=
    .flatMap fun c _ => passes_escapeJson c
  have htext : (quote s).toList = ['"'] ++ (s.toList.flatMap escapeJson ++ ['"']) := by
    simp [quote, quoteWith]
  rw [htext, prepend_append, prepend_append, ← hclose, ← hbody, ← hopen]
  simp

theorem passes_memberAccess (name : String) : Passes false (memberAccess name).toList := by
  rw [memberAccess]
  split
  · next hname =>
    rw [String.toList_append]
    exact .append (passes_mark (.inr (by decide)))
      (.of_forall fun c hc => passes_mark (.inl (isIdentChar_of_isIdentifier hname c hc)))
  · rw [String.toList_append, String.toList_append]
    exact .append (.append (passes_mark (.inr (by decide))) (passes_quote name))
      (passes_mark (.inr (by decide)))

theorem passes_accesses (path : List String) : Passes false (accesses path).toList := by
  rw [accesses, String.toList_join, List.flatMap_map]
  exact .flatMap fun name _ => passes_memberAccess name

end Script

/-- What replaces a placeholder is read as a whole. -/
theorem Resolver.passes_lookup {r : Resolver}
    (hnames : ∀ id, ∀ c ∈ (r.names.variableOf id).toList, isIdentChar c = true) {inner : List Char}
    {accessor : String} (h : r.lookup inner = .ok accessor) : Script.Passes false accessor.toList := by
  rcases lookup_ok h with ⟨path, rfl⟩ | ⟨x, -, -, path, rfl⟩
  · rw [String.toList_append]
    refine .append (.of_forall fun c hc => Script.passes_mark (.inl ?_)) (Script.passes_accesses path)
    exact List.all_eq_true.mp (by decide) c hc
  · rw [String.toList_append]
    exact .append (.of_forall fun c hc => Script.passes_mark (.inl (hnames _ c hc)))
      (Script.passes_accesses path)

/-! ### Texts and expressions -/

namespace Script

/-- What a template literal is read as: texts, and expressions whose values are put in. -/
inductive Span
  | text (chars : List Char)
  | value (expression : List Char)
  deriving DecidableEq, Repr

/-- Puts a character in front of spans, into the text that is there. -/
def Span.cons (c : Char) : List Span → List Span
  | .text cs :: spans => .text (c :: cs) :: spans
  | spans => .text [c] :: spans

/-- Reads a template literal behind its opening mark, up to the first mark that is not escaped: texts
and expressions, and what follows. -/
def readSpans (cs : List Char) : Option (List Span × List Char) :=
  match cs with
  | [] => none
  | '\x60' :: rest => some ([], rest)
  | '\\' :: c :: rest =>
    if c ∈ ['\\', '\x60', '$'] then
      (readSpans rest).map fun found => (Span.cons c found.1, found.2)
    else none
  | '$' :: '\x7b' :: rest =>
    match h : readExpression false rest with
    | none => none
    | some (e, after) =>
      have := length_of_readExpression h
      prepend [.value e] (readSpans after)
  | c :: rest =>
    -- a carriage return in front of a line feed does not count, any other is a line feed
    if c = '\r' ∧ rest.head? = some '\n' then readSpans rest
    else
      (readSpans rest).map fun found => (Span.cons (if c = '\r' then '\n' else c) found.1, found.2)
termination_by cs.length

/-- Reads a template literal: texts and expressions, and what follows. -/
def readTemplate : List Char → Option (List Span × List Char)
  | '\x60' :: rest => readSpans rest
  | _ => none

/-- Every line break as one line feed. -/
def unifyBreaks : List Char → List Char
  | [] => []
  | c :: rest =>
    if c = '\r' ∧ rest.head? = some '\n' then unifyBreaks rest
    else (if c = '\r' then '\n' else c) :: unifyBreaks rest

theorem readSpans_escape {c : Char} (hc : c ∈ ['\\', '\x60', '$']) (rest : List Char) :
    readSpans ('\\' :: c :: rest) =
      (readSpans rest).map fun found => (Span.cons c found.1, found.2) := by
  rw [readSpans, if_pos hc]

theorem readSpans_value {e : List Char} (he : Passes false e) (rest : List Char) :
    readSpans ('$' :: '\x7b' :: (e ++ '\x7d' :: rest)) = prepend [.value e] (readSpans rest) := by
  have hread := he.readExpression_eq rest
  rw [readSpans]
  split
  · next hnone =>
    rw [hread] at hnone
    cases hnone
  · next hsome =>
    rw [hread] at hsome
    cases hsome
    rfl

theorem readSpans_plain {c : Char} {rest : List Char} (hmark : c ≠ '\x60') (hslash : c ≠ '\\')
    (hopen : c = '$' → rest.head? ≠ some '\x7b') :
    readSpans (c :: rest) =
      if c = '\r' ∧ rest.head? = some '\n' then readSpans rest
      else
        (readSpans rest).map fun found =>
          (Span.cons (if c = '\r' then '\n' else c) found.1, found.2) := by
  rw [readSpans.eq_def]
  split
  · next heq => cases heq
  · next heq => exact absurd (List.cons.inj heq).1 hmark
  · next heq => exact absurd (List.cons.inj heq).1 hslash
  · next heq =>
    obtain ⟨rfl, rfl⟩ := List.cons.inj heq
    exact absurd rfl (hopen rfl)
  · next heq =>
    obtain ⟨rfl, rfl⟩ := List.cons.inj heq
    rfl

/-- Escaping makes no brace and no line feed at the front, and hides none. -/
theorem head?_escapeTemplate {x : Char} (hx : x ∈ ['\x7b', '\n']) (cs : List Char) {tail : List Char}
    (htail : tail.head? ≠ some x) :
    (escapeTemplate cs ++ tail).head? = some x ↔ cs.head? = some x := by
  have hapart : x ∉ ['\\', '\x60', '$'] := by
    rcases List.mem_pair.mp hx with rfl | rfl <;> decide
  have hne : ∀ {c : Char}, c ∈ ['\\', '\x60', '$'] → ∀ ds : List Char, (c :: ds).head? ≠ some x := by
    intro c hc ds heq
    obtain rfl := Option.some.inj heq
    exact hapart hc
  fun_cases escapeTemplate cs with
  | case1 => exact iff_of_false htail (Option.some_ne_none x).symm
  | case2 rest => exact iff_of_false (hne (by decide) _) (hne (by decide) _)
  | case3 => exact iff_of_false (hne (by decide) _) (hne (by decide) _)
  | case4 => exact iff_of_false (hne (by decide) _) (hne (by decide) _)
  | case5 => exact Iff.rfl

/-- Literal text is read as it was before, with its line breaks unified; what follows it may begin
neither with a brace nor with a line feed. -/
theorem readSpans_escapeTemplate (cs : List Char) {tail : List Char}
    (hbrace : tail.head? ≠ some '\x7b') (hfeed : tail.head? ≠ some '\n') :
    readSpans (escapeTemplate cs ++ tail) =
      (readSpans tail).map fun found => ((unifyBreaks cs).foldr Span.cons found.1, found.2) := by
  fun_induction escapeTemplate cs with
  | case1 =>
    rw [List.nil_append]
    exact Option.map_id'.symm
  | case2 rest ih =>
    have hplain : ∀ ds : List Char, readSpans ('\x7b' :: ds) =
        (readSpans ds).map fun found => (Span.cons '\x7b' found.1, found.2) := fun ds =>
      readSpans_plain (by decide) (by decide) fun h => absurd h (by decide)
    simp only [List.cons_append]
    rw [readSpans_escape (by decide), hplain, ih, Option.map_map, Option.map_map]
    rfl
  | case3 rest hopen ih =>
    simp only [List.cons_append]
    rw [readSpans_escape (by decide), ih, Option.map_map]
    rfl
  | case4 rest _ hopen ih =>
    simp only [List.cons_append]
    rw [readSpans_escape (by decide), ih, Option.map_map]
    rfl
  | case5 c rest hopen hslash hmark ih =>
    have hnext : c = '$' → (escapeTemplate rest ++ tail).head? ≠ some '\x7b' := by
      intro hc hhead
      obtain ⟨more, hmore⟩ := List.head?_eq_some_iff.mp
        ((head?_escapeTemplate (by decide) rest hbrace).mp hhead)
      exact hopen more hc hmore
    have hbreak : c = '\r' ∧ (escapeTemplate rest ++ tail).head? = some '\n' ↔
        c = '\r' ∧ rest.head? = some '\n' :=
      and_congr_right fun _ => head?_escapeTemplate (by decide) rest hfeed
    rw [List.cons_append, readSpans_plain hmark hslash hnext, unifyBreaks, ih]
    by_cases hreturn : c = '\r' ∧ rest.head? = some '\n'
    · rw [if_pos (hbreak.mpr hreturn), if_pos hreturn]
    · rw [if_neg (mt hbreak.mp hreturn), if_neg hreturn, Option.map_map]
      rfl

theorem unifyBreaks_ne_nil {cs : List Char} (h : cs ≠ []) : unifyBreaks cs ≠ [] := by
  induction cs with
  | nil => exact absurd rfl h
  | cons c rest ih =>
    rw [unifyBreaks]
    split
    · next hreturn =>
      refine ih ?_
      rintro rfl
      cases hreturn.2
    · exact List.cons_ne_nil _ _

theorem return_notMem_unifyBreaks (cs : List Char) : '\r' ∉ unifyBreaks cs := by
  fun_induction unifyBreaks cs with
  | case1 => exact List.not_mem_nil
  | case2 c rest hreturn ih => exact ih
  | case3 c rest hreturn ih =>
    rw [List.mem_cons, not_or]
    refine ⟨?_, ih⟩
    split
    · decide
    · next hc => exact Ne.symm hc

/-- Unifying the line breaks changes a text exactly if it has a carriage return. -/
theorem unifyBreaks_eq_self_iff {cs : List Char} : unifyBreaks cs = cs ↔ '\r' ∉ cs := by
  constructor
  · intro h
    rw [← h]
    exact return_notMem_unifyBreaks cs
  · intro h
    induction cs with
    | nil => rfl
    | cons c rest ih =>
      obtain ⟨hc, hrest⟩ := not_or.mp (mt List.mem_cons.mpr h)
      rw [unifyBreaks, if_neg fun hreturn => hc hreturn.1.symm, if_neg (Ne.symm hc), ih hrest]

theorem foldr_cons {cs : List Char} (hcs : cs ≠ []) {spans : List Span}
    (hspans : ∀ ds more, spans ≠ .text ds :: more) :
    cs.foldr Span.cons spans = .text cs :: spans := by
  induction cs with
  | nil => exact absurd rfl hcs
  | cons c cs ih =>
    cases cs with
    | nil =>
      rw [List.foldr_cons, List.foldr_nil, Span.cons.eq_def]
      split
      · next ds more => exact absurd rfl (hspans ds more)
      · rfl
    | cons d cs =>
      rw [List.foldr_cons, ih (List.cons_ne_nil _ _)]
      rfl

end Script

/-! ### Parts -/

theorem Part.Tidy.tail {part : Part} {parts : List Part} (h : Part.Tidy (part :: parts)) :
    Part.Tidy parts :=
  ⟨fun text hmem => h.lit_ne text (List.mem_cons_of_mem _ hmem), (List.isChain_cons.mp h.apart).2⟩

/-- What a part of a template should be read as. -/
def Part.span : Part → Script.Span
  | .lit text => .text text.toList
  | .ref _ accessor => .value accessor.toList

namespace Script

/-- A span with the line breaks of its text unified. -/
def Span.unified : Span → Span
  | .text cs => .text (unifyBreaks cs)
  | .value e => .value e

/-- The parts of a template are read one after the other, with their line breaks unified. -/
theorem readSpans_parts {parts : List Part} (htidy : Part.Tidy parts)
    (hrefs : ∀ placeholder accessor, .ref placeholder accessor ∈ parts →
      Passes false accessor.toList) (rest : List Char) :
    readSpans (parts.flatMap templatePart ++ '\x60' :: rest) =
      some ((parts.map Part.span).map Span.unified, rest) := by
  induction parts with
  | nil =>
    rw [List.flatMap_nil, List.nil_append, readSpans]
    rfl
  | cons part parts ih =>
    have hrest := ih htidy.tail fun placeholder accessor hmem =>
      hrefs placeholder accessor (List.mem_cons_of_mem _ hmem)
    cases part with
    | ref placeholder accessor =>
      have hpart : (Part.ref placeholder accessor :: parts).flatMap templatePart ++ '\x60' :: rest =
          '$' :: '\x7b' :: (accessor.toList ++ '\x7d' ::
            (parts.flatMap templatePart ++ '\x60' :: rest)) := by
        simp [templatePart]
      rw [hpart, readSpans_value (hrefs placeholder accessor List.mem_cons_self), hrest]
      rfl
    | lit text =>
      -- behind a text stands the end or an opener
      obtain ⟨hhead, hspans⟩ :
          ((parts.flatMap templatePart ++ '\x60' :: rest).head? = some '\x60' ∨
            (parts.flatMap templatePart ++ '\x60' :: rest).head? = some '$') ∧
          ∀ ds more, (parts.map Part.span).map Span.unified ≠ .text ds :: more := by
        cases parts with
        | nil => exact ⟨.inl rfl, fun _ _ => List.cons_ne_nil _ _ |>.symm⟩
        | cons next parts =>
          cases next with
          | lit next => exact absurd ⟨rfl, rfl⟩ (List.isChain_cons_cons.mp htidy.apart).1
          | ref placeholder accessor => exact ⟨.inr rfl, fun _ _ => by simp [Part.span, Span.unified]⟩
      have hne : text.toList ≠ [] := by
        simpa using htidy.lit_ne text List.mem_cons_self
      rw [List.flatMap_cons, List.append_assoc, templatePart, readSpans_escapeTemplate, hrest,
        Option.map_some, foldr_cons (unifyBreaks_ne_nil hne) hspans]
      · rfl
      · rcases hhead with hhead | hhead <;> rw [hhead] <;> decide
      · rcases hhead with hhead | hhead <;> rw [hhead] <;> decide

/-! ### Replacements -/

/-- Puts a backslash before every opener of an expression. -/
def escapeOpeners : List Char → List Char
  | [] => []
  | '$' :: '\x7b' :: rest => '\\' :: '$' :: '\x7b' :: escapeOpeners rest
  | c :: rest => c :: escapeOpeners rest

/-- What is replaced in a template literal before the openers are. -/
def templateTable : List (Char × Char) := [('\\', '\\'), ('\x60', '\x60')]

theorem escapeOpeners_cons {c : Char} {rest : List Char}
    (h : c = '$' → rest.head? ≠ some '\x7b') :
    escapeOpeners (c :: rest) = c :: escapeOpeners rest := by
  rw [escapeOpeners.eq_def]
  split
  · next heq => cases heq
  · next heq =>
    obtain ⟨rfl, rfl⟩ := List.cons.inj heq
    exact absurd rfl (h rfl)
  · next heq =>
    obtain ⟨rfl, rfl⟩ := List.cons.inj heq
    rfl

theorem escapeAll_templateTable (c : Char) (cs : List Char) :
    escapeAll templateTable (c :: cs) =
      (if c = '\\' then ['\\', '\\'] else if c = '\x60' then ['\\', '\x60'] else [c]) ++
        escapeAll templateTable cs := by
  rw [escapeAll_eq_flatMap, List.flatMap_cons, ← escapeAll_eq_flatMap]
  congr 1
  split
  · next h =>
    subst h
    rfl
  · next hslash =>
    split
    · next h =>
      subst h
      rfl
    · next hmark =>
      refine escapeAll_of_notMem ?_
      simp [templateTable, Ne.symm hslash, Ne.symm hmark]

/-- Literal text is written by three replacements one after the other, the openers last. -/
theorem escapeTemplate_eq_escapeOpeners (cs : List Char) :
    escapeTemplate cs = escapeOpeners (escapeAll templateTable cs) := by
  fun_induction escapeTemplate cs with
  | case1 => rfl
  | case2 rest ih =>
    rw [escapeAll_templateTable, escapeAll_templateTable, if_neg (by decide), if_neg (by decide),
      if_neg (by decide), if_neg (by decide), ih]
    rfl
  | case3 rest hopen ih =>
    rw [escapeAll_templateTable, if_pos rfl, ih]
    rfl
  | case4 rest _ hopen ih =>
    rw [escapeAll_templateTable, if_neg (by decide), if_pos rfl, ih]
    rfl
  | case5 c rest hopen hslash hmark ih =>
    have hnext : c = '$' → (escapeAll templateTable rest).head? ≠ some '\x7b' := by
      intro hc hhead
      cases rest with
      | nil => cases hhead
      | cons d rest =>
        rw [escapeAll_templateTable] at hhead
        split at hhead
        · cases hhead
        · split at hhead
          · cases hhead
          · exact hopen rest hc (congrArg (· :: rest) (Option.some.inj hhead))
    rw [escapeAll_templateTable, if_neg hslash, if_neg hmark, List.singleton_append,
      escapeOpeners_cons hnext, ih]

end Script

open Script

/-- Take a template with references that is not one reference alone.  Its literal text is written by
three replacements one after the other, and the template literal is read, up to its end, as the parts
of the template in order, with the line breaks in the literal text unified.  So it is read as the
parts themselves exactly if no literal text has a carriage return. -/
theorem template_reads_iff {r : Resolver} {w : Workflow} (hnames : r.names = Names.ofWorkflow w)
    (text : String) (hrefs : (r.resolve text).hasRefs = true)
    (hsole : (r.resolve text).soleRef? = none) :
    (∀ s, .lit s ∈ (r.resolve text).parts →
      templatePart (.lit s) = escapeOpeners (escapeAll templateTable s.toList)) ∧
    readTemplate (textValue (r.resolve text)).toList =
      some (((r.resolve text).parts.map Part.span).map Span.unified, []) ∧
    (readTemplate (textValue (r.resolve text)).toList =
        some ((r.resolve text).parts.map Part.span, []) ↔
      ∀ s, .lit s ∈ (r.resolve text).parts → '\r' ∉ s.toList) := by
  have hread : readTemplate (textValue (r.resolve text)).toList =
      some (((r.resolve text).parts.map Part.span).map Span.unified, []) := by
    have hvalue : textValue (r.resolve text) = templateLiteral (r.resolve text).parts := by
      rw [textValue, hsole]
      exact if_pos hrefs
    rw [hvalue, templateLiteral, String.toList_ofList]
    refine readSpans_parts (r.tidy_resolveTokens _) (fun placeholder accessor hmem => ?_) []
    obtain ⟨inner, -, -, hlookup⟩ := Resolver.lookup_of_ref hmem
    refine Resolver.passes_lookup (fun id => ?_) hlookup
    rw [hnames]
    exact Names.isIdentChar_variableOf _ id
  refine ⟨fun s _ => escapeTemplate_eq_escapeOpeners s.toList, hread, ?_⟩
  rw [hread, Option.some_inj, Prod.mk.injEq, and_iff_left rfl, List.map_map, List.map_inj_left]
  constructor
  · intro h s hs
    exact unifyBreaks_eq_self_iff.mp (Span.text.inj (h _ hs))
  · intro h part hpart
    cases part with
    | lit s => exact congrArg Span.text (unifyBreaks_eq_self_iff.mpr (h s hpart))
    | ref placeholder accessor => rfl

/-- A letter about an offer, with a carriage return in its prompt. -/
def letterFlow : Workflow where
  nodes :=
    [ { id := "start", config := .trigger {} },
      { id := "offer",
        config := .retrieval
          { source := "prices", query := "all", outputFields := some [{ name := "in \x7d \x60" }] } },
      { id := "letter", config := .agent { prompt := "Dear\rMadam, pay \x7b\x7boffer\x7d\x7d" } } ]
  edges :=
    [ { id := "e1", source := "start", target := "offer" },
      { id := "e2", source := "offer", target := "letter" } ]

/-- Marks, backslashes and openers are read as they were, in the text and in the name of a field. -/
theorem template_reads_letterFlow : ∃ r,
    r = letterFlow.resolve "letter" "\\\x60$\x7b$\x7b\x7boffer\x7d\x7d\x60" ∧
    r.hasRefs = true ∧ r.soleRef? = none ∧
    r.parts.map Part.span =
      [.text ['\\', '\x60', '$', '\x7b', '$'], .value "step_offer[\"in \x7d \x60\"]".toList,
        .text ['\x60']] ∧
    textValue r =
      "\x60\\\\\\\x60\\$\x7b$$\x7bstep_offer[\"in \x7d \x60\"]\x7d\\\x60\x60" ∧
    readTemplate (textValue r).toList = some (r.parts.map Part.span, []) := by
  have hrefs : (letterFlow.resolve "letter"
      "\\\x60$\x7b$\x7b\x7boffer\x7d\x7d\x60").hasRefs = true := by decide +kernel
  have hsole : (letterFlow.resolve "letter"
      "\\\x60$\x7b$\x7b\x7boffer\x7d\x7d\x60").soleRef? = none := by decide +kernel
  have hparts : (letterFlow.resolve "letter" "\\\x60$\x7b$\x7b\x7boffer\x7d\x7d\x60").parts =
      [.lit "\\\x60$\x7b$", .ref "\x7b\x7boffer\x7d\x7d" "step_offer[\"in \x7d \x60\"]",
        .lit "\x60"] := by decide +kernel
  refine ⟨_, rfl, hrefs, hsole, by rw [hparts]; rfl, by decide +kernel, ?_⟩
  refine (template_reads_iff rfl _ hrefs hsole).2.2.mpr fun s hs => ?_
  rw [show (Resolver.resolve _ _).parts = _ from hparts] at hs
  obtain rfl | rfl : s = "\\\x60$\x7b$" ∨ s = "\x60" := by simpa using hs
  · decide
  · decide

/-- The carriage return in the prompt is read as a line feed. -/
theorem letter_loses_return : ∃ r,
    r = letterFlow.resolve "letter" "Dear\rMadam, pay \x7b\x7boffer\x7d\x7d" ∧
    r.hasRefs = true ∧ r.soleRef? = none ∧
    r.parts.map Part.span =
      [.text "Dear\rMadam, pay ".toList, .value "step_offer[\"in \x7d \x60\"]".toList] ∧
    readTemplate (textValue r).toList =
      some ([.text "Dear\nMadam, pay ".toList, .value "step_offer[\"in \x7d \x60\"]".toList], []) ∧
    readTemplate (textValue r).toList ≠ some (r.parts.map Part.span, []) := by
  exact ⟨_, rfl, by decide +kernel⟩

end Flowscript
