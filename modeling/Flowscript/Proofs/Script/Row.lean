/-
The rows of a program text.

A program is put together from lines, and each line becomes rows of text: one, or for a comment as
many as it has lines of its own.  Where no row has a line feed inside, the rows can be read back from
the text, and what a row does shows at its beginning:

* `rowsOf_render` — the text of lines has just their rows;
* `assigned?_eq_some` — the variable that a row assigns to;
* `Settled` — a beginning that neither assigns to a variable nor declares one;
* `Marks` — what all rows of a piece of program assign to, in order.
-/
import Flowscript.Proofs.Text.OneLine
import Flowscript.Script.Emit

namespace Flowscript

open Text

/-! ### Pieces and lines of texts -/

namespace Text

theorem pieces_append {sep : Char} {cs : List Char} (h : sep ∉ cs) (rest : List Char) :
    pieces sep (cs ++ sep :: rest) = cs :: pieces sep rest := by
  induction cs with
  | nil => rw [List.nil_append, pieces, if_pos rfl]
  | cons c cs ih =>
    obtain ⟨hc, hcs⟩ := not_or.mp (mt List.mem_cons.mpr h)
    rw [List.cons_append, pieces, if_neg (Ne.symm hc), ih hcs]

theorem sep_notMem_pieces {sep : Char} {cs p : List Char} (h : p ∈ pieces sep cs) : sep ∉ p := by
  induction cs generalizing p with
  | nil =>
    rw [List.mem_singleton.mp h]
    exact List.not_mem_nil
  | cons c cs ih =>
    rw [pieces] at h
    split at h
    · rcases List.mem_cons.mp h with rfl | h
      · exact List.not_mem_nil
      · exact ih h
    · rename_i hc
      split at h
      · rw [List.mem_singleton.mp h, List.mem_singleton]
        exact Ne.symm hc
      · rename_i q qs hpieces
        rw [hpieces] at ih
        rcases List.mem_cons.mp h with rfl | h
        · rw [List.mem_cons, not_or]
          exact ⟨Ne.symm hc, ih List.mem_cons_self⟩
        · exact ih (List.mem_cons_of_mem _ h)

/-- A line is a piece between line feeds, maybe without its last character. -/
theorem exists_piece_of_mem_lines {s part : String} (h : part ∈ lines s) :
    ∃ p ∈ pieces '\n' s.toList, part.toList <+: p := by
  have hlines : ∀ ps : List (List Char), ∀ cs ∈ linesOfPieces ps, ∃ p ∈ ps, cs <+: p := by
    intro ps
    fun_induction linesOfPieces ps with
    | case1 => simp
    | case2 last hlast => simp
    | case3 last hlast => simp
    | case4 p q ps ih =>
      refine List.forall_mem_cons.mpr ⟨⟨p, List.mem_cons_self, ?_⟩, fun cs hcs => ?_⟩
      · rw [dropReturn]
        split
        · exact List.dropLast_prefix p
        · exact List.prefix_rfl
      · obtain ⟨r, hr, hcut⟩ := ih cs hcs
        exact ⟨r, List.mem_cons_of_mem _ hr, hcut⟩
  obtain ⟨cs, hcs, rfl⟩ := List.mem_map.mp h
  rw [String.toList_ofList]
  exact hlines _ cs hcs

theorem oneLine_of_mem_lines {s part : String} (h : part ∈ lines s) : OneLine part := by
  obtain ⟨p, hp, hcut⟩ := exists_piece_of_mem_lines h
  exact fun hmem => sep_notMem_pieces hp (hcut.mem hmem)

end Text

namespace Script

/-! ### From lines to rows -/

/-- The rows of a text, each without the spaces in front. -/
def rowsOf (code : String) : List (List Char) :=
  (pieces '\n' code.toList).map fun row => row.dropWhile (· == ' ')

/-- The rows of a line, without indentation. -/
def Line.rows : Line → List (List Char)
  | plain text => [text.toList]
  | blank => [[]]
  | comment text => (lines text).map fun part => "// ".toList ++ (trimEnd part).toList
  | opening text => [text.toList]
  | closing text => [text.toList]
  | turning text => [text.toList]

/-- A row that can be read back from a text. -/
def Flush (row : List Char) : Prop := '\n' ∉ row ∧ row.head? ≠ some ' '

theorem dropWhile_eq_self {row : List Char} (h : row.head? ≠ some ' ') :
    row.dropWhile (· == ' ') = row := by
  cases row with
  | nil => rfl
  | cons c row => exact List.dropWhile_cons_of_neg (by simpa using h)

theorem toList_indented (depth : Nat) (text rest : String) : (indented depth text ++ rest).toList =
    (List.replicate (2 * depth) ' ' ++ text.toList) ++ '\n' :: rest.toList := by
  simp [indented, String.toList_append]

theorem rowsOf_indented {text : String} (h : Flush text.toList) (depth : Nat) (rest : String) :
    rowsOf (indented depth text ++ rest) = text.toList :: rowsOf rest := by
  have hnone : '\n' ∉ List.replicate (2 * depth) ' ' ++ text.toList := by
    rw [List.mem_append, List.mem_replicate]
    rintro (⟨-, hmem⟩ | hmem)
    · exact absurd hmem (by decide)
    · exact h.1 hmem
  rw [rowsOf, toList_indented, pieces_append hnone, List.map_cons, List.dropWhile_append_of_pos (by simp),
    dropWhile_eq_self h.2]
  rfl

theorem rowsOf_comment (parts : List String) (h : ∀ part ∈ parts, OneLine part) (depth : Nat)
    (rest : String) :
    rowsOf (String.join (parts.map fun part => indented depth ("// " ++ trimEnd part)) ++ rest) =
      (parts.map fun part => "// ".toList ++ (trimEnd part).toList) ++ rowsOf rest := by
  induction parts with
  | nil => simp
  | cons part parts ih =>
    obtain ⟨hpart, hparts⟩ := List.forall_mem_cons.mp h
    have hflush : Flush ("// " ++ trimEnd part).toList := by
      refine ⟨oneLine_append.mpr ⟨by decide, hpart.trimEnd⟩, ?_⟩
      rw [String.toList_append]
      exact fun hhead => absurd (Option.some.inj hhead) (by decide)
    rw [List.map_cons, String.join_cons, String.append_assoc, rowsOf_indented hflush, ih hparts,
      String.toList_append]
    rfl

theorem rowsOf_line {l : Line} (h : ∀ row ∈ l.rows, Flush row) (depth : Nat) (rest : String) :
    rowsOf (l.render depth ++ rest) = l.rows ++ rowsOf rest := by
  cases l with
  | blank =>
    rw [rowsOf, Line.render, String.toList_append]
    rfl
  | comment text => exact rowsOf_comment _ (fun _ => oneLine_of_mem_lines) depth rest
  | plain text => exact rowsOf_indented (h _ (List.mem_singleton_self _)) depth rest
  | opening text => exact rowsOf_indented (h _ (List.mem_singleton_self _)) depth rest
  | closing text => exact rowsOf_indented (h _ (List.mem_singleton_self _)) (depth - 1) rest
  | turning text => exact rowsOf_indented (h _ (List.mem_singleton_self _)) (depth - 1) rest

/-- The text of lines has their rows, and nothing behind the last of them. -/
theorem rowsOf_render {ls : List Line} (h : ∀ row ∈ ls.flatMap Line.rows, Flush row) :
    rowsOf (render ls) = ls.flatMap Line.rows ++ [[]] := by
  have hfrom : ∀ depth, rowsOf (renderFrom depth ls) = ls.flatMap Line.rows ++ [[]] := by
    induction ls with
    | nil => exact fun _ => rfl
    | cons l ls ih =>
      intro depth
      rw [List.flatMap_cons] at h ⊢
      rw [renderFrom, rowsOf_line fun row hrow => h row (List.mem_append_left _ hrow),
        ih fun row hrow => h row (List.mem_append_right _ hrow), List.append_assoc]
  exact hfrom 0

/-! ### What a row does -/

/-- A row assigns to a variable. -/
def Assigns (v : String) (row : List Char) : Prop := (v ++ " = ").toList <+: row

/-- A row declares a variable. -/
def Declares (v : String) (row : List Char) : Prop := row = ("let " ++ v ++ ": any;").toList

instance (v : String) (row : List Char) : Decidable (Assigns v row) :=
  inferInstanceAs (Decidable (_ <+: _))

instance (v : String) (row : List Char) : Decidable (Declares v row) :=
  inferInstanceAs (Decidable (_ = _))

/-- The variable that a row assigns to. -/
def assigned? (row : List Char) : Option String :=
  if " = ".toList.isPrefixOf (row.dropWhile isIdentChar) then
    some (String.ofList (row.takeWhile isIdentChar))
  else none

theorem assigned?_eq_some {row : List Char} {v : String} :
    assigned? row = some v ↔ (∀ c ∈ v.toList, isIdentChar c = true) ∧ Assigns v row := by
  rw [assigned?, Assigns, String.toList_append]
  constructor
  · intro h
    split at h
    · rename_i hprefix
      obtain rfl := Option.some.inj h
      obtain ⟨rest, hrest⟩ := List.isPrefixOf_iff_prefix.mp hprefix
      rw [String.toList_ofList]
      refine ⟨fun c hc => ?_, rest, ?_⟩
      · exact List.all_eq_true.mp List.all_takeWhile c hc
      · rw [List.append_assoc, hrest, List.takeWhile_append_dropWhile]
    · simp at h
  · rintro ⟨hv, rest, rfl⟩
    have hspace : " = ".toList ++ rest = ' ' :: ('=' :: ' ' :: rest) := rfl
    have htake : (v.toList ++ " = ".toList ++ rest).takeWhile isIdentChar = v.toList := by
      rw [List.append_assoc, List.takeWhile_append_of_pos hv, hspace,
        List.takeWhile_cons_of_neg (by decide), List.append_nil]
    have hdrop : (v.toList ++ " = ".toList ++ rest).dropWhile isIdentChar = " = ".toList ++ rest := by
      rw [List.append_assoc, List.dropWhile_append_of_pos hv, hspace,
        List.dropWhile_cons_of_neg (by decide)]
    rw [htake, hdrop, if_pos (List.isPrefixOf_iff_prefix.mpr (List.prefix_append _ _)),
      String.ofList_toList]

/-- Whether the beginning of a row shows that it neither assigns to a variable nor declares one: a
word, maybe an empty one, and then neither a blank nor more of the word.  Behind other words than
`let` a blank may follow, too, but no sign of an assignment. -/
def settles (row : List Char) : Bool :=
  match row.dropWhile isIdentChar with
  | [] => false
  | c :: rest =>
    c != ' ' || (row.takeWhile isIdentChar != [] && row.takeWhile isIdentChar != "let".toList &&
      rest.head?.any (· != '='))

/-- The beginning of a text shows that a row with it neither assigns nor declares. -/
def Settled (text : String) : Prop := settles text.toList = true

instance (text : String) : Decidable (Settled text) := inferInstanceAs (Decidable (_ = true))

example : Settled "return \x7b" ∧ ¬Settled "let x" ∧ ¬Settled "x = 1" := by decide

namespace Settled

variable {text : String}

theorem iff_breaks : Settled text ↔ ∃ c rest, text.toList.dropWhile isIdentChar = c :: rest ∧
    (c = ' ' → text.toList.takeWhile isIdentChar ≠ [] ∧
      text.toList.takeWhile isIdentChar ≠ "let".toList ∧ ∃ d more, rest = d :: more ∧ d ≠ '=') := by
  rw [Settled, settles]
  rcases text.toList.dropWhile isIdentChar with _ | ⟨c, rest⟩
  · simp
  · rcases rest with _ | ⟨d, more⟩ <;> simp [or_iff_not_imp_left, and_assoc]

theorem append (h : Settled text) (more : String) : Settled (text ++ more) := by
  obtain ⟨c, rest, hrest, hspace⟩ := iff_breaks.mp h
  have hdrop : (text ++ more).toList.dropWhile isIdentChar = c :: (rest ++ more.toList) := by
    rw [String.toList_append, List.dropWhile_append, hrest]
    rfl
  have htake : (text ++ more).toList.takeWhile isIdentChar = text.toList.takeWhile isIdentChar := by
    have hlength := congrArg List.length (@List.takeWhile_append_dropWhile _ isIdentChar text.toList)
    rw [hrest, List.length_append, List.length_cons] at hlength
    rw [String.toList_append, List.takeWhile_append, if_neg (by omega)]
  refine iff_breaks.mpr ⟨c, _, hdrop, fun hblank => ?_⟩
  obtain ⟨hword, hlet, d, tail, rfl, hne⟩ := hspace hblank
  rw [htake]
  exact ⟨hword, hlet, d, _, rfl, hne⟩

/-- A word with something behind it that is neither a blank nor part of it. -/
theorem of_word {name : String} (hname : ∀ x ∈ name.toList, isIdentChar x = true) {c : Char}
    (htext : text.toList.head? = some c) (hc : isIdentChar c = false) (hblank : c ≠ ' ') :
    Settled (name ++ text) := by
  obtain ⟨rest, hrest⟩ := List.head?_eq_some_iff.mp htext
  refine iff_breaks.mpr ⟨c, rest, ?_, fun h => absurd h hblank⟩
  rw [String.toList_append, List.dropWhile_append_of_pos hname, hrest,
    List.dropWhile_cons_of_neg (by simp [hc])]

theorem head_ne (h : Settled text) : text.toList.head? ≠ some ' ' := by
  intro hhead
  obtain ⟨tail, htail⟩ := List.head?_eq_some_iff.mp hhead
  obtain ⟨c, rest, hrest, hspace⟩ := iff_breaks.mp h
  rw [htail, List.dropWhile_cons_of_neg (by decide), List.cons.injEq] at hrest
  refine (hspace hrest.1.symm).1 ?_
  rw [htail, List.takeWhile_cons_of_neg (by decide)]

theorem assigned?_eq_none (h : Settled text) : assigned? text.toList = none := by
  refine if_neg fun hprefix => ?_
  obtain ⟨tail, htail⟩ := List.isPrefixOf_iff_prefix.mp hprefix
  obtain ⟨c, rest, hrest, hspace⟩ := iff_breaks.mp h
  have hsplit : ' ' :: '=' :: ' ' :: tail = c :: rest := htail.trans hrest
  obtain ⟨rfl, rfl⟩ := List.cons.inj hsplit
  obtain ⟨-, -, d, more, hd, hne⟩ := hspace rfl
  exact hne (List.cons.inj hd).1.symm

theorem not_let (h : Settled text) : ¬"let ".toList <+: text.toList := by
  rintro ⟨tail, htail⟩
  have hsplit : text.toList = "let".toList ++ ' ' :: tail := htail.symm
  have hword : ∀ x ∈ "let".toList, isIdentChar x = true := List.all_eq_true.mp (by decide)
  obtain ⟨c, rest, hrest, hspace⟩ := iff_breaks.mp h
  rw [hsplit, List.dropWhile_append_of_pos hword, List.dropWhile_cons_of_neg (by decide),
    List.cons.injEq] at hrest
  refine (hspace hrest.1.symm).2.1 ?_
  rw [hsplit, List.takeWhile_append_of_pos hword, List.takeWhile_cons_of_neg (by decide),
    List.append_nil]

end Settled

/-! ### What a piece of program does -/

/-- A row that can be read back, and neither assigns to a variable nor declares one. -/
def Still (row : List Char) : Prop := Flush row ∧ ¬"let ".toList <+: row ∧ assigned? row = none

theorem Settled.still {text : String} (h : Settled text) (hline : OneLine text) :
    Still text.toList :=
  ⟨⟨hline, h.head_ne⟩, h.not_let, h.assigned?_eq_none⟩

/-- Nothing is assigned to or declared by a line. -/
def Line.Still (l : Line) : Prop := ∀ row ∈ l.rows, Script.Still row

namespace Line

theorem still_comment (text : String) : (comment text).Still := by
  intro row hrow
  obtain ⟨part, hpart, rfl⟩ := List.mem_map.mp hrow
  have hsettled : Settled ("// " ++ trimEnd part) := (by decide : Settled "// ").append _
  rw [← String.toList_append]
  exact hsettled.still (oneLine_append.mpr ⟨by decide, (oneLine_of_mem_lines hpart).trimEnd⟩)

theorem still_blank : blank.Still :=
  List.forall_mem_singleton.mpr ⟨⟨List.not_mem_nil, by simp⟩, by decide, rfl⟩

variable {text : String} (h : Settled text) (hline : OneLine text)
include h hline

theorem still_plain : (plain text).Still := List.forall_mem_singleton.mpr (h.still hline)

theorem still_opening : (opening text).Still := List.forall_mem_singleton.mpr (h.still hline)

theorem still_closing : (closing text).Still := List.forall_mem_singleton.mpr (h.still hline)

theorem still_openBrace : (openBrace text).Still := by
  refine List.forall_mem_singleton.mpr ((h.append _).still ?_)
  exact oneLine_append.mpr ⟨hline, by decide⟩

end Line

/-- Rows that can be read back, declare nothing and assign to the given variables, in this order. -/
structure Marks (rows : List (List Char)) (vs : List String) : Prop where
  flush : ∀ row ∈ rows, Flush row
  undeclared : ∀ row ∈ rows, ¬"let ".toList <+: row
  assigned : rows.filterMap assigned? = vs

theorem Marks.append {rows rows' : List (List Char)} {vs vs' : List String} (h : Marks rows vs)
    (h' : Marks rows' vs') : Marks (rows ++ rows') (vs ++ vs') where
  flush := List.forall_mem_append.mpr ⟨h.flush, h'.flush⟩
  undeclared := List.forall_mem_append.mpr ⟨h.undeclared, h'.undeclared⟩
  assigned := by rw [List.filterMap_append, h.assigned, h'.assigned]

namespace Piece

/-- The rows of a piece of program. -/
def rows (p : Piece) : List (List Char) := p.lines.flatMap Line.rows

/-- Nothing is assigned to or declared by a piece of program. -/
def Still (p : Piece) : Prop := ∀ l ∈ p.lines, l.Still

/-- A piece of program assigns to the given variables, in this order, and declares none. -/
def Sets (p : Piece) (vs : List String) : Prop := Marks p.rows vs

@[simp] theorem still_empty : ({} : Piece).Still := by simp [Still]

@[simp] theorem still_ofLines {ls : List Line} : (ofLines ls).Still ↔ ∀ l ∈ ls, l.Still := Iff.rfl

@[simp] theorem still_append {p q : Piece} : (p ++ q).Still ↔ p.Still ∧ q.Still :=
  List.forall_mem_append

@[simp] theorem still_concat {ps : List Piece} : (concat ps).Still ↔ ∀ p ∈ ps, p.Still := by
  induction ps with
  | nil => simp [concat]
  | cons p ps ih => simp [concat, ih]

@[simp] theorem still_ofTemplate {line : String → Line} {write : Resolved → String} {r : Resolved} :
    (ofTemplate line write r).Still ↔ (line (write r)).Still :=
  List.forall_mem_singleton

variable {p q : Piece} {vs us : List String}

theorem Still.sets (h : p.Still) : p.Sets [] where
  flush row hrow := by
    obtain ⟨l, hl, hrow⟩ := List.mem_flatMap.mp hrow
    exact (h l hl row hrow).1
  undeclared row hrow := by
    obtain ⟨l, hl, hrow⟩ := List.mem_flatMap.mp hrow
    exact (h l hl row hrow).2.1
  assigned := by
    refine List.filterMap_eq_nil_iff.mpr fun row hrow => ?_
    obtain ⟨l, hl, hrow⟩ := List.mem_flatMap.mp hrow
    exact (h l hl row hrow).2.2

theorem Sets.append (hp : p.Sets vs) (hq : q.Sets us) : (p ++ q).Sets (vs ++ us) := by
  have hrows : (p ++ q).rows = p.rows ++ q.rows := List.flatMap_append
  rw [Sets, hrows]
  exact Marks.append hp hq

theorem Sets.cons {v : String} (hp : p.Sets [v]) (hq : q.Sets us) : (p ++ q).Sets (v :: us) :=
  hp.append hq

/-- What does nothing may stand in front. -/
theorem Still.append_sets (hp : p.Still) (hq : q.Sets us) : (p ++ q).Sets us :=
  hp.sets.append hq

/-- What does nothing may stand behind. -/
theorem Sets.append_still (hp : p.Sets vs) (hq : q.Still) : (p ++ q).Sets vs := by
  have := hp.append hq.sets
  rwa [List.append_nil] at this

end Piece

theorem Assigns.append {v text : String} (h : Assigns v text.toList) (more : String) :
    Assigns v (text ++ more).toList := by
  rw [String.toList_append]
  exact h.trans (List.prefix_append _ _)

theorem assigns_append (v : String) {text : String} (h : " = ".toList <+: text.toList) :
    Assigns v (v ++ text).toList := by
  rw [Assigns, String.toList_append, String.toList_append]
  exact (List.prefix_append_right_inj _).mpr h

/-- A line that assigns to a variable. -/
theorem sets_assignment {l : Line} {v text : String} {rest : List Char}
    (hv : v.toList = "step_".toList ++ rest) (hrest : ∀ c ∈ rest, isIdentChar c = true)
    (htext : Assigns v text.toList) (hline : OneLine text) (hl : l.rows = [text.toList]) :
    (Piece.ofLines [l]).Sets [v] := by
  have hident : ∀ c ∈ v.toList, isIdentChar c = true := by
    rw [hv]
    exact List.forall_mem_append.mpr ⟨List.all_eq_true.mp (by decide), hrest⟩
  obtain ⟨more, hchars⟩ : ∃ more, text.toList = 's' :: more := by
    obtain ⟨value, hvalue⟩ := htext
    rw [← hvalue, String.toList_append, hv]
    exact ⟨_, rfl⟩
  have hrows : (Piece.ofLines [l]).rows = [text.toList] := by
    rw [Piece.rows, Piece.ofLines, List.flatMap_singleton, hl]
  rw [Piece.Sets, hrows]
  refine ⟨List.forall_mem_singleton.mpr ⟨hline, ?_⟩, List.forall_mem_singleton.mpr ?_, ?_⟩
  · rw [hchars]
    exact fun hhead => absurd (Option.some.inj hhead) (by decide)
  · rw [hchars]
    exact fun hlet => absurd (List.cons_prefix_cons.mp hlet).1 (by decide)
  · rw [List.filterMap_cons, assigned?_eq_some.mpr ⟨hident, htext⟩, List.filterMap_nil]

end Script

end Flowscript
