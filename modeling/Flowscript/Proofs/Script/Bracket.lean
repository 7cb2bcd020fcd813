/-
The brackets of an emitted program.

Lines open brackets and close them again, and what stands between is written one level deeper.  A line
that closes brackets has to close those of the line that opened them, which are read off its text:
`x = await runtime.runAgent({` is closed by `});`, and `(async () => {` by `})(),`.

* `Nested` — lines in which every line that opens brackets has its own line that closes them;
* `Nested.levelAfter_eq`, `Nested.above` — nested lines end at the level at which they begin, and never
  go below it on the way;
* `Nested.reads_brackets` — where all brackets are read off the texts, the lines that open and close
  something are balanced as one text;
* `nested_blockPiece` — blocks are nested;
* `emit_nested` — whole programs are, if the conditions that end loops are taken as a whole; such a
  condition comes from the user, and may leave brackets open (`condition_breaks_brackets`).
-/
import Flowscript.Proofs.Plan.Part
import Flowscript.Proofs.Reference.Names
import Flowscript.Proofs.Script.Comment

namespace Flowscript

open Text

namespace Script

/-! ### Brackets of texts -/

/-- The bracket that closes another one. -/
def closer? : Char → Option Char
  | '(' => some ')'
  | '[' => some ']'
  | '\x7b' => some '\x7d'
  | _ => none

/-- Reads a character of a text, of which the brackets are awaited that are still to be closed, the
innermost first.  A bracket can be closed only if it is the innermost. -/
def readBracket (awaited : List Char) (c : Char) : Option (List Char) :=
  match closer? c with
  | some d => some (d :: awaited)
  | none =>
    if c = ')' ∨ c = ']' ∨ c = '\x7d' then
      if awaited.head? = some c then some awaited.tail else none
    else some awaited

/-- Reading a text leads from some awaited brackets to others. -/
def Reads (awaited : List Char) (text : String) (left : List Char) : Prop :=
  text.toList.foldlM readBracket awaited = some left

instance (awaited : List Char) (text : String) (left : List Char) :
    Decidable (Reads awaited text left) := inferInstanceAs (Decidable (_ = _))

example : Reads [] "(async () => \x7b" ['\x7d', ')'] ∧ Reads ['\x7d', ')'] "\x7d)()," [] ∧
    ¬Reads ['\x7d', ')'] ")" ['\x7d'] := by decide

theorem Reads.append {awaited left rest : List Char} {s t : String} (h : Reads awaited s left)
    (h' : Reads left t rest) : Reads awaited (s ++ t) rest := by
  rw [Reads, String.toList_append, List.foldlM_append, h]
  exact h'

theorem readBracket_of_isIdentChar {c : Char} (h : isIdentChar c = true) (awaited : List Char) :
    readBracket awaited c = some awaited := by
  have hopen : closer? c = none := by
    rw [closer?.eq_def]
    split
    · exact absurd h (by decide)
    · exact absurd h (by decide)
    · exact absurd h (by decide)
    · rfl
  rw [readBracket, hopen]
  refine if_neg ?_
  rintro (rfl | rfl | rfl) <;> exact absurd h (by decide)

/-- There are no brackets in a word. -/
theorem reads_word {s : String} (h : ∀ c ∈ s.toList, isIdentChar c = true) (awaited : List Char) :
    Reads awaited s awaited := by
  rw [Reads]
  generalize s.toList = cs at h ⊢
  induction cs with
  | nil => rfl
  | cons c cs ih =>
    obtain ⟨hc, hcs⟩ := List.forall_mem_cons.mp h
    rw [List.foldlM_cons, readBracket_of_isIdentChar hc]
    exact ih hcs

theorem readBracket_below {awaited left : List Char} {c : Char}
    (h : readBracket awaited c = some left) (below : List Char) :
    readBracket (awaited ++ below) c = some (left ++ below) := by
  rw [readBracket] at h ⊢
  split at h
  · obtain rfl := Option.some.inj h
    rfl
  · split at h
    · rename_i hclosing
      rw [if_pos hclosing]
      split at h
      · rename_i hhead
        obtain ⟨rest, rfl⟩ := List.head?_eq_some_iff.mp hhead
        obtain rfl := Option.some.inj h
        exact if_pos rfl
      · exact absurd h (Option.some_ne_none _).symm
    · rename_i hother
      rw [if_neg hother, Option.some.inj h]

/-- Whatever else is awaited stays awaited. -/
theorem Reads.below {awaited left : List Char} {s : String} (h : Reads awaited s left)
    (below : List Char) : Reads (awaited ++ below) s (left ++ below) := by
  rw [Reads] at h ⊢
  generalize s.toList = cs at h ⊢
  induction cs generalizing awaited with
  | nil =>
    obtain rfl := Option.some.inj h
    rfl
  | cons c cs ih =>
    rw [List.foldlM_cons] at h ⊢
    obtain ⟨next, hnext, hrest⟩ := Option.bind_eq_some_iff.mp h
    rw [readBracket_below hnext below]
    exact ih hrest

/-! ### Nested lines -/

namespace Line

/-- A line that neither opens nor closes anything. -/
def isFlat : Line → Bool
  | plain _ => true
  | blank => true
  | comment _ => true
  | _ => false

/-- A line that is written one level less deep than what stands before it. -/
def dedents : Line → Bool
  | closing _ => true
  | turning _ => true
  | _ => false

/-- The text of a line that opens or closes something. -/
def brackets : Line → List Char
  | opening text => text.toList
  | closing text => text.toList
  | turning text => text.toList
  | _ => []

end Line

/-- The brackets that an opening line leaves to be closed.  They are read off its text, but for an `if`
with a guard: the guard is taken as a whole, whatever brackets the expression of the user has. -/
inductive Opens (guards : String → Prop) : String → List Char → Prop
  | read {text : String} {awaited : List Char} (reads : Reads [] text awaited)
      (some : awaited ≠ []) : Opens guards text awaited
  | guard {e : String} (given : guards e) : Opens guards ("if (" ++ e ++ ")" ++ " \x7b") ['\x7d']

theorem Reads.opens {guards : String → Prop} {text : String} {d : Char} {awaited : List Char}
    (h : Reads [] text (d :: awaited)) : Opens guards text (d :: awaited) :=
  .read h (List.cons_ne_nil _ _)

/-- The texts that close brackets. -/
def closers : List String := ["\x7d", "\x7d);", "\x7d,", "],", "\x7d)(),", "]),", "\x7d;"]

/-- A closing line closes all that is awaited. -/
structure Closes (awaited : List Char) (text : String) : Prop where
  known : text ∈ closers
  reads : Reads awaited text []

theorem closes_brace : Closes ['\x7d'] "\x7d" := ⟨by decide, by decide⟩

/-- Every line that opens brackets has a line of its own that closes them, and the lines between are
nested themselves. -/
inductive Nested (guards : String → Prop) : List Line → Prop
  | nil : Nested guards []
  | flat {l : Line} {ls : List Line} (flat : l.isFlat = true) (more : Nested guards ls) :
    Nested guards (l :: ls)
  | block {text last : String} {awaited : List Char} {inner ls : List Line}
      (opens : Opens guards text awaited) (closes : Closes awaited last)
      (inside : Nested guards inner) (more : Nested guards ls) :
    Nested guards (.opening text :: (inner ++ .closing last :: ls))
  | turn {text first next last : String} {awaited later : List Char} {inner other ls : List Line}
      (opens : Opens guards text awaited) (turns : Closes awaited first)
      (reopens : Opens guards next later) (closes : Closes later last)
      (inside : Nested guards inner) (beside : Nested guards other) (more : Nested guards ls) :
    Nested guards
      (.opening text :: (inner ++ .turning (first ++ next) :: (other ++ .closing last :: ls)))

/-- The level behind lines. -/
def levelAfter (depth : Nat) (ls : List Line) : Nat := ls.foldl Line.after depth

/-- No line goes below a level: at every line that is written less deep, there is a level to leave. -/
def Above (floor : Nat) : Nat → List Line → Prop
  | _, [] => True
  | depth, l :: ls => (l.dedents = true → floor < depth) ∧ Above floor (l.after depth) ls

theorem above_split {floor depth : Nat} {before after : List Line} {l : Line}
    (h : Above floor depth (before ++ l :: after)) (hl : l.dedents = true) :
    floor < levelAfter depth before := by
  induction before generalizing depth with
  | nil => exact h.1 hl
  | cons first before ih => exact ih h.2

theorem above_append {floor depth : Nat} {ls ls' : List Line} (h : Above floor depth ls)
    (h' : Above floor (levelAfter depth ls) ls') : Above floor depth (ls ++ ls') := by
  induction ls generalizing depth with
  | nil => exact h'
  | cons l ls ih => exact ⟨h.1, ih h.2 h'⟩

theorem levelAfter_cons (depth : Nat) (l : Line) (ls : List Line) :
    levelAfter depth (l :: ls) = levelAfter (l.after depth) ls := rfl

theorem levelAfter_append (depth : Nat) (ls ls' : List Line) :
    levelAfter depth (ls ++ ls') = levelAfter (levelAfter depth ls) ls' :=
  List.foldl_append

theorem after_of_isFlat {l : Line} (h : l.isFlat = true) (depth : Nat) : l.after depth = depth := by
  cases l with
  | opening | closing | turning => exact absurd h Bool.false_ne_true
  | _ => rfl

theorem dedents_of_isFlat {l : Line} (h : l.isFlat = true) : l.dedents = false := by
  cases l with
  | opening | closing | turning => exact absurd h Bool.false_ne_true
  | _ => rfl

theorem brackets_of_isFlat {l : Line} (h : l.isFlat = true) : l.brackets = [] := by
  cases l with
  | opening | closing | turning => exact absurd h Bool.false_ne_true
  | _ => rfl

namespace Nested

variable {guards : String → Prop} {ls ls' : List Line}

theorem append (h : Nested guards ls) (h' : Nested guards ls') : Nested guards (ls ++ ls') := by
  induction h with
  | nil => exact h'
  | flat flat _ ih => exact .flat flat ih
  | block opens closes inside _ _ ih =>
    rw [List.cons_append, List.append_assoc, List.cons_append]
    exact .block opens closes inside ih
  | turn opens turns reopens closes inside beside _ _ _ ih =>
    rw [List.cons_append, List.append_assoc, List.cons_append, List.append_assoc, List.cons_append]
    exact .turn opens turns reopens closes inside beside ih

theorem of_flat (h : ∀ l ∈ ls, l.isFlat = true) : Nested guards ls := by
  induction ls with
  | nil => exact .nil
  | cons l ls ih =>
    obtain ⟨hl, hls⟩ := List.forall_mem_cons.mp h
    exact .flat hl (ih hls)

/-- Nested lines end at the level at which they begin. -/
theorem levelAfter_eq (h : Nested guards ls) (depth : Nat) : levelAfter depth ls = depth := by
  induction h generalizing depth with
  | nil => rfl
  | flat flat _ ih => rw [levelAfter_cons, after_of_isFlat flat, ih]
  | block _ _ _ _ ihInside ih =>
    rw [levelAfter_cons, levelAfter_append, levelAfter_cons, ihInside, ih]
    rfl
  | turn _ _ _ _ _ _ _ ihInside ihBeside ih =>
    rw [levelAfter_cons, levelAfter_append, levelAfter_cons, levelAfter_append, levelAfter_cons,
      ihInside, ihBeside, ih]
    rfl

/-- Nested lines do not go below the level at which they begin. -/
theorem above (h : Nested guards ls) {floor depth : Nat} (hfloor : floor ≤ depth) :
    Above floor depth ls := by
  induction h generalizing depth with
  | nil => exact trivial
  | flat flat _ ih =>
    refine ⟨fun hdedents => ?_, ?_⟩
    · rw [dedents_of_isFlat flat] at hdedents
      exact absurd hdedents Bool.false_ne_true
    · rw [after_of_isFlat flat]
      exact ih hfloor
  | block _ _ inside _ ihInside ih =>
    refine ⟨fun hdedents => absurd hdedents Bool.false_ne_true,
      above_append (ihInside (Nat.le_succ_of_le hfloor)) ?_⟩
    rw [inside.levelAfter_eq]
    exact ⟨fun _ => Nat.lt_succ_of_le hfloor, ih hfloor⟩
  | turn _ _ _ _ inside beside _ ihInside ihBeside ih =>
    refine ⟨fun hdedents => absurd hdedents Bool.false_ne_true,
      above_append (ihInside (Nat.le_succ_of_le hfloor)) ?_⟩
    rw [inside.levelAfter_eq]
    refine ⟨fun _ => Nat.lt_succ_of_le hfloor,
      above_append (ihBeside (Nat.le_succ_of_le hfloor)) ?_⟩
    rw [beside.levelAfter_eq]
    exact ⟨fun _ => Nat.lt_succ_of_le hfloor, ih hfloor⟩

end Nested

/-- A guard that closes its own brackets is like any other text. -/
theorem Opens.unguarded {guards : String → Prop} {text : String} {awaited : List Char}
    (h : Opens guards text awaited) (hread : ∀ e, guards e → Reads [] e []) :
    Opens (fun _ => False) text awaited := by
  cases h with
  | read reads some => exact .read reads some
  | guard given =>
    have hif : Reads [] "if (" [')'] := by decide
    have hguard : Reads [')'] _ [')'] := (hread _ given).below [')']
    exact (((hif.append hguard).append (by decide : Reads [')'] ")" [])).append (by decide)).opens

theorem Nested.unguarded {guards : String → Prop} {ls : List Line} (h : Nested guards ls)
    (hread : ∀ e, guards e → Reads [] e []) : Nested (fun _ => False) ls := by
  induction h with
  | nil => exact .nil
  | flat flat _ ih => exact .flat flat ih
  | block opens closes _ _ ihInside ih =>
    exact .block (opens.unguarded hread) closes ihInside ih
  | turn opens turns reopens closes _ _ _ ihInside ihBeside ih =>
    exact .turn (opens.unguarded hread) turns (reopens.unguarded hread) closes ihInside ihBeside ih

theorem Opens.reads {text : String} {awaited : List Char} (h : Opens (fun _ => False) text awaited) :
    Reads [] text awaited := by
  cases h with
  | read reads _ => exact reads
  | guard given => exact given.elim

/-- If the brackets of all opening lines are read off their texts, then the lines that open and close
something, read one after the other, leave nothing open and close nothing else. -/
theorem Nested.reads_brackets {ls : List Line} (h : Nested (fun _ => False) ls)
    (awaited : List Char) :
    (ls.flatMap Line.brackets).foldlM readBracket awaited = some awaited := by
  induction h generalizing awaited with
  | nil => rfl
  | flat flat _ ih =>
    rw [List.flatMap_cons, brackets_of_isFlat flat]
    exact ih awaited
  | block opens closes _ _ ihInside ih =>
    -- what is awaited around the lines stays below what they open themselves
    have hopen := opens.reads.below awaited
    have hclose := closes.reads.below awaited
    rw [Reads, List.nil_append] at hopen hclose
    simp only [List.flatMap_cons, List.flatMap_append, Line.brackets, List.foldlM_append, hopen,
      Option.bind_eq_bind, Option.bind_some, ihInside, hclose, ih]
  | turn opens turns reopens closes _ _ _ ihInside ihBeside ih =>
    have hopen := opens.reads.below awaited
    have hturn := (turns.reads.append reopens.reads).below awaited
    have hclose := closes.reads.below awaited
    rw [Reads, List.nil_append] at hopen hclose
    rw [Reads] at hturn
    simp only [List.flatMap_cons, List.flatMap_append, Line.brackets, List.foldlM_append, hopen,
      Option.bind_eq_bind, Option.bind_some, ihInside, hturn, ihBeside, hclose, ih]

/-! ### Nested pieces -/

namespace Piece

/-- No line of a piece of program opens or closes anything. -/
def Flat (p : Piece) : Prop := ∀ l ∈ p.lines, l.isFlat = true

/-- The lines of a piece of program are nested. -/
def Nested (guards : String → Prop) (p : Piece) : Prop := Script.Nested guards p.lines

@[simp] theorem flat_empty : ({} : Piece).Flat := by simp [Flat]

@[simp] theorem flat_ofLines {ls : List Line} :
    (ofLines ls).Flat ↔ ∀ l ∈ ls, l.isFlat = true := Iff.rfl

@[simp] theorem flat_append {p q : Piece} : (p ++ q).Flat ↔ p.Flat ∧ q.Flat :=
  List.forall_mem_append

@[simp] theorem flat_concat {ps : List Piece} : (concat ps).Flat ↔ ∀ p ∈ ps, p.Flat := by
  induction ps with
  | nil => simp [concat]
  | cons p ps ih => simp [concat, ih]

@[simp] theorem flat_ofTemplate {line : String → Line} {write : Resolved → String} {r : Resolved} :
    (ofTemplate line write r).Flat ↔ (line (write r)).isFlat = true :=
  List.forall_mem_singleton

variable {guards : String → Prop} {p q : Piece}

theorem Flat.nested (h : p.Flat) : p.Nested guards := .of_flat h

theorem Nested.append (hp : p.Nested guards) (hq : q.Nested guards) : (p ++ q).Nested guards :=
  Script.Nested.append hp hq

theorem Nested.concat {ps : List Piece} (h : ∀ p ∈ ps, p.Nested guards) :
    (Piece.concat ps).Nested guards := by
  induction ps with
  | nil => exact .nil
  | cons p ps ih =>
    obtain ⟨hp, hps⟩ := List.forall_mem_cons.mp h
    exact hp.append (ih hps)

theorem lines_append (p q : Piece) : (p ++ q).lines = p.lines ++ q.lines := rfl

theorem lines_ofLines (ls : List Line) : (ofLines ls).lines = ls := rfl

/-- A piece between a line that opens brackets and the line that closes them. -/
theorem Nested.block {text last : String} {awaited : List Char} (h : p.Nested guards)
    (hopens : Opens guards text awaited) (hcloses : Closes awaited last) :
    (ofLines [.opening text] ++ p ++ ofLines [.closing last]).Nested guards :=
  Script.Nested.block hopens hcloses h .nil

/-- Two pieces with a line between them that closes brackets and opens others. -/
theorem Nested.turn {text first next last : String} {awaited later : List Char}
    (hp : p.Nested guards) (hq : q.Nested guards) (hopens : Opens guards text awaited)
    (hturns : Closes awaited first) (hreopens : Opens guards next later)
    (hcloses : Closes later last) :
    (ofLines [.opening text] ++ p ++ ofLines [.turning (first ++ next)] ++ q ++
      ofLines [.closing last]).Nested guards := by
  have h := Script.Nested.turn hopens hturns hreopens hcloses hp hq .nil
  simpa only [Piece.Nested, lines_append, lines_ofLines, List.append_assoc, List.cons_append,
    List.nil_append] using h

end Piece

/-! ### Single nodes -/

theorem flat_optionalLine {α : Type} {line : α → Line} {value : Option α}
    (h : ∀ v, (line v).isFlat = true) : ∀ l ∈ optionalLine line value, l.isFlat = true :=
  List.forall_mem_map.mpr fun v _ => h v

theorem flat_outputFieldLines (fields : Option (List OutputField)) :
    ∀ l ∈ outputFieldLines fields, l.isFlat = true := by
  rw [outputFieldLines.eq_def]
  split
  · exact List.forall_mem_nil _
  · exact List.forall_mem_nil _
  · exact List.forall_mem_singleton.mpr rfl

section Context

variable (c : Context)

theorem flat_comment (text : String) : ∀ l ∈ c.comment text, l.isFlat = true := by
  rw [Context.comment]
  split
  · exact List.forall_mem_singleton.mpr rfl
  · exact List.forall_mem_nil _

theorem flat_heading (n : Node) : ∀ l ∈ c.heading n, l.isFlat = true := flat_comment c _

theorem flat_headingOf (id : String) : (headingOf c id).Flat := by
  rw [headingOf]
  split
  · exact flat_heading c _
  · exact Piece.flat_empty

theorem flat_triggerPiece (id : String) (config : Trigger) : (triggerPiece c id config).Flat := by
  rw [triggerPiece, Piece.flat_ofLines, List.forall_mem_append, List.forall_mem_append,
    List.forall_mem_flatMap, List.forall_mem_singleton]
  refine ⟨⟨?_, fun v _ => flat_comment c _⟩, rfl⟩
  split
  · exact List.forall_mem_nil _
  · exact flat_comment c _
  · exact flat_comment c _

end Context

/-- The expressions that guard the loops of a block: what stands between the parentheses of the `if`
that leaves the loop. -/
def Context.Guards (c : Context) (b : Block) (e : String) : Prop :=
  ∃ id body maxIterations stopCondition next,
    .loop id body maxIterations stopCondition next ∈ b.parts ∧
      e = expressionValue ((c.resolver id).resolve stopCondition)

theorem Context.Guards.of_child {c : Context} {b d : Block} {e : String} (h : c.Guards d e)
    (hd : d ∈ b.children) : c.Guards b e := by
  obtain ⟨id, body, maxIterations, stopCondition, next, hmem, he⟩ := h
  exact ⟨id, body, maxIterations, stopCondition, next,
    Block.mem_parts_iff.mpr (.inr ⟨d, hd, hmem⟩), he⟩

/-- The variables of all nodes are words. -/
def Context.Worded (c : Context) : Prop :=
  ∀ id, ∀ x ∈ (c.variableOf id).toList, isIdentChar x = true

section Worded

variable {c : Context} (hc : c.Worded) {guards : String → Prop}
include hc

theorem nested_callPiece (id : String) {method : String}
    (hmethod : ∀ x ∈ method.toList, isIdentChar x = true) {properties : Piece}
    (h : properties.Nested guards) : (callPiece c id method properties).Nested guards := by
  have hopens : Reads [] (c.variableOf id ++ " = await runtime." ++ method ++ "(\x7b")
      ['\x7d', ')'] :=
    (((reads_word (hc id) []).append (by decide)).append (reads_word hmethod [])).append (by decide)
  have hid : (Piece.ofLines [literalProperty "nodeId" id]).Flat := List.forall_mem_singleton.mpr rfl
  exact (hid.nested.append h).block hopens.opens ⟨by decide, by decide⟩

theorem nested_agentPiece (id : String) (config : Agent) :
    (agentPiece c id config).Nested guards := by
  refine nested_callPiece hc id (List.all_eq_true.mp (by decide)) (Piece.Flat.nested ?_)
  simp only [Piece.flat_append, Piece.flat_ofLines, Piece.flat_concat, List.forall_mem_append,
    List.forall_mem_map, templateProperty, Piece.flat_ofTemplate]
  refine ⟨⟨⟨flat_optionalLine fun _ => rfl, fun _ _ => rfl⟩, rfl⟩, ⟨⟨?_, ?_⟩, ?_⟩, ?_⟩
  · split
    · exact List.forall_mem_nil _
    · exact List.forall_mem_singleton.mpr rfl
  · exact flat_optionalLine fun _ => rfl
  · exact flat_optionalLine fun _ => rfl
  · exact flat_outputFieldLines _

theorem nested_toolCallPiece (id : String) (config : ToolCall) :
    (toolCallPiece c id config).Nested guards := by
  have hopens : Reads [] ("arguments:" ++ " \x7b") ['\x7d'] := by decide
  have htool : (Piece.ofLines [literalProperty "tool" config.tool]).Flat :=
    List.forall_mem_singleton.mpr rfl
  refine nested_callPiece hc id (List.all_eq_true.mp (by decide))
    ((htool.nested.append ?_).append (.of_flat (flat_outputFieldLines _)))
  split
  · exact Piece.Flat.nested (List.forall_mem_singleton.mpr rfl)
  · refine Piece.Nested.block (Piece.Flat.nested (Piece.flat_concat.mpr ?_))
      hopens.opens ⟨by decide, by decide⟩
    exact List.forall_mem_map.mpr fun _ _ => List.forall_mem_singleton.mpr rfl

theorem nested_retrievalPiece (id : String) (config : Retrieval) :
    (retrievalPiece c id config).Nested guards := by
  refine nested_callPiece hc id (List.all_eq_true.mp (by decide)) (Piece.Flat.nested ?_)
  simp only [Piece.flat_append, Piece.flat_ofLines, List.forall_mem_append,
    List.forall_mem_singleton, templateProperty, Piece.flat_ofTemplate]
  exact ⟨⟨rfl, rfl⟩, flat_optionalLine fun _ => rfl, flat_outputFieldLines _⟩

theorem nested_teamPiece (id : String) (config : Team) :
    (teamPiece c id config).Nested guards := by
  have hstart : (Piece.ofLines [literalProperty "strategy" config.strategy.name] ++
      templateProperty (c.resolver id) "task" config.task).Flat :=
    Piece.flat_append.mpr ⟨List.forall_mem_singleton.mpr rfl, List.forall_mem_singleton.mpr rfl⟩
  have hmembers : (Piece.concat (config.members.map (memberPiece (c.resolver id)))).Flat :=
    Piece.flat_concat.mpr
      (List.forall_mem_map.mpr fun _ _ => List.forall_mem_singleton.mpr rfl)
  have hrest : (Piece.ofLines
      (optionalLine (fun n => .plain ("maxRounds: " ++ toString n ++ ",")) config.maxRounds ++
        outputFieldLines config.outputFields)).Flat :=
    List.forall_mem_append.mpr ⟨flat_optionalLine fun _ => rfl, flat_outputFieldLines _⟩
  have hopens : Reads [] "members: [" [']'] := by decide
  have hblock : (Piece.ofLines [.opening "members: ["] ++
      Piece.concat (config.members.map (memberPiece (c.resolver id))) ++
      Piece.ofLines [.closing "],"]).Nested guards :=
    hmembers.nested.block hopens.opens ⟨by decide, by decide⟩
  refine nested_callPiece hc id (List.all_eq_true.mp (by decide)) ?_
  have hall := (hstart.nested.append hblock).append hrest.nested
  simpa only [Piece.Nested, Piece.lines_append, Piece.lines_ofLines, List.append_assoc] using hall

/-- The statement of a node that steers nothing is nested. -/
theorem nested_nodePiece (n : Node) : (nodePiece c n).Nested guards := by
  rw [nodePiece]
  split
  · exact (flat_triggerPiece c n.id _).nested
  · exact nested_agentPiece hc n.id _
  · exact nested_toolCallPiece hc n.id _
  · exact nested_retrievalPiece hc n.id _
  · exact nested_teamPiece hc n.id _
  · exact Piece.Flat.nested (List.forall_mem_singleton.mpr rfl)

/-! ### Blocks -/

theorem nested_branchPiece (id : String) (noTrue noFalse : Bool) {p q : Piece}
    (hp : p.Nested guards) (hq : q.Nested guards) :
    (branchPiece c id noTrue noFalse p q).Nested guards := by
  have hopens : Opens guards ("if (" ++ c.variableOf id ++ ".output)" ++ " \x7b") ['\x7d'] := by
    have hif : Reads [] "if (" [')'] := by decide
    have hvar := hif.append (reads_word (hc id) [')'])
    exact ((hvar.append (by decide : Reads _ _ [])).append (by decide)).opens
  have hunless : Opens guards ("if (!" ++ c.variableOf id ++ ".output)" ++ " \x7b") ['\x7d'] := by
    have hif : Reads [] "if (!" [')'] := by decide
    have hvar := hif.append (reads_word (hc id) [')'])
    exact ((hvar.append (by decide : Reads _ _ [])).append (by decide)).opens
  have helse : Opens guards " else \x7b" ['\x7d'] := Reads.opens (by decide)
  rw [branchPiece]
  split
  · exact Piece.flat_empty.nested
  · rename_i n hn
    have htrue : (Piece.ofLines (c.comment (conditionOf n).trueLabel) ++ p).Nested guards :=
      (Script.Nested.of_flat (flat_comment c _)).append hp
    have hfalse : (Piece.ofLines (c.comment (conditionOf n).falseLabel) ++ q).Nested guards :=
      (Script.Nested.of_flat (flat_comment c _)).append hq
    refine Piece.Nested.append (Piece.Flat.nested (Piece.flat_append.mpr
      ⟨flat_heading c n, List.forall_mem_singleton.mpr rfl⟩)) ?_
    cases noTrue <;> cases noFalse
    · have hturning : "\x7d else \x7b" = "\x7d" ++ " else \x7b" := by decide
      rw [hturning]
      exact htrue.turn hfalse hopens closes_brace helse closes_brace
    · exact htrue.block hopens closes_brace
    · exact hfalse.block hunless closes_brace
    · exact Piece.flat_empty.nested

omit hc in
theorem nested_armPiece (slot : String) (b : Block) {p : Piece} (hp : p.Nested guards) :
    (armPiece c slot b p).Nested guards := by
  have hopens : Reads [] "(async () => \x7b" ['\x7d', ')'] := by decide
  have hslot : (Piece.ofLines (c.comment ("slot: " ++ slot))).Flat := flat_comment c _
  have hreturn : (Piece.ofLines
      (optionalLine (fun id => .plain ("return " ++ c.variableOf id ++ ";")) b.tail?)).Flat :=
    flat_optionalLine fun _ => rfl
  have hinner := (hslot.nested.append hp).append hreturn.nested
  have hall := hinner.block hopens.opens
    (⟨by decide, by decide⟩ : Closes _ "\x7d)(),")
  simpa only [Piece.Nested, armPiece, Piece.lines_append, Piece.lines_ofLines, List.append_assoc]
    using hall

theorem nested_fanPiece (id : String) (merge : Merge) {arms : List Piece}
    (h : ∀ p ∈ arms, p.Nested guards) : (fanPiece c id merge arms).Nested guards := by
  have hopens : Reads [] (c.variableOf id ++ " = \x7b") ['\x7d'] :=
    (reads_word (hc id) []).append (by decide)
  have hmerge : Reads [] ("output: await " ++ (mergeWords merge).1 ++ "([") [']', ')'] := by
    cases merge <;> decide
  rcases hwords : mergeWords merge with ⟨combine, nothing⟩
  rw [hwords] at hmerge
  have hinner := (Piece.Nested.concat h).block hmerge.opens
    (⟨by decide, by decide⟩ : Closes _ "]),")
  have hall := hinner.block hopens.opens
    (⟨by decide, by decide⟩ : Closes _ "\x7d;")
  rw [fanPiece, hwords]
  refine Piece.Nested.append (flat_headingOf c id).nested ?_
  split
  · exact Piece.Flat.nested (List.forall_mem_singleton.mpr rfl)
  · simpa only [Piece.Nested, Piece.lines_append, Piece.lines_ofLines, List.append_assoc,
      List.cons_append, List.nil_append] using hall

omit hc in
theorem nested_loopPiece (id : String) (body : Block) (maxIterations : Nat) (stopCondition : String)
    {p : Piece} (hp : p.Nested guards)
    (hguard : guards (expressionValue ((c.resolver id).resolve stopCondition))) :
    (loopPiece c id body maxIterations stopCondition p).Nested guards := by
  have hfor : Reads []
      ("for (let i = 0; i < " ++ toString maxIterations ++ "; i++)" ++ " \x7b") ['\x7d'] := by
    have hlimit := (by decide : Reads [] "for (let i = 0; i < " [')']).append
      (reads_word (Names.isIdentChar_toString maxIterations) [')'])
    exact (hlimit.append (by decide : Reads _ _ [])).append (by decide)
  have hstart : (headingOf c id ++ Piece.ofLines
      [.plain (c.variableOf id ++ " = \x7b output: undefined, iterations: 0 \x7d;")]).Flat :=
    Piece.flat_append.mpr ⟨flat_headingOf c id, List.forall_mem_singleton.mpr rfl⟩
  have hround : (Piece.ofLines ([.plain (c.variableOf id ++ ".iterations = i + 1;")] ++
      optionalLine (fun v => .plain (c.variableOf id ++ ".output = " ++ c.variableOf v ++ ";"))
        body.tail?)).Flat :=
    List.forall_mem_append.mpr ⟨List.forall_mem_singleton.mpr rfl, flat_optionalLine fun _ => rfl⟩
  have hstop : (if isEmptyOrBlank stopCondition then {}
      else Piece.ofTemplate (fun value => openBrace ("if (" ++ value ++ ")")) expressionValue
          ((c.resolver id).resolve stopCondition) ++
        Piece.ofLines [.plain "break;", closeBrace]).Nested guards := by
    split
    · exact Piece.flat_empty.nested
    · exact Script.Nested.block (.guard hguard) closes_brace (.flat rfl .nil) .nil
  have hinner := (hp.append hround.nested).append hstop
  have hall := hstart.nested.append (hinner.block hfor.opens closes_brace)
  simpa only [Piece.Nested, loopPiece, openBrace, closeBrace, Piece.lines_append,
    Piece.lines_ofLines, List.append_assoc, List.cons_append, List.nil_append] using hall

omit hc in
theorem nested_armPieces {arms : List (String × Block)}
    (h : ∀ b ∈ arms.map Prod.snd, (blockPiece c b).Nested guards) :
    ∀ p ∈ armPieces c arms, p.Nested guards := by
  induction arms with
  | nil =>
    rw [armPieces]
    exact List.forall_mem_nil _
  | cons arm arms ih =>
    obtain ⟨slot, b⟩ := arm
    obtain ⟨hb, harms⟩ := List.forall_mem_cons.mp h
    rw [armPieces]
    split
    · exact ih harms
    · exact List.forall_mem_cons.mpr ⟨nested_armPiece slot b hb, ih harms⟩

omit hc in
theorem nested_listPiece {bs : List Block} (h : ∀ b ∈ bs, (blockPiece c b).Nested guards) :
    (listPiece c bs).Nested guards := by
  induction bs with
  | nil =>
    rw [listPiece]
    exact .nil
  | cons b bs ih =>
    obtain ⟨hb, hbs⟩ := List.forall_mem_cons.mp h
    rw [listPiece]
    exact hb.append (ih hbs)

/-- Blocks are nested, whatever nodes they name. -/
theorem nested_blockPiece (b : Block) (h : ∀ e, c.Guards b e → guards e) :
    (blockPiece c b).Nested guards := by
  induction b using Block.holds_of_children with
  | h b ih =>
    have hinside : ∀ d ∈ b.children, (blockPiece c d).Nested guards :=
      fun d hd => ih d hd fun e he => h e (he.of_child hd)
    cases b with
    | seq id next =>
      have hnext := hinside next List.mem_cons_self
      rw [blockPiece]
      refine Piece.Nested.append ?_ hnext
      split
      · exact (Script.Nested.of_flat (flat_heading c _)).append (nested_nodePiece hc _)
      · exact .nil
    | branch id onTrue onFalse next =>
      have htrue := hinside onTrue (by simp [Block.children])
      have hfalse := hinside onFalse (by simp [Block.children])
      have hnext := hinside next (by simp [Block.children])
      rw [blockPiece]
      exact (nested_branchPiece hc id _ _ htrue hfalse).append hnext
    | fan id arms merge next =>
      have harms : ∀ d ∈ arms.map Prod.snd, (blockPiece c d).Nested guards :=
        fun d hd => hinside d (List.mem_append_left _ hd)
      have hnext := hinside next (List.mem_append_right _ List.mem_cons_self)
      rw [blockPiece]
      exact (nested_fanPiece hc id merge (nested_armPieces harms)).append hnext
    | loop id body maxIterations stopCondition next =>
      have hbody := hinside body (by simp [Block.children])
      have hnext := hinside next (by simp [Block.children])
      have hguard : guards (expressionValue ((c.resolver id).resolve stopCondition)) :=
        h _ ⟨id, body, maxIterations, stopCondition, next, Block.mem_parts_self _, rfl⟩
      rw [blockPiece]
      exact (nested_loopPiece id body maxIterations stopCondition hbody hguard).append hnext
    | fork arms next =>
      have harms : ∀ d ∈ arms, (blockPiece c d).Nested guards :=
        fun d hd => hinside d (List.mem_append_left _ hd)
      have hnext := hinside next (List.mem_append_right _ List.mem_cons_self)
      rw [blockPiece]
      exact (nested_listPiece harms).append hnext
    | visited id =>
      rw [blockPiece]
      exact .of_flat (flat_comment c _)
    | done =>
      rw [blockPiece]
      exact .nil

/-! ### Whole programs -/

omit hc in
theorem isIdentChar_entryName (options : Options) :
    ∀ x ∈ options.entryName.toList, isIdentChar x = true := by
  rw [Options.entryName]
  split
  · exact List.all_eq_true.mp (by decide)
  · rw [toIdentifier, String.toList_ofList]
    exact fun x => Names.mem_identChars

omit hc in
/-- One of the lines above the first statement opens a bracket, and no other one does. -/
theorem exists_prologue (c : Context) : ∃ front text inner,
    prologue c = front ++ .opening text :: inner ∧ (∀ l ∈ front, l.isFlat = true) ∧
      (∀ l ∈ inner, l.isFlat = true) ∧ Reads [] text ['\x7d'] := by
  have hopens : Reads [] ("export async function " ++ c.options.entryName ++
      "(runtime: Runtime, input: unknown): Promise<Record<string, unknown>>" ++ " \x7b")
        ['\x7d'] := by
    have hname := (by decide : Reads [] "export async function " []).append
      (reads_word (isIdentChar_entryName c.options) [])
    exact (hname.append (by decide : Reads _ _ [])).append (by decide)
  refine ⟨(c.options.header.toList.filter fun h => !isEmptyOrBlank h).map .comment ++
      [ .plain ("import type \x7b Runtime \x7d from " ++ literal c.options.runtimeImport ++ ";"),
        .blank ], _,
    ((sortedSet (c.accepted.workflow.nodes.map Node.id)).map fun id =>
      .plain ("let " ++ c.variableOf id ++ ": any;")) ++ [.blank], ?_, ?_, ?_, hopens⟩
  · simp only [prologue, openBrace, List.append_assoc, List.cons_append, List.nil_append]
  · rw [List.forall_mem_append, List.forall_mem_map, List.forall_mem_cons, List.forall_mem_singleton]
    exact ⟨fun _ _ => rfl, rfl, rfl⟩
  · rw [List.forall_mem_append, List.forall_mem_map, List.forall_mem_singleton]
    exact ⟨fun _ _ => rfl, rfl⟩

omit hc in
/-- The last line closes a bracket, and the lines before it are nested. -/
theorem exists_epilogue (c : Context) (guards : String → Prop) : ∃ inner,
    epilogue c = inner ++ [.closing "\x7d"] ∧ Nested guards inner := by
  refine ⟨_, rfl, .flat rfl ?_⟩
  split
  · exact .of_flat (List.forall_mem_singleton.mpr rfl)
  · have hopens : Reads [] ("return" ++ " \x7b") ['\x7d'] := by decide
    refine .block hopens.opens ⟨by decide, by decide⟩ (.of_flat ?_) .nil
    exact List.forall_mem_map.mpr fun _ _ => rfl

theorem nested_programPiece (b : Block) (h : ∀ e, c.Guards b e → guards e) :
    (programPiece c b).Nested guards := by
  obtain ⟨front, text, inner, hprologue, hfront, hinner, hopens⟩ := exists_prologue c
  obtain ⟨result, hepilogue, hresult⟩ := exists_epilogue c guards
  have hinside : Nested guards (inner ++ (blockPiece c b).lines ++ result) :=
    ((Nested.of_flat hinner).append (nested_blockPiece hc b h)).append hresult
  have hall := (Nested.of_flat hfront).append
    (.block hopens.opens closes_brace hinside .nil)
  rw [Piece.Nested, programPiece, hprologue, hepilogue]
  simpa only [Piece.lines_append, Piece.lines_ofLines, List.append_assoc, List.cons_append] using hall

end Worded

end Script

open Script

/-- Whatever the block, its lines are nested, end at the level at which they begin, and are at a deeper
level wherever they go one level back.  The lines of a program are nested, too, and end at level zero.
The brackets of all opening lines are read off their texts if the conditions that end loops close
their own brackets. -/
theorem emit_nested (b : Block) (a : Accepted) (options : Options) :
    let c : Context := ⟨a, Names.ofWorkflow a.workflow, options⟩
    Nested (c.Guards b) (blockPiece c b).lines ∧
    (∀ depth, levelAfter depth (blockPiece c b).lines = depth) ∧
    (∀ depth before l after, (blockPiece c b).lines = before ++ l :: after → l.dedents = true →
      depth < levelAfter depth before) ∧
    (emit b a options).code = render (programLines b a options) ∧
    Nested (c.Guards b) (programLines b a options) ∧
    levelAfter 0 (programLines b a options) = 0 ∧
    (∀ before l after, programLines b a options = before ++ l :: after → l.dedents = true →
      0 < levelAfter 0 before) ∧
    ((∀ e, c.Guards b e → Reads [] e []) → Nested (fun _ => False) (programLines b a options)) := by
  intro c
  have hc : c.Worded := Names.isIdentChar_variableOf a.workflow
  have hblock : Nested (c.Guards b) (blockPiece c b).lines := nested_blockPiece hc b fun _ he => he
  have hprogram : Nested (c.Guards b) (programLines b a options) :=
    nested_programPiece hc b fun _ he => he
  refine ⟨hblock, hblock.levelAfter_eq, fun depth before l after heq hl => ?_, rfl, hprogram,
    hprogram.levelAfter_eq 0, fun before l after heq hl => ?_, hprogram.unguarded⟩
  · exact above_split (heq ▸ hblock.above (Nat.le_refl depth)) hl
  · exact above_split (heq ▸ hprogram.above (Nat.le_refl 0)) hl

/-- Work is done again until a condition holds. -/
def retryFlow (stop : String) : Workflow where
  nodes :=
    [ { id := "start", config := .trigger {} },
      { id := "again", config := .feedbackLoop { maxIterations := 3, stopCondition := stop } },
      { id := "work", config := .agent { prompt := "work" } } ]
  edges :=
    [ { id := "e1", source := "start", target := "again" },
      { id := "e2", source := "again", target := "work" },
      { id := "e3", source := "work", target := "again" } ]

/-- The condition calls a function, with a placeholder between the parentheses. -/
theorem emit_nested_retryFlow : ∃ a, check (retryFlow "ok(\x7b\x7bwork\x7d\x7d)") = .ok a ∧
    let b : Block :=
      .seq "start" (.loop "again" (.seq "work" .done) 3 "ok(\x7b\x7bwork\x7d\x7d)" .done)
    Context.Guards ⟨a, Names.ofWorkflow a.workflow, {}⟩ b "ok(step_work.output)" ∧
    Nested (fun _ => False) (programLines b a {}) := by
  obtain ⟨a, ha, hvalue⟩ : ∃ a, check (retryFlow "ok(\x7b\x7bwork\x7d\x7d)") = .ok a ∧
      expressionValue ((Context.resolver ⟨a, Names.ofWorkflow a.workflow, {}⟩ "again").resolve
        "ok(\x7b\x7bwork\x7d\x7d)") = "ok(step_work.output)" := exists_check_ok (by decide +kernel)
  refine ⟨a, ha, ⟨_, _, _, _, _, List.mem_cons_of_mem _ List.mem_cons_self, hvalue.symm⟩, ?_⟩
  obtain ⟨-, -, -, -, -, -, -, hread⟩ := emit_nested
    (.seq "start" (.loop "again" (.seq "work" .done) 3 "ok(\x7b\x7bwork\x7d\x7d)" .done)) a {}
  refine hread fun e hguard => ?_
  obtain ⟨id, body, maxIterations, stopCondition, next, hmem, he⟩ := hguard
  obtain ⟨rfl, -, -, rfl, -⟩ : id = "again" ∧ body = .seq "work" .done ∧ maxIterations = 3 ∧
      stopCondition = "ok(\x7b\x7bwork\x7d\x7d)" ∧ next = .done := by
    simpa [Block.parts] using hmem
  rw [he, hvalue]
  decide

/-- A condition that does not close its own parenthesis is written as it is, and the brace behind the
`break` leaves it open. -/
theorem condition_breaks_brackets : ∃ a, check (retryFlow "(") = .ok a ∧
    hasErrors a.plan.diagnostics = false ∧
    .opening "if (() \x7b" ∈ programLines a.plan.block a {} ∧
    ((programLines a.plan.block a {}).flatMap Line.brackets).foldlM readBracket [] = none ∧
    ¬Nested (fun _ => False) (programLines a.plan.block a {}) := by
  obtain ⟨a, ha, hplan, hopening, hbrackets⟩ : ∃ a, check (retryFlow "(") = .ok a ∧
      hasErrors a.plan.diagnostics = false ∧
      .opening "if (() \x7b" ∈ programLines a.plan.block a {} ∧
      ((programLines a.plan.block a {}).flatMap Line.brackets).foldlM readBracket [] = none :=
    exists_check_ok (by decide +kernel)
  refine ⟨a, ha, hplan, hopening, hbrackets, fun hnested => ?_⟩
  rw [hnested.reads_brackets []] at hbrackets
  exact absurd hbrackets (Option.some_ne_none _)

end Flowscript
