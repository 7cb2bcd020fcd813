/-
Comments, and what stands behind their ends.

A comment ends with its line, and four characters end a line of the emitted program: the line feed,
the carriage return and the two separators of Unicode.  A text is cut into comment lines at its line
feeds only.  Each of the other three ends a comment early when it stands inside a line of the text,
and what stands behind it is program again, unless it opens a comment itself (`Contained`).

* `commented_comments` — the comments among lines stay comments if every text is contained;
* `says_blockPiece` — the texts that a block and the blocks below it give to comments;
* `emit_commented_iff` — when the comments of a whole program stay comments.
-/
import Flowscript.Proofs.Acceptance
import Flowscript.Proofs.Plan.Part
import Flowscript.Proofs.Script.Row
import Flowscript.Proofs.Text.Trim

namespace Flowscript

open Text

namespace Script

/-! ### Rows of comments -/

/-- The characters that end a line of the emitted program. -/
def isLineEnd (c : Char) : Bool := c == '\n' || c == '\r' || c == '\u2028' || c == '\u2029'

/-- A row that is a comment from its first character on, apart from spaces. -/
def OpensComment (row : List Char) : Prop := "//".toList <+: row.dropWhile (· == ' ')

instance (row : List Char) : Decidable (OpensComment row) := inferInstanceAs (Decidable (_ <+: _))

/-- Every row of a text is empty or a comment. -/
def Commented (cs : List Char) : Prop :=
  ∀ row ∈ cs.splitOnP isLineEnd, row ≠ [] → OpensComment row

/-- Every line of a text stays behind its comment sign: what the line ends inside it cut off is empty
or a comment of its own. -/
def Contained (text : String) : Prop :=
  ∀ part ∈ lines text, ∀ row ∈ ((trimEnd part).toList.splitOnP isLineEnd).tail,
    row ≠ [] → OpensComment row

instance (cs : List Char) : Decidable (Commented cs) := inferInstanceAs (Decidable (∀ row ∈ _, _))

instance (text : String) : Decidable (Contained text) :=
  inferInstanceAs (Decidable (∀ part ∈ _, _))

theorem commented_append {c : Char} (hc : isLineEnd c = true) (cs ds : List Char) :
    Commented (cs ++ c :: ds) ↔ Commented cs ∧ Commented ds := by
  rw [Commented, List.splitOnP_append_cons _ _ hc, List.forall_mem_append]
  exact Iff.rfl

theorem splitOnP_append {α : Type} {p : α → Bool} {xs : List α} (h : ∀ x ∈ xs, p x = false)
    (ys : List α) : ∃ first rest, ys.splitOnP p = first :: rest ∧
      (xs ++ ys).splitOnP p = (xs ++ first) :: rest := by
  induction xs with
  | nil =>
    obtain ⟨first, rest, hys⟩ := List.exists_cons_of_ne_nil (List.splitOnP_ne_nil p ys)
    exact ⟨first, rest, hys, hys⟩
  | cons x xs ih =>
    obtain ⟨hx, hxs⟩ := List.forall_mem_cons.mp h
    obtain ⟨first, rest, hys, hsplit⟩ := ih hxs
    refine ⟨first, rest, hys, ?_⟩
    rw [List.cons_append, List.splitOnP_cons_eq_if_modifyHead, if_neg (by simp [hx]), hsplit]
    rfl

/-- The row of a comment line is a comment. -/
theorem opensComment_row (n : Nat) (cs : List Char) :
    OpensComment (List.replicate n ' ' ++ "// ".toList ++ cs) := by
  rw [OpensComment, List.append_assoc, List.dropWhile_append_of_pos (by simp)]
  exact ⟨' ' :: cs, rfl⟩

/-- The first row of a comment line is a comment; the others are as they stand in the text. -/
theorem commented_row (depth : Nat) (part : String) :
    Commented (List.replicate (2 * depth) ' ' ++ ("// " ++ part).toList) ↔
      ∀ row ∈ (part.toList.splitOnP isLineEnd).tail, row ≠ [] → OpensComment row := by
  have hfront : ∀ x ∈ List.replicate (2 * depth) ' ' ++ "// ".toList, isLineEnd x = false := by
    intro x hx
    rcases List.mem_append.mp hx with hx | hx
    · rw [(List.mem_replicate.mp hx).2]
      rfl
    · have hsign : "// ".toList.all (fun y => !isLineEnd y) = true := by decide
      simpa using List.all_eq_true.mp hsign x hx
  obtain ⟨first, rest, hpart, hsplit⟩ := splitOnP_append hfront part.toList
  rw [String.toList_append, ← List.append_assoc, Commented, hsplit, hpart, List.forall_mem_cons,
    List.tail_cons]
  exact and_iff_right fun _ => opensComment_row _ first

theorem commented_indented (depth : Nat) (text rest : String) :
    Commented (indented depth text ++ rest).toList ↔
      Commented (List.replicate (2 * depth) ' ' ++ text.toList) ∧ Commented rest.toList := by
  rw [toList_indented, commented_append (by decide)]

theorem commented_commentLines (depth : Nat) (text rest : String) :
    Commented (commentLines depth text ++ rest).toList ↔ Contained text ∧ Commented rest.toList := by
  rw [commentLines, Contained]
  induction lines text with
  | nil => simp
  | cons part parts ih =>
    rw [List.map_cons, String.join_cons, String.append_assoc, commented_indented, commented_row, ih,
      List.forall_mem_cons, and_assoc]

/-- A text whose only line ends are line feeds is contained. -/
theorem contained_of_forall {text : String} (h : ∀ c ∈ text.toList, isLineEnd c = true → c = '\n') :
    Contained text := by
  intro part hpart
  obtain ⟨p, hp, hcut⟩ := exists_piece_of_mem_lines hpart
  have hnone : ∀ c ∈ (trimEnd part).toList, isLineEnd c = false := by
    intro c hc
    rw [trimEnd, String.toList_ofList] at hc
    have hmem : c ∈ p := List.IsPrefix.mem (mem_of_mem_dropEndBlanks hc) hcut
    refine Bool.eq_false_iff.mpr fun hend => sep_notMem_pieces hp ?_
    rwa [h c (mem_of_mem_pieces hp hmem) hend] at hmem
  rw [List.splitOnP_eq_singleton hnone]
  simp

example : Contained "one\r\ntwo" ∧ Contained "one\r// two" ∧ ¬Contained "one\rtwo" := by decide

/-! ### The comments among lines -/

/-- A comment, as opposed to a line of code. -/
def Line.isComment : Line → Bool
  | comment _ => true
  | _ => false

/-- Every line with what it adds to the text of a program, from some level on. -/
def added : Nat → List Line → List (Line × String)
  | _, [] => []
  | depth, l :: ls => (l, l.render depth) :: added (l.after depth) ls

/-- What the comments among lines add to the text of a program. -/
def comments (ls : List Line) : String :=
  String.join (((added 0 ls).filter fun l => l.1.isComment).map Prod.snd)

theorem render_eq_added (ls : List Line) : render ls = String.join ((added 0 ls).map Prod.snd) := by
  have hfrom : ∀ depth, renderFrom depth ls = String.join ((added depth ls).map Prod.snd) := by
    induction ls with
    | nil => exact fun _ => rfl
    | cons l ls ih =>
      intro depth
      rw [renderFrom, ih, added, List.map_cons, String.join_cons]
  exact hfrom 0

/-- The comments among lines stay comments just if the text of each of them is contained. -/
theorem commented_comments (ls : List Line) :
    Commented (comments ls).toList ↔ ∀ text, .comment text ∈ ls → Contained text := by
  -- the level matters for the indentation only, so the statement is about every level
  have hfrom : ∀ depth, Commented (String.join
      (((added depth ls).filter fun l => l.1.isComment).map Prod.snd)).toList ↔
        ∀ text, .comment text ∈ ls → Contained text := by
    induction ls with
    | nil => simp [added, Commented, List.splitOnP_nil]
    | cons l ls ih =>
      intro depth
      rw [added]
      cases l with
      | comment text =>
        rw [List.filter_cons_of_pos (by rfl), List.map_cons, String.join_cons]
        refine (commented_commentLines depth text _).trans ?_
        rw [ih]
        simp
      | _ =>
        rw [List.filter_cons_of_neg (by simp [Line.isComment]), ih]
        simp
  exact hfrom 0

/-! ### Where the texts come from -/

/-- The text above the statements of a node. -/
def headingText (n : Node) : String :=
  let label := String.ofList (n.title.toList.map fun x => if x = '\n' ∨ x = '\r' then ' ' else x)
  if label = n.id then label ++ " [" ++ n.kind.name ++ "]"
  else label ++ " [" ++ n.kind.name ++ "] (" ++ n.id ++ ")"

/-- What else is said of a node: how a trigger is invoked, and with what. -/
def nodeTexts (n : Node) : List String :=
  match n.config with
  | .trigger config =>
    (match config.triggerType with
      | .manual => []
      | .webhook => ["Invoked by webhook; `input` is the request payload."]
      | .schedule => ["Invoked on schedule " ++ config.schedule.getD ""]) ++
      config.inputSchema.toList.map fun v => "Input schema: " ++ v.render
  | _ => []

/-- The arms of a parallel node that run anything. -/
def runningArms (arms : List (String × Block)) : List (String × Block) :=
  arms.filter fun arm => !arm.2.owned.isEmpty

namespace Context

variable (c : Context)

/-- The texts of the comments of a block itself. -/
def texts : Block → List String
  | .seq id _ => (c.accepted.node? id).toList.flatMap fun n => headingText n :: nodeTexts n
  | .branch id onTrue onFalse _ => (c.accepted.node? id).toList.flatMap fun n =>
    headingText n ::
      ((if onTrue.isDone then [] else [(conditionOf n).trueLabel]) ++
        if onFalse.isDone then [] else [(conditionOf n).falseLabel])
  | .fan id arms _ _ => (c.accepted.node? id).toList.map headingText ++
    (runningArms arms).map fun arm => "slot: " ++ arm.1
  | .loop id _ _ _ _ => (c.accepted.node? id).toList.map headingText
  | .fork _ _ => []
  | .visited id => ["'" ++ id ++ "' already ran on another path"]
  | .done => []

/-- The blocks below a block that are written with it: not the arms of an unknown condition, nor the
arms of a parallel node that run nothing. -/
def written : Block → List Block
  | .branch id onTrue onFalse next =>
    (if (c.accepted.node? id).isSome then [onTrue, onFalse] else []) ++ [next]
  | .fan _ arms _ next => (runningArms arms).map Prod.snd ++ [next]
  | b => b.children

/-- A block is written with another one, at any depth. -/
inductive Written : Block → Block → Prop
  | self (b : Block) : Written b b
  | deeper {b d e : Block} : d ∈ c.written b → Written d e → Written b e

theorem written_subset (b : Block) : c.written b ⊆ b.children := by
  cases b with
  | branch id onTrue onFalse next =>
    rw [written]
    split <;> simp [Block.children]
  | fan id arms merge next =>
    intro d hd
    rcases List.mem_append.mp hd with hd | hd
    · exact List.mem_append_left _ ((List.filter_sublist.map _).mem hd)
    · exact List.mem_append_right _ hd
  | _ => exact List.Subset.refl _

end Context

/-! ### Texts of pieces -/

namespace Piece

/-- A piece of program has a comment with the given text. -/
def Says (p : Piece) (text : String) : Prop := .comment text ∈ p.lines

variable {text : String}

@[simp] theorem says_empty : ¬({} : Piece).Says text := List.not_mem_nil

@[simp] theorem says_ofLines {ls : List Line} : (ofLines ls).Says text ↔ .comment text ∈ ls := Iff.rfl

@[simp] theorem says_append {p q : Piece} : (p ++ q).Says text ↔ p.Says text ∨ q.Says text :=
  List.mem_append

@[simp] theorem says_concat {ps : List Piece} :
    (concat ps).Says text ↔ ∃ p ∈ ps, p.Says text := by
  induction ps with
  | nil => simp [concat]
  | cons p ps ih => simp [concat, ih]

@[simp] theorem says_ofTemplate {line : String → Line} {write : Resolved → String} {r : Resolved} :
    (ofTemplate line write r).Says text ↔ .comment text = line (write r) :=
  List.mem_singleton

end Piece

section Pieces

variable {c : Context} {text : String}

@[simp] theorem mem_comment {t : String} :
    .comment text ∈ c.comment t ↔ c.options.emitComments = true ∧ text = t := by
  rw [Context.comment]
  split
  · rename_i h
    simp [h]
  · rename_i h
    simp [h]

@[simp] theorem mem_heading {n : Node} :
    .comment text ∈ c.heading n ↔ c.options.emitComments = true ∧ text = headingText n :=
  mem_comment

theorem says_headingOf {id : String} : (headingOf c id).Says text ↔
    c.options.emitComments = true ∧ text ∈ (c.accepted.node? id).toList.map headingText := by
  rw [headingOf]
  rcases c.accepted.node? id with _ | n <;> simp

@[simp] theorem notMem_outputFieldLines {fields : Option (List OutputField)} :
    .comment text ∉ outputFieldLines fields := by
  rw [outputFieldLines.eq_def]
  split <;> simp

theorem says_callPiece {id method : String} {p : Piece} :
    (callPiece c id method p).Says text ↔ p.Says text := by
  simp [callPiece, literalProperty]

/-- Of the nodes that steer nothing, only a trigger has something to say. -/
theorem says_nodePiece {n : Node} : (nodePiece c n).Says text ↔
    c.options.emitComments = true ∧ text ∈ nodeTexts n := by
  rw [nodePiece, nodeTexts]
  cases n.config with
  | trigger config =>
    cases hinvoked : config.triggerType <;> cases hschema : config.inputSchema <;>
      simp [triggerPiece, hinvoked, hschema, and_or_left]
  | agent config =>
    simp [agentPiece, says_callPiece, templateProperty, optionalLine, literalProperty]
  | toolCall config =>
    by_cases hnone : config.arguments.isEmpty = true <;>
      simp [toolCallPiece, says_callPiece, templateProperty, literalProperty, openBrace, hnone]
  | retrieval config =>
    simp [retrievalPiece, says_callPiece, templateProperty, optionalLine, literalProperty]
  | team config =>
    have hmember : ∀ r m, ¬(memberPiece r m).Says text := by simp [memberPiece, Piece.Says]
    simp [teamPiece, says_callPiece, templateProperty, optionalLine, literalProperty, hmember]
  | _ => simp

theorem says_branchPiece {id : String} {noTrue noFalse : Bool} {p q : Piece} :
    (branchPiece c id noTrue noFalse p q).Says text ↔ ∃ n, c.accepted.node? id = some n ∧
      (c.options.emitComments = true ∧ text ∈ headingText n ::
          ((if noTrue then [] else [(conditionOf n).trueLabel]) ++
            if noFalse then [] else [(conditionOf n).falseLabel]) ∨
        noTrue = false ∧ p.Says text ∨ noFalse = false ∧ q.Says text) := by
  rw [branchPiece]
  rcases c.accepted.node? id with _ | n
  · simp
  · -- the label of an arm stands in front of the arm, so only the order differs
    cases noTrue <;> cases noFalse <;> simp [openBrace, closeBrace] <;> grind

theorem says_armPieces {arms : List (String × Block)} : (Piece.concat (armPieces c arms)).Says text ↔
    c.options.emitComments = true ∧ text ∈ (runningArms arms).map (fun arm => "slot: " ++ arm.1) ∨
      ∃ b ∈ (runningArms arms).map Prod.snd, (blockPiece c b).Says text := by
  induction arms with
  | nil => simp [armPieces, runningArms]
  | cons arm arms ih =>
    obtain ⟨slot, b⟩ := arm
    have harm : (armPiece c slot b (blockPiece c b)).Says text ↔
        c.options.emitComments = true ∧ text = "slot: " ++ slot ∨ (blockPiece c b).Says text := by
      simp [armPiece, optionalLine]
    rw [armPieces, runningArms]
    by_cases hnone : b.owned.isEmpty = true
    · rw [if_pos hnone, List.filter_cons_of_neg (by simp [hnone])]
      exact ih
    · rw [if_neg hnone, List.filter_cons_of_pos (by simp [hnone]), Piece.concat, Piece.says_append,
        harm, ih, List.map_cons, List.map_cons, List.mem_cons, List.exists_mem_cons_iff, and_or_left,
        or_or_or_comm]
      rfl

theorem says_listPiece {bs : List Block} :
    (listPiece c bs).Says text ↔ ∃ b ∈ bs, (blockPiece c b).Says text := by
  induction bs with
  | nil => simp [listPiece]
  | cons b bs ih => rw [listPiece, Piece.says_append, ih, List.exists_mem_cons_iff]

theorem says_fanPiece {id : String} {merge : Merge} {arms : List Piece} :
    (fanPiece c id merge arms).Says text ↔
      (headingOf c id).Says text ∨ (Piece.concat arms).Says text := by
  rw [fanPiece, Piece.says_append]
  split
  · rename_i hnone
    simp [List.isEmpty_iff.mp hnone]
  · simp

theorem says_loopPiece {id : String} {body : Block} {maxIterations : Nat} {stopCondition : String}
    {p : Piece} : (loopPiece c id body maxIterations stopCondition p).Says text ↔
      (headingOf c id).Says text ∨ p.Says text := by
  rw [loopPiece]
  split <;> simp [openBrace, closeBrace, optionalLine]

/-- A comment of a block is its own or that of a block written with it. -/
theorem says_step (b : Block) : (blockPiece c b).Says text ↔
    c.options.emitComments = true ∧ text ∈ c.texts b ∨
      ∃ d ∈ c.written b, (blockPiece c d).Says text := by
  cases b with
  | seq id next =>
    rw [blockPiece, Piece.says_append, Context.texts]
    rcases c.accepted.node? id with _ | n
    · simp [Context.written, Block.children]
    · simp [Context.written, Block.children, says_nodePiece, and_or_left]
  | branch id onTrue onFalse next =>
    -- an arm with nothing to run is not written, but it has no comments either
    have hdone : ∀ d : Block, (d.isDone = false ∧ (blockPiece c d).Says text) ↔
        (blockPiece c d).Says text := by
      intro d
      refine and_iff_right_of_imp fun hsays => ?_
      cases d with
      | done =>
        rw [blockPiece] at hsays
        exact absurd hsays Piece.says_empty
      | _ => rfl
    rw [blockPiece, Piece.says_append, says_branchPiece, Context.texts, Context.written]
    rcases c.accepted.node? id with _ | n
    · simp
    · simp [hdone, or_assoc]
  | fan id arms merge next =>
    rw [blockPiece, Piece.says_append, says_fanPiece, says_headingOf, says_armPieces,
      Context.texts, Context.written]
    simp only [List.mem_append, List.mem_singleton, or_and_right, exists_or, exists_eq_left,
      and_or_left, or_assoc]
  | loop id body maxIterations stopCondition next =>
    rw [blockPiece, Piece.says_append, says_loopPiece, says_headingOf]
    simp [Context.texts, Context.written, Block.children, or_assoc]
  | fork arms next =>
    rw [blockPiece, Piece.says_append, says_listPiece]
    simp [Context.texts, Context.written, Block.children, or_and_right, exists_or]
  | visited id =>
    rw [blockPiece]
    simp [Context.texts, Context.written, Block.children]
  | done =>
    rw [blockPiece]
    simp [Context.texts, Context.written, Block.children]

/-- The comments of a block are those of the blocks that are written with it, each with one of its
own texts. -/
theorem says_blockPiece (b : Block) : (blockPiece c b).Says text ↔
    c.options.emitComments = true ∧ ∃ d, c.Written b d ∧ text ∈ c.texts d := by
  induction b using Block.holds_of_children with
  | h b ih =>
    rw [says_step]
    constructor
    · rintro (⟨hemit, htext⟩ | ⟨d, hd, hsays⟩)
      · exact ⟨hemit, b, .self b, htext⟩
      · obtain ⟨hemit, e, he, htext⟩ := (ih d (c.written_subset b hd)).mp hsays
        exact ⟨hemit, e, .deeper hd he, htext⟩
    · rintro ⟨hemit, e, he, htext⟩
      cases he with
      | self => exact .inl ⟨hemit, htext⟩
      | deeper hd he =>
        exact .inr ⟨_, hd, (ih _ (c.written_subset b hd)).mpr ⟨hemit, e, he, htext⟩⟩

theorem mem_prologue : .comment text ∈ prologue c ↔
    text ∈ c.options.header ∧ isEmptyOrBlank text = false := by
  simp [prologue, openBrace]

theorem notMem_epilogue : .comment text ∉ epilogue c := by
  rw [epilogue]
  split <;> simp [openBrace, closeBrace]

end Pieces

/-- The lines of a program, before they are text. -/
def programLines (b : Block) (a : Accepted) (options : Options) : List Line :=
  (programPiece ⟨a, Names.ofWorkflow a.workflow, options⟩ b).lines

theorem mem_programLines {b : Block} {a : Accepted} {options : Options} {text : String} :
    .comment text ∈ programLines b a options ↔
      (text ∈ options.header ∧ isEmptyOrBlank text = false) ∨ options.emitComments = true ∧
        ∃ d, Context.Written ⟨a, Names.ofWorkflow a.workflow, options⟩ b d ∧
          text ∈ Context.texts ⟨a, Names.ofWorkflow a.workflow, options⟩ d := by
  have hsays : (programPiece ⟨a, Names.ofWorkflow a.workflow, options⟩ b).Says text ↔ _ :=
    Piece.says_append
  rw [programLines]
  refine hsays.trans ?_
  rw [Piece.says_append, Piece.says_ofLines, Piece.says_ofLines, mem_prologue, says_blockPiece,
    or_iff_left notMem_epilogue]

end Script

open Script

/-- The comments of a program stay comments just if the header is contained, and so is every text of
a block that is written.  Of the texts, those with no other line ends than line feeds are. -/
theorem emit_commented_iff (b : Block) (a : Accepted) (options : Options) :
    (emit b a options).code = String.join ((added 0 (programLines b a options)).map Prod.snd) ∧
    (Commented (comments (programLines b a options)).toList ↔
      (∀ text ∈ options.header, isEmptyOrBlank text = false → Contained text) ∧
      (options.emitComments = true →
        ∀ d, Context.Written ⟨a, Names.ofWorkflow a.workflow, options⟩ b d →
          ∀ text ∈ Context.texts ⟨a, Names.ofWorkflow a.workflow, options⟩ d, Contained text)) ∧
    ∀ text : String, (∀ c ∈ text.toList, isLineEnd c = true → c = '\n') → Contained text := by
  refine ⟨render_eq_added _, ?_, fun text => contained_of_forall⟩
  rw [commented_comments]
  constructor
  · intro h
    refine ⟨fun text htext hsome => ?_, fun hemit d hd text htext => ?_⟩
    · exact h text (mem_programLines.mpr (.inl ⟨htext, hsome⟩))
    · exact h text (mem_programLines.mpr (.inr ⟨hemit, d, hd, htext⟩))
  · rintro ⟨hheader, hblocks⟩ text htext
    rcases mem_programLines.mp htext with ⟨htext, hsome⟩ | ⟨hemit, d, hd, htext⟩
    · exact hheader text htext hsome
    · exact hblocks hemit d hd text htext

/-- A notice is written, and nothing else. -/
def noticeFlow : Workflow where
  nodes :=
    [ { id := "start", config := .trigger {} },
      { id := "write", config := .agent { prompt := "write" } } ]
  edges := [{ id := "e1", source := "start", target := "write" }]

/-- A header whose lines are parted by a carriage return. -/
def noticeOptions : Options := { emitComments := false, header := some "Generated\rDo not edit" }

/-- The second line of the header is not in the comment. -/
theorem notice_leaves_comment : ∃ a, check noticeFlow = .ok a ∧
    comments (programLines a.plan.block a noticeOptions) = "// Generated\rDo not edit\n" ∧
    ¬Commented (comments (programLines a.plan.block a noticeOptions)).toList :=
  exists_check_ok (by decide +kernel)

end Flowscript
