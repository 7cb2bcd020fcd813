/-
Programs without comments.

Whether comments are wanted decides about nothing but the comments: a block is written in the same
lines without them, and every template in it is resolved all the same.

* `Hushed.thinned_renderFrom` — what the comments among lines add to a text are whole lines of it;
* `blockPiece_silent` — without comments, a block is what it is with them, less the comments;
* `emit_thinned` — the same for a whole program.
-/
import Flowscript.Proofs.Script.Comment

namespace Flowscript

open Text

namespace Script

/-! ### Texts without some of their comment lines -/

/-- Of a text in lines, each of which a line feed ends, some that are comments are left out. -/
inductive Thinned : List Char → List Char → Prop
  | nil : Thinned [] []
  | keep {line text rest : List Char} (one : '\n' ∉ line) (more : Thinned text rest) :
    Thinned (line ++ '\n' :: text) (line ++ '\n' :: rest)
  | drop {line text rest : List Char} (one : '\n' ∉ line) (comment : OpensComment line)
      (more : Thinned text rest) : Thinned (line ++ '\n' :: text) rest

/-- What is kept may be several lines. -/
theorem Thinned.keep_all {text rest : List Char} (h : Thinned text rest) (cs : List Char) :
    Thinned (cs ++ '\n' :: text) (cs ++ '\n' :: rest) := by
  -- the beginning of a line is carried along until the line feed comes that ends it
  have hline : ∀ line : List Char, '\n' ∉ line →
      Thinned (line ++ (cs ++ '\n' :: text)) (line ++ (cs ++ '\n' :: rest)) := by
    induction cs with
    | nil => exact fun line hnone => .keep hnone h
    | cons c cs ih =>
      intro line hnone
      by_cases hc : c = '\n'
      · subst hc
        exact .keep hnone (ih [] List.not_mem_nil)
      · have hlonger : '\n' ∉ line ++ [c] := by
          rw [List.mem_append, List.mem_singleton, not_or]
          exact ⟨hnone, Ne.symm hc⟩
        simpa [List.append_assoc] using ih _ hlonger
  exact hline [] List.not_mem_nil

theorem thinned_indented (depth : Nat) (text : String) {more rest : String}
    (h : Thinned more.toList rest.toList) :
    Thinned (indented depth text ++ more).toList (indented depth text ++ rest).toList := by
  rw [toList_indented, toList_indented]
  exact h.keep_all _

theorem thinned_commentLines (depth : Nat) (text : String) {more rest : String}
    (h : Thinned more.toList rest.toList) :
    Thinned (commentLines depth text ++ more).toList rest.toList := by
  have hlines : ∀ part ∈ lines text, OneLine part := fun _ => oneLine_of_mem_lines
  rw [commentLines]
  generalize lines text = parts at hlines ⊢
  induction parts with
  | nil => simpa using h
  | cons part parts ih =>
    obtain ⟨hpart, hparts⟩ := List.forall_mem_cons.mp hlines
    rw [List.map_cons, String.join_cons, String.append_assoc, toList_indented, String.toList_append,
      ← List.append_assoc]
    refine .drop ?_ (opensComment_row _ _) (ih hparts)
    rw [List.mem_append, List.mem_append, List.mem_replicate]
    rintro ((⟨-, hmem⟩ | hmem) | hmem)
    · exact absurd hmem (by decide)
    · exact absurd hmem (by decide)
    · exact hpart.trimEnd hmem

theorem thinned_line (l : Line) (depth : Nat) {more rest : String}
    (h : Thinned more.toList rest.toList) :
    Thinned (l.render depth ++ more).toList (l.render depth ++ rest).toList := by
  cases l with
  | plain text => exact thinned_indented depth text h
  | blank =>
    rw [Line.render, String.toList_append, String.toList_append]
    exact h.keep_all []
  | comment text =>
    rw [Line.render, commentLines]
    induction lines text with
    | nil => simpa using h
    | cons part parts ih =>
      rw [List.map_cons, String.join_cons, String.append_assoc, String.append_assoc]
      exact thinned_indented depth _ ih
  | opening text => exact thinned_indented depth text h
  | closing text => exact thinned_indented (depth - 1) text h
  | turning text => exact thinned_indented (depth - 1) text h

/-! ### Lines without some of the comments -/

/-- Of lines, some that are comments are left out. -/
inductive Hushed : List Line → List Line → Prop
  | nil : Hushed [] []
  | keep (l : Line) {ls rest : List Line} (more : Hushed ls rest) : Hushed (l :: ls) (l :: rest)
  | drop (text : String) {ls rest : List Line} (more : Hushed ls rest) :
    Hushed (.comment text :: ls) rest

namespace Hushed

theorem refl (ls : List Line) : Hushed ls ls := by
  induction ls with
  | nil => exact .nil
  | cons l ls ih => exact .keep l ih

theorem append {ls rest ls' rest' : List Line} (h : Hushed ls rest) (h' : Hushed ls' rest') :
    Hushed (ls ++ ls') (rest ++ rest') := by
  induction h with
  | nil => exact h'
  | keep l _ ih => exact .keep l ih
  | drop text _ ih => exact .drop text ih

theorem filter (ls : List Line) : Hushed ls (ls.filter fun l => !l.isComment) := by
  induction ls with
  | nil => exact .nil
  | cons l ls ih =>
    cases l with
    | comment text => exact .drop text ih
    | _ => exact .keep _ ih

/-- A comment does not change the level, so the text of the other lines stays as it is. -/
theorem thinned_renderFrom {ls rest : List Line} (h : Hushed ls rest) (depth : Nat) :
    Thinned (renderFrom depth ls).toList (renderFrom depth rest).toList := by
  induction h generalizing depth with
  | nil => exact .nil
  | keep l _ ih => exact thinned_line l depth (ih _)
  | drop text _ ih => exact thinned_commentLines depth text (ih depth)

end Hushed

/-! ### Pieces without comments -/

namespace Piece

/-- A piece of program without its comments. -/
def silent (p : Piece) : Piece := { p with lines := p.lines.filter fun l => !l.isComment }

theorem silent_empty : ({} : Piece).silent = {} := rfl

theorem silent_append (p q : Piece) : (p ++ q).silent = p.silent ++ q.silent := by
  have happend : (p ++ q).lines = p.lines ++ q.lines := rfl
  rw [silent, happend, List.filter_append]
  rfl

theorem silent_concat (ps : List Piece) : (concat ps).silent = concat (ps.map silent) := by
  induction ps with
  | nil => rfl
  | cons p ps ih => rw [concat, silent_append, ih, List.map_cons, concat]

/-- Nothing is lost of a piece that has no comments. -/
theorem silent_eq_self {p : Piece} (h : ∀ text, ¬p.Says text) : p.silent = p := by
  have hlines : p.lines.filter (fun l => !l.isComment) = p.lines := by
    refine List.filter_eq_self.mpr fun l hl => ?_
    cases l with
    | comment text => exact absurd hl (h text)
    | _ => rfl
  rw [silent, hlines]

theorem ofLines_append (ls ls' : List Line) : ofLines (ls ++ ls') = ofLines ls ++ ofLines ls' := rfl

end Piece

/-- The same context with no comments wanted. -/
def Context.silent (c : Context) : Context :=
  { c with options := { c.options with emitComments := false } }

section Pieces

variable (c : Context)

theorem accepted_silent : c.silent.accepted = c.accepted := rfl

theorem silent_comment (text : String) :
    (Piece.ofLines (c.comment text)).silent = .ofLines (c.silent.comment text) := by
  rw [Context.comment]
  split <;> rfl

theorem silent_heading (n : Node) :
    (Piece.ofLines (c.heading n)).silent = .ofLines (c.silent.heading n) :=
  silent_comment c _

theorem headingOf_silent (id : String) : headingOf c.silent id = (headingOf c id).silent := by
  rw [headingOf, headingOf, accepted_silent]
  rcases c.accepted.node? id with _ | n
  · rfl
  · exact (silent_heading c n).symm

theorem triggerPiece_silent (id : String) (config : Trigger) :
    triggerPiece c.silent id config = (triggerPiece c id config).silent := by
  simp only [triggerPiece, Piece.ofLines_append, Piece.silent_append]
  cases config.triggerType <;> cases config.inputSchema <;>
    simp only [Option.toList_none, Option.toList_some, List.flatMap_nil, List.flatMap_singleton,
      silent_comment] <;> rfl

theorem nodePiece_silent (n : Node) : nodePiece c.silent n = (nodePiece c n).silent := by
  rw [nodePiece, nodePiece]
  cases hconfig : n.config with
  | trigger config => exact triggerPiece_silent c n.id config
  | _ =>
    have hnone : ∀ text, ¬(nodePiece c n).Says text := by
      intro text
      simp [says_nodePiece, nodeTexts, hconfig]
    rw [nodePiece, hconfig] at hnone
    exact (Piece.silent_eq_self hnone).symm

theorem branchPiece_silent (id : String) (noTrue noFalse : Bool) (p q : Piece) :
    branchPiece c.silent id noTrue noFalse p.silent q.silent =
      (branchPiece c id noTrue noFalse p q).silent := by
  rw [branchPiece, branchPiece, accepted_silent]
  rcases c.accepted.node? id with _ | n
  · rfl
  · cases noTrue <;> cases noFalse <;>
      simp only [Piece.silent_append, silent_comment, silent_heading] <;> rfl

theorem armPiece_silent (slot : String) (b : Block) (p : Piece) :
    armPiece c.silent slot b p.silent = (armPiece c slot b p).silent := by
  simp only [armPiece, Piece.ofLines_append, Piece.silent_append, silent_comment]
  cases b.tail? <;> rfl

theorem fanPiece_silent (id : String) (merge : Merge) (arms : List Piece) :
    fanPiece c.silent id merge (arms.map Piece.silent) = (fanPiece c id merge arms).silent := by
  rw [fanPiece, fanPiece, headingOf_silent, List.isEmpty_map]
  rcases mergeWords merge with ⟨combine, nothing⟩
  rw [Piece.silent_append]
  cases arms with
  | nil => rfl
  | cons arm arms =>
    rw [List.isEmpty_cons, if_neg Bool.false_ne_true, Piece.silent_append, Piece.silent_append,
      Piece.silent_concat]
    rfl

theorem loopPiece_silent (id : String) (body : Block) (maxIterations : Nat) (stopCondition : String)
    (p : Piece) : loopPiece c.silent id body maxIterations stopCondition p.silent =
      (loopPiece c id body maxIterations stopCondition p).silent := by
  rw [loopPiece, loopPiece, headingOf_silent]
  cases body.tail? <;> cases isEmptyOrBlank stopCondition <;> simp only [Piece.silent_append] <;> rfl

theorem armPieces_silent {arms : List (String × Block)}
    (h : ∀ b ∈ arms.map Prod.snd, blockPiece c.silent b = (blockPiece c b).silent) :
    armPieces c.silent arms = (armPieces c arms).map Piece.silent := by
  induction arms with
  | nil => rw [armPieces, armPieces, List.map_nil]
  | cons arm arms ih =>
    obtain ⟨slot, b⟩ := arm
    obtain ⟨hb, harms⟩ := List.forall_mem_cons.mp h
    rw [armPieces, armPieces, ih harms, hb, armPiece_silent]
    split <;> rfl

theorem listPiece_silent {bs : List Block}
    (h : ∀ b ∈ bs, blockPiece c.silent b = (blockPiece c b).silent) :
    listPiece c.silent bs = (listPiece c bs).silent := by
  induction bs with
  | nil => rw [listPiece, listPiece, Piece.silent_empty]
  | cons b bs ih =>
    obtain ⟨hb, hbs⟩ := List.forall_mem_cons.mp h
    rw [listPiece, listPiece, hb, ih hbs, Piece.silent_append]

/-- Without comments, a block is written in the same lines less the comments, and has the same
warnings. -/
theorem blockPiece_silent (b : Block) : blockPiece c.silent b = (blockPiece c b).silent := by
  induction b using Block.holds_of_parts with
  | seq id next ih =>
    rw [blockPiece, blockPiece, ih, accepted_silent, Piece.silent_append]
    rcases c.accepted.node? id with _ | n
    · rfl
    · simp only [Piece.silent_append, silent_heading, nodePiece_silent]
  | branch id onTrue onFalse next ihTrue ihFalse ihNext =>
    rw [blockPiece, blockPiece, ihTrue, ihFalse, ihNext, branchPiece_silent, Piece.silent_append]
  | fan id arms merge next ihArms ihNext =>
    rw [blockPiece, blockPiece, ihNext, armPieces_silent c ihArms, fanPiece_silent,
      Piece.silent_append]
  | loop id body maxIterations stopCondition next ihBody ihNext =>
    rw [blockPiece, blockPiece, ihBody, ihNext, loopPiece_silent, Piece.silent_append]
  | fork arms next ihArms ihNext =>
    rw [blockPiece, blockPiece, listPiece_silent c ihArms, ihNext, Piece.silent_append]
  | visited id =>
    rw [blockPiece, blockPiece, silent_comment]
  | done => rw [blockPiece, blockPiece, Piece.silent_empty]

theorem programPiece_silent (b : Block) : programPiece c.silent b =
    .ofLines (prologue c) ++ (blockPiece c b).silent ++ .ofLines (epilogue c) := by
  rw [programPiece, blockPiece_silent]
  rfl

end Pieces

end Script

open Script

/-- Comments change nothing else of a program.  Without them, its text is the same less whole lines,
each of which is a comment behind its indentation; no comment is left but the header; and the warnings
are the same. -/
theorem emit_thinned (b : Block) (a : Accepted) (options : Options) :
    Thinned (emit b a { options with emitComments := true }).code.toList
      (emit b a { options with emitComments := false }).code.toList ∧
    (∀ text, .comment text ∈ programLines b a { options with emitComments := false } →
      text ∈ options.header) ∧
    (emit b a { options with emitComments := false }).diagnostics =
      (emit b a { options with emitComments := true }).diagnostics := by
  have hpiece :
      programPiece ⟨a, Names.ofWorkflow a.workflow, { options with emitComments := false }⟩ b = _ :=
    programPiece_silent ⟨a, Names.ofWorkflow a.workflow, { options with emitComments := true }⟩ b
  refine ⟨?_, fun text htext => ?_, ?_⟩
  · rw [emit, emit, hpiece]
    exact (((Hushed.refl _).append (.filter _)).append (.refl _)).thinned_renderFrom 0
  · rcases mem_programLines.mp htext with ⟨hheader, -⟩ | ⟨hemit, -⟩
    · exact hheader
    · exact absurd hemit Bool.false_ne_true
  · rw [emit, emit, hpiece]
    rfl

end Flowscript
