/-
The assignments of an emitted program.

Every piece of a program assigns to the variables of the nodes that it runs, once each and in the
order in which the block owns them, and does nothing else that could be taken for an assignment:

* `sets_nodePiece` — the statement of a single node;
* `sets_blockPiece` — a block, with the arms that are left out;
* `emit_assigns_once` — a whole program declares every variable once, then assigns to each once.
-/
import Flowscript.Proofs.Compile
import Flowscript.Proofs.Plan.Enclosed
import Flowscript.Proofs.Script.Row

namespace Flowscript

open Text

/-- The templates and expressions of a node. -/
def Config.texts : Config → List String
  | .trigger _ => []
  | .agent config => config.systemPrompt.toList ++ [config.prompt]
  | .toolCall config => config.arguments.map Prod.snd
  | .condition config => [config.expression]
  | .parallel _ => []
  | .feedbackLoop config => [config.stopCondition]
  | .retrieval config => [config.query]
  | .team config => config.task :: config.members.filterMap Member.instructions

/-- No template and no expression of a workflow has a line feed. -/
def Workflow.OneLine (w : Workflow) : Prop :=
  ∀ n ∈ w.nodes, ∀ text ∈ n.config.texts, Text.OneLine text

instance (w : Workflow) : Decidable w.OneLine := inferInstanceAs (Decidable (∀ n ∈ w.nodes, _))

namespace Script

/-- The variables of all nodes begin in the same way, and are identifiers. -/
def Context.Named (c : Context) : Prop :=
  ∀ id, ∃ rest, (c.variableOf id).toList = "step_".toList ++ rest ∧
    ∀ x ∈ rest, isIdentChar x = true

/-! ### Lines that assign to nothing -/

theorem settled_word {name : String} (h : ∀ x ∈ name.toList, isIdentChar x = true) :
    Settled (name ++ ": ") :=
  .of_word h (c := ':') rfl (by decide) (by decide)

theorem settled_literal (s : String) : Settled (literal s) := by
  refine Settled.iff_breaks.mpr
    ⟨'"', s.toList.flatMap escapeLiteral ++ ['"'], ?_, fun h => absurd h (by decide)⟩
  rw [literal, String.toList_ofList, quoteWith, List.dropWhile_cons_of_neg (by decide)]

theorem settled_keyText (name : String) : Settled (keyText name ++ ": ") := by
  rw [keyText]
  split
  · rename_i hname
    exact settled_word (isIdentChar_of_isIdentifier hname)
  · exact (settled_literal name).append _

theorem still_property (name : String) {value : String} (hname : Settled (name ++ ": ")) (hkey : OneLine name)
    (hvalue : OneLine value) : (Line.plain (name ++ ": " ++ value ++ ",")).Still := by
  refine Line.still_plain ((hname.append _).append _) ?_
  simp only [oneLine_append, hkey, hvalue, and_true, true_and]
  decide

theorem still_optionalLine {α : Type} {line : α → Line} {value : Option α} :
    (∀ l ∈ optionalLine line value, l.Still) ↔ ∀ v ∈ value, (line v).Still := by
  simp [optionalLine]

theorem sets_ofLines {ls : List Line} (hls : ∀ l ∈ ls, l.Still) {l : Line} {vs : List String}
    (hl : (Piece.ofLines [l]).Sets vs) : (Piece.ofLines (ls ++ [l])).Sets vs :=
  Piece.Still.append_sets (Piece.still_ofLines.mpr hls) hl

theorem still_literalProperty {name : String} (hname : Settled (name ++ ": ")) (hkey : OneLine name)
    (value : String) : (literalProperty name value).Still :=
  still_property name hname hkey (oneLine_literal value)

theorem still_outputFieldLines (fields : Option (List OutputField)) :
    ∀ l ∈ outputFieldLines fields, l.Still := by
  rw [outputFieldLines.eq_def]
  split
  · simp
  · simp
  · rw [List.forall_mem_singleton]
    refine Line.still_plain (((by decide : Settled "outputFields: ").append _).append _) ?_
    simp only [oneLine_append, oneLine_textArray, and_true]
    decide

section Context

variable (c : Context)

theorem still_commentLines (text : String) : ∀ l ∈ c.comment text, l.Still := by
  rw [Context.comment]
  split
  · exact List.forall_mem_singleton.mpr (Line.still_comment text)
  · simp

theorem still_heading (n : Node) : ∀ l ∈ c.heading n, l.Still := still_commentLines c _

theorem still_headingOf (id : String) : (headingOf c id).Still := by
  rw [headingOf]
  split
  · exact still_heading c _
  · exact Piece.still_empty

end Context

section Named

variable {c : Context} (hc : c.Named)
include hc

theorem oneLine_variable (id : String) : OneLine (c.variableOf id) := by
  obtain ⟨rest, hchars, hrest⟩ := hc id
  refine oneLine_of_isIdentChar ?_
  rw [hchars]
  exact List.forall_mem_append.mpr ⟨List.all_eq_true.mp (by decide), hrest⟩

theorem oneLine_parts (id : String) {text : String} (htext : OneLine text) :
    ∀ p ∈ ((c.resolver id).resolve text).parts, p.OneLine := by
  have hnames : ∀ v, OneLine ((c.resolver id).names.variableOf v) := oneLine_variable hc
  exact Resolver.oneLine_resolve hnames htext

theorem still_templateProperty (id : String) {name template : String}
    (hname : Settled (name ++ ": ")) (hkey : OneLine name) (htemplate : OneLine template) :
    (templateProperty (c.resolver id) name template).Still :=
  Piece.still_ofTemplate.mpr
    (still_property name hname hkey (oneLine_textValue (oneLine_parts hc id htemplate)))

theorem sets_line {id text : String} {l : Line} (htext : Assigns (c.variableOf id) text.toList)
    (hline : OneLine text) (hl : l.rows = [text.toList]) :
    (Piece.ofLines [l]).Sets [c.variableOf id] := by
  obtain ⟨rest, hchars, hrest⟩ := hc id
  exact sets_assignment hchars hrest htext hline hl

/-! ### Single nodes -/

theorem sets_callPiece {id method : String} (hmethod : OneLine method) {properties : Piece}
    (h : properties.Still) : (callPiece c id method properties).Sets [c.variableOf id] := by
  have hopen : (Piece.ofLines [.opening (c.variableOf id ++ " = await runtime." ++ method ++ "(\x7b")]).Sets
      [c.variableOf id] := by
    refine sets_line hc (((assigns_append _ (by decide)).append _).append _) ?_ rfl
    simp only [oneLine_append, oneLine_variable hc, hmethod, true_and]
    decide
  have hid : (literalProperty "nodeId" id).Still := still_literalProperty (by decide) (by decide) id
  have hclose : (Line.closing "\x7d);").Still := Line.still_closing (by decide) (by decide)
  refine Piece.Sets.append_still (Piece.Sets.append_still ?_ h) (List.forall_mem_singleton.mpr hclose)
  exact hopen.append_still (q := .ofLines [literalProperty "nodeId" id])
    (List.forall_mem_singleton.mpr hid)

theorem sets_agentPiece {id : String} {config : Agent}
    (h : ∀ text ∈ (Config.agent config).texts, OneLine text) :
    (agentPiece c id config).Sets [c.variableOf id] := by
  have hsystem : ∀ text ∈ config.systemPrompt, OneLine text := fun text htext =>
    h text (List.mem_append_left _ (Option.mem_toList.mpr htext))
  have hprompt : OneLine config.prompt := h _ (List.mem_append_right _ List.mem_cons_self)
  refine sets_callPiece hc (by decide) ?_
  simp only [Piece.still_append, Piece.still_ofLines, Piece.still_concat, List.forall_mem_append,
    still_optionalLine, List.forall_mem_map, Option.mem_toList]
  refine ⟨⟨⟨fun v _ => ?_, fun v hv => ?_⟩, ?_⟩, ⟨⟨⟨?_, fun v _ => ?_⟩, fun v _ => ?_⟩, ?_⟩⟩
  · exact still_literalProperty (by decide) (by decide) v
  · exact still_templateProperty hc id (by decide) (by decide) (hsystem v hv)
  · exact still_templateProperty hc id (by decide) (by decide) hprompt
  · split
    · simp
    · rw [List.forall_mem_singleton]
      exact still_property "tools" (by decide) (by decide) (oneLine_textArray _)
  · exact still_property "temperature" (by decide) (by decide) (oneLine_write _ v)
  · exact still_property "maxTokens" (by decide) (by decide) (oneLine_toString v)
  · exact still_outputFieldLines _

theorem sets_toolCallPiece {id : String} {config : ToolCall}
    (h : ∀ text ∈ (Config.toolCall config).texts, OneLine text) :
    (toolCallPiece c id config).Sets [c.variableOf id] := by
  refine sets_callPiece hc (by decide) ?_
  simp only [Piece.still_append, Piece.still_ofLines, List.forall_mem_singleton]
  refine ⟨⟨still_literalProperty (by decide) (by decide) _, ?_⟩, still_outputFieldLines _⟩
  split
  · exact List.forall_mem_singleton.mpr (Line.still_plain (by decide) (by decide))
  · simp only [Piece.still_append, Piece.still_ofLines, Piece.still_concat,
      List.forall_mem_singleton, List.forall_mem_map]
    refine ⟨⟨Line.still_openBrace (by decide) (by decide), fun argument hargument => ?_⟩,
      Line.still_closing (by decide) (by decide)⟩
    exact still_templateProperty hc id (settled_keyText _) (oneLine_keyText _)
      (h _ (List.mem_map_of_mem hargument))

theorem sets_retrievalPiece {id : String} {config : Retrieval}
    (h : ∀ text ∈ (Config.retrieval config).texts, OneLine text) :
    (retrievalPiece c id config).Sets [c.variableOf id] := by
  refine sets_callPiece hc (by decide) ?_
  simp only [Piece.still_append, Piece.still_ofLines, List.forall_mem_singleton,
    List.forall_mem_append, still_optionalLine]
  refine ⟨⟨?_, ?_⟩, fun n _ => ?_, still_outputFieldLines _⟩
  · exact still_literalProperty (by decide) (by decide) _
  · exact still_templateProperty hc id (by decide) (by decide) (h _ List.mem_cons_self)
  · exact still_property "topK" (by decide) (by decide) (oneLine_toString n)

theorem still_memberPiece (id : String) {m : Member}
    (h : ∀ text ∈ m.instructions, OneLine text) : (memberPiece (c.resolver id) m).Still := by
  refine List.forall_mem_singleton.mpr ?_
  refine Line.still_plain (((by decide : Settled "\x7b ").append _).append _) ?_
  rw [oneLine_append, oneLine_append]
  refine ⟨⟨by decide, oneLine_intercalate (by decide) ?_⟩, by decide⟩
  have hliteral : ∀ name, OneLine name → ∀ value, OneLine (name ++ literal value) :=
    fun name hname value => oneLine_append.mpr ⟨hname, oneLine_literal value⟩
  simp only [List.forall_mem_append, List.forall_mem_singleton, List.forall_mem_map,
    Option.mem_toList]
  refine ⟨⟨⟨hliteral _ (by decide) _, fun v _ => hliteral _ (by decide) v⟩,
    fun v _ => hliteral _ (by decide) v⟩, fun v hv => ?_⟩
  obtain ⟨text, htext, rfl⟩ := Option.map_eq_some_iff.mp hv
  exact oneLine_append.mpr ⟨by decide, oneLine_textValue (oneLine_parts hc id (h text htext))⟩

theorem sets_teamPiece {id : String} {config : Team}
    (h : ∀ text ∈ (Config.team config).texts, OneLine text) :
    (teamPiece c id config).Sets [c.variableOf id] := by
  obtain ⟨htask, hmembers⟩ := List.forall_mem_cons.mp h
  refine sets_callPiece hc (by decide) ?_
  simp only [Piece.still_append, Piece.still_ofLines, Piece.still_concat,
    List.forall_mem_singleton, List.forall_mem_append, List.forall_mem_map, still_optionalLine]
  refine ⟨⟨⟨⟨?_, ?_⟩, ?_⟩, fun m hm => ?_⟩, ⟨?_, fun n _ => ?_⟩, still_outputFieldLines _⟩
  · exact still_literalProperty (by decide) (by decide) _
  · exact still_templateProperty hc id (by decide) (by decide) htask
  · exact Line.still_opening (by decide) (by decide)
  · refine still_memberPiece hc id fun text htext => ?_
    exact hmembers text (List.mem_filterMap.mpr ⟨m, hm, htext⟩)
  · exact Line.still_closing (by decide) (by decide)
  · exact still_property "maxRounds" (by decide) (by decide) (oneLine_toString n)

theorem sets_triggerPiece (id : String) (config : Trigger) :
    (triggerPiece c id config).Sets [c.variableOf id] := by
  have hline : (Piece.ofLines [.plain (c.variableOf id ++ " = \x7b output: input \x7d;")]).Sets
      [c.variableOf id] := by
    refine sets_line hc (assigns_append _ (by decide)) ?_ rfl
    exact oneLine_append.mpr ⟨oneLine_variable hc id, by decide⟩
  refine sets_ofLines ?_ hline
  rw [List.forall_mem_append, List.forall_mem_flatMap]
  refine ⟨?_, fun v _ => still_commentLines c _⟩
  split
  · simp
  · exact still_commentLines c _
  · exact still_commentLines c _

/-- The statement of a node assigns to its variable and to nothing else. -/
theorem sets_nodePiece {n : Node} (h : ∀ text ∈ n.config.texts, OneLine text) :
    (nodePiece c n).Sets [c.variableOf n.id] := by
  have hother : (Piece.ofLines [.plain (c.variableOf n.id ++ " = \x7b output: undefined \x7d;")]).Sets
      [c.variableOf n.id] := by
    refine sets_line hc (assigns_append _ (by decide)) ?_ rfl
    exact oneLine_append.mpr ⟨oneLine_variable hc n.id, by decide⟩
  rw [nodePiece]
  split
  · exact sets_triggerPiece hc n.id _
  · rename_i config hconfig
    exact sets_agentPiece hc (hconfig ▸ h)
  · rename_i config hconfig
    exact sets_toolCallPiece hc (hconfig ▸ h)
  · rename_i config hconfig
    exact sets_retrievalPiece hc (hconfig ▸ h)
  · rename_i config hconfig
    exact sets_teamPiece hc (hconfig ▸ h)
  · exact hother

/-! ### Blocks -/

/-- A condition assigns to its variable, and then its arms to theirs. -/
theorem sets_branchPiece {n : Node} (hn : c.accepted.node? n.id = some n)
    (h : ∀ text ∈ n.config.texts, OneLine text) {noTrue noFalse : Bool} {p q : Piece}
    {vs us : List String} (hp : p.Sets vs) (hq : q.Sets us) (hvs : noTrue = true → vs = [])
    (hus : noFalse = true → us = []) :
    (branchPiece c n.id noTrue noFalse p q).Sets (c.variableOf n.id :: (vs ++ us)) := by
  have hexpression : OneLine (conditionOf n).expression := by
    rw [conditionOf]
    split
    · rename_i config hconfig
      rw [hconfig] at h
      exact h _ List.mem_cons_self
    · decide
  have hline : (Piece.ofTemplate
      (fun value => .plain (c.variableOf n.id ++ " = \x7b output: Boolean(" ++ value ++ ") \x7d;"))
      expressionValue ((c.resolver n.id).resolve (conditionOf n).expression)).Sets
        [c.variableOf n.id] := by
    have hvalue := oneLine_expressionValue (oneLine_parts hc n.id hexpression)
    refine sets_line hc (((assigns_append _ (by decide)).append _).append _) ?_ rfl
    simp only [oneLine_append, oneLine_variable hc, hvalue, and_true, true_and]
    decide
  have htrue : (Piece.ofLines (c.comment (conditionOf n).trueLabel) ++ p).Sets vs :=
    Piece.Still.append_sets (still_commentLines c _) hp
  have hfalse : (Piece.ofLines (c.comment (conditionOf n).falseLabel) ++ q).Sets us :=
    Piece.Still.append_sets (still_commentLines c _) hq
  have hif : (Piece.ofLines [openBrace ("if (" ++ c.variableOf n.id ++ ".output)")]).Still := by
    refine List.forall_mem_singleton.mpr
      (Line.still_openBrace (((by decide : Settled "if (").append _).append _) ?_)
    simp only [oneLine_append, oneLine_variable hc, and_true]
    decide
  have hunless : (Piece.ofLines [openBrace ("if (!" ++ c.variableOf n.id ++ ".output)")]).Still := by
    refine List.forall_mem_singleton.mpr
      (Line.still_openBrace (((by decide : Settled "if (!").append _).append _) ?_)
    simp only [oneLine_append, oneLine_variable hc, and_true]
    decide
  have hturn : (Piece.ofLines [.turning "\x7d else \x7b"]).Still :=
    List.forall_mem_singleton.mpr
      (List.forall_mem_singleton.mpr ((by decide : Settled "\x7d else \x7b").still (by decide)))
  have hclose : (Piece.ofLines [closeBrace]).Still :=
    List.forall_mem_singleton.mpr (Line.still_closing (by decide) (by decide))
  rw [branchPiece, hn]
  refine ((Piece.still_ofLines.mpr (still_heading c n)).append_sets hline).cons ?_
  -- the arms that are left out assign to nothing
  cases noTrue <;> cases noFalse
  · exact ((((hif.append_sets htrue).append_still hturn).append hfalse).append_still hclose)
  · rw [hus rfl, List.append_nil]
    exact (hif.append_sets htrue).append_still hclose
  · rw [hvs rfl, List.nil_append]
    exact (hunless.append_sets hfalse).append_still hclose
  · rw [hvs rfl, hus rfl]
    exact Piece.still_empty.sets

theorem sets_armPiece (slot : String) (b : Block) {p : Piece} {vs : List String} (hp : p.Sets vs) :
    (armPiece c slot b p).Sets vs := by
  refine Piece.Sets.append_still (Piece.Still.append_sets ?_ hp) ?_
  · rw [Piece.still_ofLines, List.forall_mem_append, List.forall_mem_singleton]
    exact ⟨Line.still_opening (by decide) (by decide), still_commentLines c _⟩
  · rw [Piece.still_ofLines, List.forall_mem_append, List.forall_mem_singleton, still_optionalLine]
    refine ⟨fun id _ => ?_, Line.still_closing (by decide) (by decide)⟩
    have hreturn : Settled ("return " ++ c.variableOf id) := by
      obtain ⟨rest, hchars, -⟩ := hc id
      have hstart : "return " ++ c.variableOf id = "return step_" ++ String.ofList rest := by
        rw [← String.toList_inj]
        simp [String.toList_append, hchars]
      rw [hstart]
      exact (by decide : Settled "return step_").append _
    refine Line.still_plain (hreturn.append _) ?_
    simp only [oneLine_append, oneLine_variable hc, and_true]
    decide

theorem sets_fanPiece (id : String) (merge : Merge) {arms : List Piece} {vs : List String}
    (h : (Piece.concat arms).Sets vs) :
    (fanPiece c id merge arms).Sets (c.variableOf id :: vs) := by
  obtain ⟨combine, nothing, hmerge, hcombine, hnothing⟩ : ∃ combine nothing,
      mergeWords merge = (combine, nothing) ∧ OneLine combine ∧ OneLine nothing := by
    refine ⟨_, _, rfl, ?_⟩
    cases merge <;> decide
  rw [fanPiece, hmerge]
  refine Piece.Still.append_sets (still_headingOf c id) ?_
  split
  · rename_i hempty
    obtain rfl : vs = [] := by
      rw [List.isEmpty_iff.mp hempty] at h
      exact h.assigned.symm
    refine sets_line hc (((assigns_append _ (by decide)).append _).append _) ?_ rfl
    simp only [oneLine_append, oneLine_variable hc, hnothing, and_true, true_and]
    decide
  · have hopen : (Piece.ofLines [.opening (c.variableOf id ++ " = \x7b")]).Sets
        [c.variableOf id] := by
      refine sets_line hc (assigns_append _ (by decide)) ?_ rfl
      exact oneLine_append.mpr ⟨oneLine_variable hc id, by decide⟩
    have hmerge : (Piece.ofLines [.opening ("output: await " ++ combine ++ "([")]).Still := by
      refine List.forall_mem_singleton.mpr
        (Line.still_opening (((by decide : Settled "output: await ").append _).append _) ?_)
      simp only [oneLine_append, hcombine, and_true]
      decide
    have hclose : (Piece.ofLines [.closing "]),", .closing "\x7d;"]).Still := by
      rw [Piece.still_ofLines, List.forall_mem_cons, List.forall_mem_singleton]
      exact ⟨Line.still_closing (by decide) (by decide), Line.still_closing (by decide) (by decide)⟩
    exact ((hopen.append_still hmerge).cons h).append_still hclose

theorem sets_loopPiece (id : String) (body : Block) (maxIterations : Nat) {stopCondition : String}
    (hstop : OneLine stopCondition) {p : Piece} {vs : List String} (hp : p.Sets vs) :
    (loopPiece c id body maxIterations stopCondition p).Sets (c.variableOf id :: vs) := by
  have hclose : closeBrace.Still := Line.still_closing (by decide) (by decide)
  have hstart : (Piece.ofLines
      [.plain (c.variableOf id ++ " = \x7b output: undefined, iterations: 0 \x7d;")]).Sets
        [c.variableOf id] := by
    refine sets_line hc (assigns_append _ (by decide)) ?_ rfl
    exact oneLine_append.mpr ⟨oneLine_variable hc id, by decide⟩
  have hfor : (Piece.ofLines
      [openBrace ("for (let i = 0; i < " ++ toString maxIterations ++ "; i++)")]).Still := by
    refine List.forall_mem_singleton.mpr
      (Line.still_openBrace (((by decide : Settled "for (let i = 0; i < ").append _).append _) ?_)
    simp only [oneLine_append, oneLine_toString, and_true]
    decide
  -- a property of the variable is no variable
  have hproperty : ∀ text : String, text.toList.head? = some '.' →
      Settled (c.variableOf id ++ text) := by
    intro text htext
    obtain ⟨rest, hchars, hrest⟩ := hc id
    refine .of_word ?_ htext (by decide) (by decide)
    rw [hchars]
    exact List.forall_mem_append.mpr ⟨List.all_eq_true.mp (by decide), hrest⟩
  have hround : (Piece.ofLines ([.plain (c.variableOf id ++ ".iterations = i + 1;")] ++
      optionalLine (fun v => .plain (c.variableOf id ++ ".output = " ++ c.variableOf v ++ ";"))
        body.tail?)).Still := by
    rw [Piece.still_ofLines, List.forall_mem_append, List.forall_mem_singleton, still_optionalLine]
    refine ⟨Line.still_plain (hproperty _ rfl) ?_, fun v _ => Line.still_plain ?_ ?_⟩
    · exact oneLine_append.mpr ⟨oneLine_variable hc id, by decide⟩
    · exact ((hproperty _ rfl).append _).append _
    · simp only [oneLine_append, oneLine_variable hc, and_true, true_and]
      decide
  refine Piece.Sets.append_still (Piece.Sets.append_still (Piece.Sets.append_still
    (Piece.Sets.cons ?_ hp) hround) ?_) (List.forall_mem_singleton.mpr hclose)
  · exact Piece.Still.append_sets (still_headingOf c id) (hstart.append_still hfor)
  · split
    · exact Piece.still_empty
    · rw [Piece.still_append, Piece.still_ofTemplate, Piece.still_ofLines, List.forall_mem_cons,
        List.forall_mem_singleton]
      refine ⟨?_, Line.still_plain (by decide) (by decide), hclose⟩
      have hvalue := oneLine_expressionValue (oneLine_parts hc id hstop)
      refine Line.still_openBrace (((by decide : Settled "if (").append _).append _) ?_
      simp only [oneLine_append, hvalue, and_true]
      decide

/-- The node is known, and its templates and expressions are on one line. -/
def Context.Knows (c : Context) (id : String) : Prop :=
  ∃ n, c.accepted.node? id = some n ∧ n.id = id ∧ ∀ text ∈ n.config.texts, OneLine text

/-- What has to be known of a block to write it. -/
def Context.Writes (c : Context) : Block → Prop
  | .seq id _ => c.Knows id
  | .branch id _ _ _ => c.Knows id
  | .loop _ _ _ stopCondition _ => OneLine stopCondition
  | _ => True

theorem sets_armPieces {arms : List (String × Block)}
    (h : ∀ b ∈ arms.map Prod.snd, (blockPiece c b).Sets (b.owned.map c.variableOf)) :
    (Piece.concat (armPieces c arms)).Sets ((Block.ownedArms arms).map c.variableOf) := by
  induction arms with
  | nil => exact Piece.still_empty.sets
  | cons arm arms ih =>
    obtain ⟨slot, b⟩ := arm
    rw [List.map_cons, List.forall_mem_cons] at h
    obtain ⟨hb, harms⟩ := h
    rw [armPieces, Block.ownedArms, List.map_append]
    split
    · rename_i hnone
      rw [List.isEmpty_iff.mp hnone]
      exact ih harms
    · exact (sets_armPiece hc slot b hb).append (ih harms)

omit hc in
theorem sets_listPiece {bs : List Block}
    (h : ∀ b ∈ bs, (blockPiece c b).Sets (b.owned.map c.variableOf)) :
    (listPiece c bs).Sets ((Block.ownedList bs).map c.variableOf) := by
  induction bs with
  | nil =>
    rw [listPiece]
    exact Piece.still_empty.sets
  | cons b bs ih =>
    obtain ⟨hb, hbs⟩ := List.forall_mem_cons.mp h
    rw [listPiece, Block.ownedList, List.map_append]
    exact hb.append (ih hbs)

/-- A block assigns to the variables of the nodes that it owns, in their order. -/
theorem sets_blockPiece (b : Block) (h : ∀ d ∈ b.parts, c.Writes d) :
    (blockPiece c b).Sets (b.owned.map c.variableOf) := by
  induction b using Block.holds_of_parts with
  | seq id next ih =>
    rw [Block.parts, List.forall_mem_cons] at h
    obtain ⟨⟨n, hn, rfl, htexts⟩, hnext⟩ := h
    rw [blockPiece, hn, Block.owned, List.map_cons]
    have hheading : (Piece.ofLines (c.heading n)).Still := still_heading c n
    exact (hheading.append_sets (sets_nodePiece hc htexts)).cons (ih hnext)
  | branch id onTrue onFalse next ihTrue ihFalse ihNext =>
    rw [Block.parts, List.forall_mem_cons, List.forall_mem_append, List.forall_mem_append] at h
    obtain ⟨⟨n, hn, rfl, htexts⟩, ⟨htrue, hfalse⟩, hnext⟩ := h
    have hdone : ∀ b : Block, b.isDone = true → b.owned.map c.variableOf = [] := by
      intro b hb
      cases b <;> first | rfl | simp [Block.isDone] at hb
    rw [blockPiece, Block.owned, List.map_cons, List.map_append, List.map_append]
    exact (sets_branchPiece hc hn htexts (ihTrue htrue) (ihFalse hfalse) (hdone onTrue)
      (hdone onFalse)).append (ihNext hnext)
  | fan id arms merge next ihArms ihNext =>
    rw [Block.parts, List.forall_mem_cons, List.forall_mem_append, Block.partsArms_eq,
      List.forall_mem_flatMap] at h
    obtain ⟨-, harms, hnext⟩ := h
    rw [blockPiece, Block.owned, List.map_cons, List.map_append]
    exact (sets_fanPiece hc id merge (sets_armPieces hc fun b hb => ihArms b hb (harms b hb))).append
      (ihNext hnext)
  | loop id body maxIterations stopCondition next ihBody ihNext =>
    rw [Block.parts, List.forall_mem_cons, List.forall_mem_append] at h
    obtain ⟨hstop, hbody, hnext⟩ := h
    rw [blockPiece, Block.owned, List.map_cons, List.map_append]
    exact (sets_loopPiece hc id body maxIterations hstop (ihBody hbody)).append (ihNext hnext)
  | fork arms next ihArms ihNext =>
    rw [Block.parts, List.forall_mem_cons, List.forall_mem_append, Block.partsList_eq,
      List.forall_mem_flatMap] at h
    obtain ⟨-, harms, hnext⟩ := h
    rw [blockPiece, Block.owned, List.map_append]
    exact (sets_listPiece fun b hb => ihArms b hb (harms b hb)).append (ihNext hnext)
  | visited id =>
    rw [blockPiece]
    exact Piece.Still.sets (still_commentLines c _)
  | done =>
    rw [blockPiece]
    exact Piece.still_empty.sets

/-! ### Whole programs -/

/-- The row that declares the variable of a node. -/
def declaration (c : Context) (id : String) : List Char :=
  ("let " ++ c.variableOf id ++ ": any;").toList

theorem declaration_spec (id : String) :
    Flush (declaration c id) ∧ assigned? (declaration c id) = none := by
  obtain ⟨rest, hchars, hrest⟩ := hc id
  have hstart : declaration c id = "let".toList ++ ' ' :: 's' :: ("tep_".toList ++ rest ++ ": any;".toList) := by
    simp [declaration, String.toList_append, hchars]
  have hlet : ∀ x ∈ "let".toList, isIdentChar x = true := List.all_eq_true.mp (by decide)
  refine ⟨⟨?_, ?_⟩, if_neg fun hprefix => ?_⟩
  · have hline : OneLine ("let " ++ c.variableOf id ++ ": any;") := by
      simp only [oneLine_append, oneLine_variable hc, and_true]
      decide
    exact hline
  · rw [hstart]
    exact fun hhead => absurd (Option.some.inj hhead) (by decide)
  · rw [hstart, List.dropWhile_append_of_pos hlet, List.dropWhile_cons_of_neg (by decide),
      List.isPrefixOf_iff_prefix] at hprefix
    have := (List.cons_prefix_cons.mp (List.cons_prefix_cons.mp hprefix).2).1
    exact absurd this (by decide)

omit hc in
theorem prologue_eq : ∃ top : List Line, prologue c = top ++
      ((sortedSet (c.accepted.workflow.nodes.map Node.id)).map fun id =>
        .plain ("let " ++ c.variableOf id ++ ": any;")) ++ [.blank] ∧ ∀ l ∈ top, l.Still := by
  refine ⟨_, rfl, ?_⟩
  simp only [List.forall_mem_append, List.forall_mem_map, List.forall_mem_cons]
  refine ⟨fun text _ => Line.still_comment text, ?_, Line.still_blank, ?_, by simp⟩
  · refine Line.still_plain
      (((by decide : Settled "import type \x7b Runtime \x7d from ").append _).append _) ?_
    simp only [oneLine_append, oneLine_literal, and_true]
    decide
  · refine Line.still_openBrace (((by decide : Settled "export async function ").append _).append _) ?_
    have hname : OneLine c.options.entryName := by
      rw [Options.entryName]
      split
      · decide
      · exact oneLine_ofList.mpr fun hmem => absurd (Names.mem_identChars hmem) (by decide)
    simp only [oneLine_append, hname, and_true]
    decide

theorem still_epilogue : ∀ l ∈ epilogue c, l.Still := by
  have hclose : closeBrace.Still := Line.still_closing (by decide) (by decide)
  rw [epilogue]
  simp only [List.forall_mem_append, List.forall_mem_singleton]
  refine ⟨⟨Line.still_blank, ?_⟩, hclose⟩
  split
  · exact List.forall_mem_singleton.mpr (Line.still_plain (by decide) (by decide))
  · simp only [List.forall_mem_append, List.forall_mem_singleton, List.forall_mem_map]
    refine ⟨⟨?_, fun id _ => ?_⟩, Line.still_closing (by decide) (by decide)⟩
    · exact List.forall_mem_singleton.mpr ((by decide : Settled "return \x7b").still (by decide))
    · exact still_property (literal id) ((settled_literal id).append _) (oneLine_literal id)
        (oneLine_variable hc id)

/-- A program declares the variables of all nodes, and then runs the block. -/
theorem rows_programPiece {b : Block} (h : ∀ d ∈ b.parts, c.Writes d) :
    ∃ front back, (programPiece c b).rows = front ++
        (sortedSet (c.accepted.workflow.nodes.map Node.id)).map (declaration c) ++ back ∧
      Marks front [] ∧ Marks back (b.owned.map c.variableOf) := by
  obtain ⟨top, hprologue, htop⟩ := @prologue_eq c
  have hblank : (Piece.ofLines [Line.blank]).Still := List.forall_mem_singleton.mpr Line.still_blank
  have hback : (Piece.ofLines [Line.blank] ++ blockPiece c b ++ .ofLines (epilogue c)).Sets
      (b.owned.map c.variableOf) :=
    (hblank.append_sets (sets_blockPiece hc b h)).append_still (still_epilogue hc)
  refine ⟨_, _, ?_, Piece.Still.sets (Piece.still_ofLines.mpr htop), hback⟩
  have hlines : (programPiece c b).lines = prologue c ++ (blockPiece c b).lines ++ epilogue c := rfl
  have hdeclared : ((sortedSet (c.accepted.workflow.nodes.map Node.id)).map fun id =>
      Line.plain ("let " ++ c.variableOf id ++ ": any;")).flatMap Line.rows =
      (sortedSet (c.accepted.workflow.nodes.map Node.id)).map (declaration c) := by
    rw [List.flatMap_map]
    exact List.map_eq_flatMap.symm
  have hrest : (Piece.ofLines [Line.blank] ++ blockPiece c b ++ .ofLines (epilogue c)).lines =
      [Line.blank] ++ ((blockPiece c b).lines ++ epilogue c) := rfl
  rw [Piece.rows, hlines, hprologue, List.append_assoc, List.append_assoc, List.flatMap_append,
    List.flatMap_append, hdeclared, Piece.rows, Piece.rows, hrest]
  rfl

end Named

theorem countP_assigns (rows : List (List Char)) {v : String}
    (hv : ∀ x ∈ v.toList, isIdentChar x = true) :
    rows.countP (fun row => Assigns v row) = (rows.filterMap assigned?).count v := by
  rw [List.count, List.countP_filterMap]
  refine List.countP_congr fun row _ => ?_
  have hiff : Assigns v row ↔ assigned? row = some v := by
    rw [assigned?_eq_some]
    exact ⟨fun h => ⟨hv, h⟩, fun h => h.2⟩
  rw [decide_eq_true_iff, hiff]
  rcases assigned? row with _ | u <;> simp

theorem declares_declaration {c : Context} {u v : String} :
    Declares (c.variableOf u) (declaration c v) ↔ c.variableOf v = c.variableOf u := by
  rw [Declares, declaration, String.toList_inj, String.append_left_inj, String.append_right_inj]

theorem not_declares {row : List Char} (h : ¬"let ".toList <+: row) (v : String) :
    ¬Declares v row := by
  rintro rfl
  refine h ⟨v.toList ++ ": any;".toList, ?_⟩
  rw [String.toList_append, String.toList_append, List.append_assoc]

theorem forall₂_filterMap {α β : Type} (f : α → Option β) (l : List α) :
    List.Forall₂ (fun b a => f a = some b) (l.filterMap f) (l.filter fun a => (f a).isSome) := by
  induction l with
  | nil => exact .nil
  | cons a l ih =>
    rcases ha : f a with _ | b
    · rw [List.filterMap_cons_none ha, List.filter_cons_of_neg (by simp [ha])]
      exact ih
    · rw [List.filterMap_cons_some ha, List.filter_cons_of_pos (by simp [ha])]
      exact .cons ha ih

end Script

open Script

/-- The workflow has the nodes that its plan runs. -/
theorem exists_node_of_plan {w : Workflow} {a : Accepted} (h : check w = .ok a) {d : Block}
    (hd : d ∈ a.plan.block.parts) {id : String} (howner : d.owner? = some id) :
    ∃ n, a.node? id = some n := by
  have hid := Plan.owned_subset (Check.sound_of_check h) id
    ((Block.part_sublist _ hd).mem (Block.mem_owned_iff.mpr (.inl howner)))
  rw [(check_ok h).2.1] at hid
  rw [Accepted.node?, (check_ok h).1]
  exact Workflow.exists_node hid

/-- The blocks of a plan can be written if the workflow has no line feeds in its templates. -/
theorem writes_of_plan {w : Workflow} {a : Accepted} (h : check w = .ok a) (hline : w.OneLine)
    (options : Options) :
    ∀ d ∈ a.plan.block.parts, Context.Writes ⟨a, Names.ofWorkflow a.workflow, options⟩ d := by
  have hs := Check.sound_of_check h
  have hknows : ∀ d ∈ a.plan.block.parts, ∀ id, d.owner? = some id →
      Context.Knows ⟨a, Names.ofWorkflow a.workflow, options⟩ id := by
    intro d hd id howner
    obtain ⟨n, hn⟩ := exists_node_of_plan h hd howner
    obtain ⟨hmem, hnid⟩ := Workflow.node?_eq_some hn
    rw [(check_ok h).1] at hmem
    exact ⟨n, hn, hnid, hline n hmem⟩
  intro d hd
  cases d with
  | seq id next => exact hknows _ hd id rfl
  | branch id onTrue onFalse next => exact hknows _ hd id rfl
  | loop id body maxIterations stopCondition next =>
    -- the condition of a loop is that of its head
    obtain ⟨L, hL, rfl, -⟩ := Plan.owned_subset_body hs hd
    obtain ⟨config, hconfig⟩ := hs.head_config L hL
    obtain ⟨_, _, hloop⟩ := Plan.loop_of_owner hs hd rfl hconfig
    obtain ⟨-, -, -, rfl, -⟩ := Block.loop.inj hloop
    obtain ⟨n, hn, -, htexts⟩ := hknows _ hd L.head rfl
    have hn' : a.node? L.head = some n := hn
    rw [Accepted.config?, hn', Option.map_some, Option.some.injEq] at hconfig
    rw [hconfig] at htexts
    exact htexts _ List.mem_cons_self
  | fan id arms merge next => exact trivial
  | fork arms next => exact trivial
  | visited id => exact trivial
  | done => exact trivial

section Emit

variable {w : Workflow} {a : Accepted} (h : check w = .ok a) (hline : w.OneLine) (options : Options)

include h

/-- The nodes of an accepted workflow have variables of their own. -/
theorem variableOf_inj_of_check : ∀ u ∈ a.graph.ids, ∀ v ∈ a.graph.ids,
    (Names.ofWorkflow w).variableOf u = (Names.ofWorkflow w).variableOf v → u = v := by
  rw [ids_eq h]
  exact fun u hu v hv => Names.variableOf_inj hu hv

include hline

/-- The text of a program: declarations, and then assignments in the order of the plan. -/
theorem rowsOf_emit :
    ∃ front back, rowsOf (emit a.plan.block a options).code = front ++
        (sortedSet (w.nodes.map Node.id)).map
          (declaration ⟨a, Names.ofWorkflow w, options⟩) ++ back ∧
      Marks front [] ∧ Marks back (a.plan.block.owned.map (Names.ofWorkflow w).variableOf) := by
  obtain rfl := (check_ok h).1
  have hnamed : Context.Named ⟨a, Names.ofWorkflow a.workflow, options⟩ := Names.variableOf_chars _
  obtain ⟨front, back, hrows, hfront, hback⟩ :=
    rows_programPiece hnamed (writes_of_plan h hline options)
  have hflush : ∀ row ∈ (programPiece ⟨a, Names.ofWorkflow a.workflow, options⟩ a.plan.block).rows,
      Flush row := by
    rw [hrows]
    simp only [List.forall_mem_append, List.forall_mem_map]
    exact ⟨⟨hfront.flush, fun id _ => (declaration_spec hnamed id).1⟩, hback.flush⟩
  have hlast : (Piece.ofLines [Line.blank]).Sets [] :=
    Piece.Still.sets (List.forall_mem_singleton.mpr Line.still_blank)
  refine ⟨front, back ++ [[]], ?_, hfront, ?_⟩
  · rw [← List.append_assoc, ← hrows]
    exact rowsOf_render hflush
  · have := Marks.append hback hlast
    rwa [List.append_nil] at this

/-- The declarations stand in front of the assignments. -/
theorem exists_front_back : ∃ front back, rowsOf (emit a.plan.block a options).code = front ++ back ∧
    (∀ row ∈ front, assigned? row = none) ∧ (∀ row ∈ back, ¬"let ".toList <+: row) ∧
    back.filterMap assigned? = a.plan.block.owned.map (Names.ofWorkflow w).variableOf := by
  have hnamed : Context.Named ⟨a, Names.ofWorkflow w, options⟩ := Names.variableOf_chars _
  obtain ⟨front, back, hrows, hfront, hback⟩ := rowsOf_emit h hline options
  refine ⟨_, back, hrows, ?_, hback.undeclared, hback.assigned⟩
  rw [List.forall_mem_append, List.forall_mem_map]
  exact ⟨List.filterMap_eq_nil_iff.mp hfront.assigned, fun id _ => (declaration_spec hnamed id).2⟩

/-- What a program assigns to, in order. -/
theorem assigned_emit : (rowsOf (emit a.plan.block a options).code).filterMap assigned? =
    a.plan.block.owned.map (Names.ofWorkflow w).variableOf := by
  obtain ⟨front, back, hrows, hfront, -, hback⟩ := exists_front_back h hline options
  rw [hrows, List.filterMap_append, List.filterMap_eq_nil_iff.mpr hfront, hback, List.nil_append]

theorem countP_assigns_emit {id : String} (hid : id ∈ a.plan.block.owned) :
    (rowsOf (emit a.plan.block a options).code).countP
      (fun row => Assigns ((Names.ofWorkflow w).variableOf id) row) = 1 := by
  have hs := Check.sound_of_check h
  have hnodup : (a.plan.block.owned.map (Names.ofWorkflow w).variableOf).Nodup :=
    (Plan.owned_nodup hs).map_on fun u hu v hv => variableOf_inj_of_check h
      u (Plan.owned_subset hs u hu) v (Plan.owned_subset hs v hv)
  rw [countP_assigns _ (Names.isIdentChar_variableOf _ id), assigned_emit h hline]
  exact List.count_eq_one_of_mem hnodup (List.mem_map_of_mem hid)

theorem countP_declares_emit {id : String} (hid : id ∈ a.graph.ids) :
    (rowsOf (emit a.plan.block a options).code).countP
      (fun row => Declares ((Names.ofWorkflow w).variableOf id) row) = 1 := by
  obtain ⟨front, back, hrows, hfront, hback⟩ := rowsOf_emit h hline options
  have hnone : ∀ {l : List (List Char)}, (∀ row ∈ l, ¬"let ".toList <+: row) →
      l.countP (fun row => Declares ((Names.ofWorkflow w).variableOf id) row) = 0 := by
    intro l hl
    refine List.countP_eq_zero.mpr fun row hrow => ?_
    rw [decide_eq_true_iff]
    exact not_declares (hl row hrow) _
  have hone : ((sortedSet (w.nodes.map Node.id)).map
      (declaration ⟨a, Names.ofWorkflow w, options⟩)).countP
        (fun row => Declares ((Names.ofWorkflow w).variableOf id) row) =
          (sortedSet (w.nodes.map Node.id)).count id := by
    rw [List.countP_map]
    refine List.countP_congr fun u hu => ?_
    have hu : u ∈ a.graph.ids := ids_eq h ▸ mem_sortedSet.mp hu
    rw [Function.comp_apply, decide_eq_true_iff, beq_iff_eq]
    refine declares_declaration.trans ⟨variableOf_inj_of_check h u hu id hid, ?_⟩
    rintro rfl
    rfl
  rw [ids_eq h] at hid
  rw [hrows, List.countP_append, List.countP_append, hnone hfront.undeclared,
    hnone hback.undeclared, hone, Nat.zero_add, Nat.add_zero]
  exact List.count_eq_one_of_mem (nodup_sortedSet _) (mem_sortedSet.mpr hid)

/-- The rows that assign to the variable of a node are those of the plan, in its order. -/
theorem forall₂_assigns_emit :
    List.Forall₂ (fun id row => Assigns ((Names.ofWorkflow w).variableOf id) row) a.plan.block.owned
      ((rowsOf (emit a.plan.block a options).code).filter fun row =>
        w.nodes.any fun n => Assigns ((Names.ofWorkflow w).variableOf n.id) row) := by
  have hassigned := assigned_emit h hline options
  have hall := forall₂_filterMap assigned? (rowsOf (emit a.plan.block a options).code)
  rw [hassigned, List.forall₂_map_left_iff] at hall
  -- a row that assigns to anything assigns to the variable of a node
  have hfilter : ((rowsOf (emit a.plan.block a options).code).filter fun row =>
      w.nodes.any fun n => Assigns ((Names.ofWorkflow w).variableOf n.id) row) =
      (rowsOf (emit a.plan.block a options).code).filter fun row => (assigned? row).isSome := by
    refine List.filter_congr fun row hrow => ?_
    rw [Bool.eq_iff_iff, List.any_eq_true, Option.isSome_iff_exists]
    constructor
    · rintro ⟨n, -, hassigns⟩
      exact ⟨_, assigned?_eq_some.mpr
        ⟨Names.isIdentChar_variableOf _ n.id, of_decide_eq_true hassigns⟩⟩
    · rintro ⟨v, hv⟩
      have hmem := List.mem_filterMap.mpr ⟨row, hrow, hv⟩
      rw [hassigned] at hmem
      obtain ⟨id, hid, rfl⟩ := List.mem_map.mp hmem
      have hnode := Plan.owned_subset (Check.sound_of_check h) id hid
      rw [ids_eq h] at hnode
      obtain ⟨n, hn, rfl⟩ := List.mem_map.mp hnode
      exact ⟨n, hn, decide_eq_true (assigned?_eq_some.mp hv).2⟩
  rw [hfilter]
  exact hall.imp fun id row hrow => (assigned?_eq_some.mp hrow).2

end Emit

/-- If the plan of an accepted workflow has no error, and no template or expression has a line feed,
the emitted program declares the variable of every node once and assigns to it once.  The
declarations stand in front of the assignments, and the assignments in the order of the nodes that
the plan owns. -/
theorem emit_assigns_once {w : Workflow} {a : Accepted} (h : check w = .ok a)
    (hplan : hasErrors a.plan.diagnostics = false) (hline : w.OneLine) (options : Options) :
    let name := (Names.ofWorkflow w).variableOf
    let rows := rowsOf (emit a.plan.block a options).code
    (∀ n ∈ w.nodes, rows.countP (fun row => Assigns (name n.id) row) = 1 ∧
      rows.countP (fun row => Declares (name n.id) row) = 1) ∧
    (∃ front back, rows = front ++ back ∧ ∀ n ∈ w.nodes,
      (∀ row ∈ front, ¬Assigns (name n.id) row) ∧ ∀ row ∈ back, ¬Declares (name n.id) row) ∧
    List.Forall₂ (fun id row => Assigns (name id) row) a.plan.block.owned
      (rows.filter fun row => w.nodes.any fun n => Assigns (name n.id) row) := by
  refine ⟨fun n hn => ?_, ?_, forall₂_assigns_emit h hline options⟩
  · have hid : n.id ∈ a.graph.ids := ids_eq h ▸ List.mem_map_of_mem hn
    have howned : n.id ∈ a.plan.block.owned := by
      by_contra hlost
      exact absurd ((hasErrors_plan_iff h).mpr ⟨n.id, hid, hlost⟩) (Bool.eq_false_iff.mp hplan)
    exact ⟨countP_assigns_emit h hline options howned, countP_declares_emit h hline options hid⟩
  · obtain ⟨front, back, hrows, hfront, hback, -⟩ := exists_front_back h hline options
    refine ⟨front, back, hrows, fun n _ => ⟨fun row hrow hassigns => ?_, fun row hrow => ?_⟩⟩
    · have hsome := assigned?_eq_some.mpr ⟨Names.isIdentChar_variableOf _ n.id, hassigns⟩
      rw [hfront row hrow] at hsome
      simp at hsome
    · exact not_declares (hback row hrow) _

/-- A workflow with texts that look like statements of a program. -/
def quotingFlow : Workflow where
  nodes :=
    [ { id := "start", label := some "let step_start: any;\nstep_start = 1", config := .trigger {} },
      { id := "ask",
        config := .toolCall
          { tool := "step_ask = 1",
            arguments := [("let step_ask", "step_ask = 2"), ("step_ask", "\x7b\x7binput\x7d\x7d")] } },
      { id := "good", config := .condition { expression := "step_good = \x7b\x7bask\x7d\x7d" } },
      { id := "thank", config := .agent { prompt := "let step_thank: any;" } },
      { id := "regret", config := .agent { prompt := "step_regret = \x7b\x7bask\x7d\x7d" } } ]
  edges :=
    [ { id := "e1", source := "start", target := "ask" },
      { id := "e2", source := "ask", target := "good" },
      { id := "e3", source := "good", target := "thank", branch := some true },
      { id := "e4", source := "good", target := "regret", branch := some false } ]

/-- The texts are not taken for statements. -/
theorem emit_assigns_once_quotingFlow : ∃ a, check quotingFlow = .ok a ∧
    hasErrors a.plan.diagnostics = false ∧ quotingFlow.OneLine ∧
    a.plan.block.owned = ["start", "ask", "good", "thank", "regret"] ∧
    ∀ n ∈ quotingFlow.nodes,
      (rowsOf (emit a.plan.block a {}).code).countP
        (fun row => Assigns ((Names.ofWorkflow quotingFlow).variableOf n.id) row) = 1 ∧
      (rowsOf (emit a.plan.block a {}).code).countP
        (fun row => Declares ((Names.ofWorkflow quotingFlow).variableOf n.id) row) = 1 := by
  obtain ⟨a, ha, hplan, howned⟩ : ∃ a, check quotingFlow = .ok a ∧
      hasErrors a.plan.diagnostics = false ∧
      a.plan.block.owned = ["start", "ask", "good", "thank", "regret"] :=
    exists_check_ok (by decide +kernel)
  have hline : quotingFlow.OneLine := by decide
  exact ⟨a, ha, hplan, hline, howned, (emit_assigns_once ha hplan hline {}).1⟩

end Flowscript
