/-
When compilation fails.

Past acceptance and planning nothing goes wrong any more: the text of a program is never empty
(`emit_code_ne`), and what the resolution of templates has to say is no error (`emit_noErrors`).
A plan has errors exactly if it loses a node (`hasErrors_plan_iff`).  So compilation fails exactly
on the workflows that are refused and on those whose plan loses a node.
-/
import Flowscript.Compile
import Flowscript.Proofs.Plan.Coverage

namespace Flowscript

/-! ### The text of a program -/

namespace Script

theorem append_ne_empty {a b : String} (h : a ≠ "" ∨ b ≠ "") : a ++ b ≠ "" := by
  rcases h with h | h <;> simp [h]

theorem indented_ne (depth : Nat) (text : String) : indented depth text ≠ "" :=
  append_ne_empty (.inr (by decide))

theorem renderFrom_ne {ls : List Line} {text : String} (h : Line.plain text ∈ ls) (depth : Nat) :
    renderFrom depth ls ≠ "" := by
  induction ls generalizing depth with
  | nil => simp at h
  | cons l ls ih =>
    rw [renderFrom]
    rcases List.mem_cons.mp h with rfl | h
    · exact append_ne_empty (.inl (indented_ne depth text))
    · exact append_ne_empty (.inr (ih h _))

/-- An emitted program has at least the line that imports the runtime. -/
theorem emit_code_ne (b : Block) (a : Accepted) (options : Options) :
    (emit b a options).code ≠ "" := by
  have hmem : Line.plain ("import type \x7b Runtime \x7d from " ++
      Text.literal options.runtimeImport ++ ";") ∈
      prologue ⟨a, Names.ofWorkflow a.workflow, options⟩ := by
    simp [prologue]
  exact renderFrom_ne (List.mem_append_left _ (List.mem_append_left _ hmem)) 0

/-! ### Warnings -/

/-- None of the messages that arose with a piece is an error. -/
def Piece.Calm (p : Piece) : Prop := ∀ d ∈ p.warnings, d.isError = false

@[simp] theorem calm_empty : ({} : Piece).Calm := by simp [Piece.Calm]

@[simp] theorem calm_ofLines (ls : List Line) : (Piece.ofLines ls).Calm := by
  simp [Piece.Calm, Piece.ofLines]

@[simp] theorem calm_append {p q : Piece} : (p ++ q).Calm ↔ p.Calm ∧ q.Calm := by
  have : (p ++ q).warnings = p.warnings ++ q.warnings := rfl
  simp only [Piece.Calm, this, List.mem_append, or_imp, forall_and]

@[simp] theorem calm_concat {ps : List Piece} : (Piece.concat ps).Calm ↔ ∀ p ∈ ps, p.Calm := by
  induction ps with
  | nil => simp [Piece.concat]
  | cons p ps ih => simp [Piece.concat, ih]

theorem resolve_warnings (r : Resolver) (template : String) :
    ∀ d ∈ (r.resolve template).warnings, d.isError = false := by
  intro d hd
  simp only [Resolver.resolve, List.mem_map] at hd
  obtain ⟨f, -, rfl⟩ := hd
  rfl

@[simp] theorem calm_ofTemplate (line : String → Line) (write : Resolved → String) (r : Resolver)
    (template : String) : (Piece.ofTemplate line write (r.resolve template)).Calm :=
  resolve_warnings r template

@[simp] theorem calm_templateProperty (r : Resolver) (name template : String) :
    (templateProperty r name template).Calm := calm_ofTemplate _ _ _ _

@[simp] theorem calm_memberPiece (r : Resolver) (m : Member) : (memberPiece r m).Calm := by
  intro d hd
  simp only [memberPiece, List.mem_flatMap, Option.mem_toList, Option.map_eq_some_iff] at hd
  obtain ⟨_, ⟨template, -, rfl⟩, hd⟩ := hd
  exact resolve_warnings r template d hd

@[simp] theorem calm_callPiece (c : Context) (id method : String) {p : Piece} :
    (callPiece c id method p).Calm ↔ p.Calm := by
  simp [callPiece]

theorem calm_nodePiece (c : Context) (n : Node) : (nodePiece c n).Calm := by
  rw [nodePiece]
  split
  · simp [triggerPiece]
  · simp [agentPiece]
  · rw [toolCallPiece, calm_callPiece]
    split
    · simp
    · simp only [calm_append, calm_ofLines, calm_concat, List.mem_map, true_and, and_true]
      rintro _ ⟨⟨name, template⟩, -, rfl⟩
      exact calm_templateProperty _ _ _
  · simp [retrievalPiece]
  · simp [teamPiece]
  · simp

@[simp] theorem calm_headingOf (c : Context) (id : String) : (headingOf c id).Calm := by
  rw [headingOf]
  split <;> simp

theorem calm_branchPiece (c : Context) (id : String) (noTrue noFalse : Bool) {p q : Piece}
    (hp : p.Calm) (hq : q.Calm) : (branchPiece c id noTrue noFalse p q).Calm := by
  rw [branchPiece]
  split
  · simp
  · cases noTrue <;> cases noFalse <;> simp [hp, hq]

theorem calm_fanPiece (c : Context) (id : String) (merge : Merge) {ps : List Piece}
    (hps : ∀ p ∈ ps, p.Calm) : (fanPiece c id merge ps).Calm := by
  simp only [fanPiece, calm_append, calm_headingOf, true_and]
  split
  · exact calm_ofLines _
  · simpa using hps

theorem calm_loopPiece (c : Context) (id : String) (body : Block) (maxIterations : Nat)
    (stopCondition : String) {p : Piece} (hp : p.Calm) :
    (loopPiece c id body maxIterations stopCondition p).Calm := by
  simp only [loopPiece, calm_append, calm_headingOf, calm_ofLines, hp, true_and, and_true]
  split <;> simp

mutual

theorem calm_blockPiece (c : Context) : ∀ b : Block, (blockPiece c b).Calm
  | .seq id next => by
    rw [blockPiece, calm_append]
    refine ⟨?_, calm_blockPiece c next⟩
    split
    · exact calm_append.mpr ⟨calm_ofLines _, calm_nodePiece c _⟩
    · exact calm_empty
  | .branch id onTrue onFalse next => by
    rw [blockPiece, calm_append]
    exact ⟨calm_branchPiece c id _ _ (calm_blockPiece c onTrue) (calm_blockPiece c onFalse),
      calm_blockPiece c next⟩
  | .fan id arms merge next => by
    rw [blockPiece, calm_append]
    exact ⟨calm_fanPiece c id merge (calm_armPieces c arms), calm_blockPiece c next⟩
  | .loop id body maxIterations stopCondition next => by
    rw [blockPiece, calm_append]
    exact ⟨calm_loopPiece c id body _ _ (calm_blockPiece c body), calm_blockPiece c next⟩
  | .fork arms next => by
    rw [blockPiece, calm_append]
    exact ⟨calm_listPiece c arms, calm_blockPiece c next⟩
  | .visited id => by
    rw [blockPiece]
    exact calm_ofLines _
  | .done => by
    rw [blockPiece]
    exact calm_empty

theorem calm_armPieces (c : Context) : ∀ arms : List (String × Block),
    ∀ p ∈ armPieces c arms, p.Calm
  | [] => by simp [armPieces]
  | (slot, b) :: rest => by
    rw [armPieces]
    split
    · exact calm_armPieces c rest
    · refine List.forall_mem_cons.mpr ⟨?_, calm_armPieces c rest⟩
      simp [armPiece, calm_blockPiece c b]

theorem calm_listPiece (c : Context) : ∀ bs : List Block, (listPiece c bs).Calm
  | [] => by
    rw [listPiece]
    exact calm_empty
  | b :: rest => by
    rw [listPiece, calm_append]
    exact ⟨calm_blockPiece c b, calm_listPiece c rest⟩

end

theorem emit_noErrors (b : Block) (a : Accepted) (options : Options) :
    hasErrors (emit b a options).diagnostics = false := by
  rw [hasErrors, List.any_eq_false]
  intro d hd
  have hcalm : (programPiece ⟨a, Names.ofWorkflow a.workflow, options⟩ b).Calm := by
    simp [programPiece, calm_blockPiece]
  simp [hcalm d hd]

end Script

/-! ### The errors of a plan -/

/-- A node that the plan of a workflow does not own. -/
def Accepted.Loses (a : Accepted) (v : String) : Prop :=
  v ∈ a.graph.ids ∧ v ∉ a.plan.block.owned

instance (a : Accepted) (v : String) : Decidable (a.Loses v) := inferInstanceAs (Decidable (_ ∧ _))

section Plan

variable {w : Workflow} {a : Accepted} (h : check w = .ok a)
include h

/-- The only thing that can be wrong with a plan is that it loses nodes. -/
theorem faults_eq_lost : a.plan.block.faults a.graph.ids =
    ((sortedSet a.graph.ids).filter fun id => !a.plan.block.owned.contains id).map .lost := by
  have hs := Check.sound_of_check h
  have hrepeated : repetitions [] a.plan.block.owned = [] :=
    repetitions_eq_nil.mpr ⟨Plan.owned_nodup hs, by simp⟩
  have hdangling : ((sortedSet a.plan.block.revisited).filter fun id =>
      !a.plan.block.owned.contains id) = [] :=
    List.filter_eq_nil_iff.mpr fun v hv => by
      simpa using Plan.revisited_subset hs v (mem_sortedSet.mp hv)
  simp only [Block.faults, hrepeated, hdangling]
  simp [sortedSet, sortTexts, distinct, sortBy]

theorem plan_errors {d : Diagnostic} (hd : d ∈ a.plan.diagnostics) (herr : d.isError = true) :
    ∃ v, a.Loses v ∧ d = (PlanFault.lost v).toDiagnostic := by
  obtain ⟨notes, hdiag⟩ := Plan.plan_diagnostics (Check.sound_of_check h)
  rw [hdiag, faults_eq_lost h] at hd
  rcases List.mem_append.mp hd with hd | hd
  · obtain ⟨n, -, rfl⟩ := List.mem_map.mp hd
    cases n <;> simp [Diagnostic.isError, PlanNote.toDiagnostic, PlanNote.severity] at herr
  · obtain ⟨f, hf, rfl⟩ := List.mem_map.mp hd
    obtain ⟨v, hv, rfl⟩ := List.mem_map.mp hf
    obtain ⟨hmem, howned⟩ := List.mem_filter.mp hv
    exact ⟨v, ⟨mem_sortedSet.mp hmem, by simpa using howned⟩, rfl⟩

theorem hasErrors_plan_iff : hasErrors a.plan.diagnostics = true ↔ ∃ v, a.Loses v := by
  rw [hasErrors, List.any_eq_true]
  constructor
  · rintro ⟨d, hd, herr⟩
    obtain ⟨v, hv, -⟩ := plan_errors h hd herr
    exact ⟨v, hv⟩
  · rintro ⟨v, hmem, howned⟩
    obtain ⟨notes, hdiag⟩ := Plan.plan_diagnostics (Check.sound_of_check h)
    refine ⟨(PlanFault.lost v).toDiagnostic, ?_, rfl⟩
    rw [hdiag, faults_eq_lost h]
    refine List.mem_append_right _ (List.mem_map_of_mem (List.mem_map_of_mem ?_))
    exact List.mem_filter.mpr ⟨mem_sortedSet.mpr hmem, by simpa using howned⟩

theorem warnings_noErrors : hasErrors a.warnings = false := by
  simp only [check] at h
  split at h
  · exact absurd h (by simp)
  · rename_i herr
    obtain rfl := Except.ok.inj h
    simpa using herr

end Plan

theorem hasErrors_of_check_error {w : Workflow} {ds : List Diagnostic}
    (h : check w = .error ds) : hasErrors ds = true := by
  simp only [check] at h
  split at h
  · rename_i herr
    rwa [← Except.error.inj h]
  · exact absurd h (by simp)

/-- What compilation does, by what becomes of the canonical workflow. -/
theorem compile_cases {w : Workflow} (hne : w.nodes ≠ []) (options : Options) :
    (∃ ds, check w.canonical = .error ds ∧ w.compile options = ⟨"", ds⟩) ∨
    ∃ a, check w.canonical = .ok a ∧
      ((∃ v, a.Loses v) ∧ w.compile options = ⟨"", a.warnings ++ a.plan.diagnostics⟩ ∨
        (∀ v, ¬a.Loses v) ∧ w.compile options =
          ⟨(Script.emit a.plan.block a options).code, a.warnings ++ a.plan.diagnostics ++
            (Script.emit a.plan.block a options).diagnostics⟩) := by
  have hempty : w.nodes.isEmpty = false := by simpa using hne
  simp only [Workflow.compile, hempty, Bool.false_eq_true, if_false]
  rcases hcheck : check w.canonical with ds | a
  · exact .inl ⟨ds, rfl, rfl⟩
  · refine .inr ⟨a, rfl, ?_⟩
    by_cases hlost : ∃ v, a.Loses v
    · exact .inl ⟨hlost, by simp [(hasErrors_plan_iff hcheck).mpr hlost]⟩
    · have hnone : hasErrors a.plan.diagnostics = false :=
        Bool.eq_false_iff.mpr fun herr => hlost ((hasErrors_plan_iff hcheck).mp herr)
      exact .inr ⟨fun v hv => hlost ⟨v, hv⟩, by simp [hnone]⟩

/-- Compilation gives no program exactly if it reports an error, and it does so on the workflows
that are refused and on those whose plan loses a node.  No node is lost if no parallel node has two
links straight back to entries that are no feedback loops, so then only the rules refuse. -/
theorem compile_fails_iff {w : Workflow} (hne : w.nodes ≠ []) (options : Options) :
    ((w.compile options).code = "" ↔ hasErrors (w.compile options).diagnostics = true) ∧
      (hasErrors (w.compile options).diagnostics = true ↔
        (∃ ds, check w.canonical = .error ds) ∨
          ∃ a, check w.canonical = .ok a ∧ ∃ v, a.Loses v) ∧
      ((∀ a, check w.canonical = .ok a → a.ReturnsOnce) →
        (hasErrors (w.compile options).diagnostics = true ↔
          ∃ ds, check w.canonical = .error ds)) ∧
      ∀ a, check w.canonical = .ok a → ∀ d ∈ (w.compile options).diagnostics, d.isError = true →
        ∃ v, a.Loses v ∧ d = (PlanFault.lost v).toDiagnostic := by
  -- refused, planned with a loss, or emitted
  rcases compile_cases hne options with ⟨ds, hds, hcompile⟩ | ⟨a, ha, hcase⟩
  · have herr := hasErrors_of_check_error hds
    simp [hcompile, hds, herr]
  · have hwarn := warnings_noErrors ha
    have hkeeps : a.ReturnsOnce → ∀ v, ¬a.Loses v := fun honce v hv =>
      hv.2 (Plan.mem_owned (Check.sound_of_check ha) honce hv.1)
    have hwarning : ∀ d ∈ a.warnings, d.isError ≠ true := List.any_eq_false.mp hwarn
    rcases hcase with ⟨hlost, hcompile⟩ | ⟨hnone, hcompile⟩
    · have hplan := (hasErrors_plan_iff ha).mpr hlost
      refine ⟨by simp [hcompile, hasErrors_append, hplan], ?_, fun honce => ?_, ?_⟩
      · simp [hcompile, hasErrors_append, hplan, ha, hlost]
      · exact absurd hlost (not_exists.mpr (hkeeps (honce a ha)))
      · rintro _ hb d hd herr
        obtain rfl := Except.ok.inj (ha.symm.trans hb)
        rw [hcompile] at hd
        rcases List.mem_append.mp hd with hd | hd
        · exact absurd herr (hwarning d hd)
        · exact plan_errors ha hd herr
    · have hplan : hasErrors a.plan.diagnostics = false := Bool.eq_false_iff.mpr fun herr => by
        obtain ⟨v, hv⟩ := (hasErrors_plan_iff ha).mp herr
        exact hnone v hv
      have hcalm : hasErrors (w.compile options).diagnostics = false := by
        rw [hcompile]
        simp [hasErrors_append, hplan, hwarn, Script.emit_noErrors]
      have hcode : (w.compile options).code ≠ "" := by
        rw [hcompile]
        exact Script.emit_code_ne _ _ _
      refine ⟨by simp [hcalm, hcode], by simp [hcalm, ha, hnone], fun _ => by simp [hcalm, ha], ?_⟩
      intro _ _ d hd herr
      exact absurd herr (List.any_eq_false.mp hcalm d hd)

/-- With one slot that goes straight back the review compiles. -/
theorem compile_reviewFlow : (reviewFlow ["redo"]).nodes ≠ [] ∧
    hasErrors ((reviewFlow ["redo"]).compile {}).diagnostics = false ∧
    ((reviewFlow ["redo"]).compile {}).code ≠ "" := by
  have hne : (reviewFlow ["redo"]).nodes ≠ [] := by decide
  obtain ⟨hcode, -, hrules, -⟩ := compile_fails_iff hne {}
  obtain ⟨a, ha, honce⟩ : ∃ a, check (reviewFlow ["redo"]).canonical = .ok a ∧ a.ReturnsOnce :=
    exists_check_ok (by decide +kernel)
  have herr : hasErrors ((reviewFlow ["redo"]).compile {}).diagnostics = false := by
    refine Bool.eq_false_iff.mpr fun herr => ?_
    obtain ⟨ds, hds⟩ := (hrules fun b hb => by
      obtain rfl := Except.ok.inj (ha.symm.trans hb)
      exact honce).mp herr
    exact absurd (ha.symm.trans hds) (by simp)
  exact ⟨hne, herr, fun hempty => by simp [hcode.mp hempty] at herr⟩

/-- With two slots that go straight back the review is accepted, but its check is lost and no
program comes out. -/
theorem compile_loses_check : ∃ a, check (reviewFlow ["redo", "again"]).canonical = .ok a ∧
    a.Loses "check" ∧ ((reviewFlow ["redo", "again"]).compile {}).code = "" ∧
    hasErrors ((reviewFlow ["redo", "again"]).compile {}).diagnostics = true := by
  obtain ⟨a, ha, hlost⟩ : ∃ a, check (reviewFlow ["redo", "again"]).canonical = .ok a ∧
      a.Loses "check" := exists_check_ok (by decide +kernel)
  refine ⟨a, ha, hlost, ?_⟩
  decide +kernel

end Flowscript
