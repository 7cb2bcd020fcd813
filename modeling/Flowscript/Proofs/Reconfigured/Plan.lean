/-
What planning reads of a node.

The planner looks up the configuration of a node to tell its kind, and copies a merge, a bound and
a stop condition into the tree.  A merge decides one thing more, whether a race is noted.  So a bare
workflow has the plan of the workflow with these values erased (`Block.bare`) and without the notes
on races (`Progress.bare`):

* `blockFrom_bare` — by induction on the depth, for all that is planned;
* `Accepted.plan_bare` — for the plan as a whole;
* `check_reconfigured` — hence neither the verdict nor the shape of the plan depends on the
  configurations.
-/
import Flowscript.Proofs.Plan.Part
import Flowscript.Proofs.Reconfigured.Check
import Flowscript.Proofs.Redrawn.Plan

namespace Flowscript

namespace Block

mutual

/-- The same tree with every merge, bound and stop condition erased. -/
def bare : Block → Block
  | .seq node next => .seq node (bare next)
  | .branch node onTrue onFalse next => .branch node (bare onTrue) (bare onFalse) (bare next)
  | .fan node arms _ next => .fan node (bareArms arms) .all (bare next)
  | .loop node body _ _ next => .loop node (bare body) 0 "" (bare next)
  | .fork arms next => .fork (bareList arms) (bare next)
  | .visited node => .visited node
  | .done => .done

def bareArms : List (String × Block) → List (String × Block)
  | [] => []
  | (slot, b) :: rest => (slot, bare b) :: bareArms rest

def bareList : List Block → List Block
  | [] => []
  | b :: rest => bare b :: bareList rest

end

theorem bareList_eq (bs : List Block) : bareList bs = bs.map bare := by
  induction bs with
  | nil => rfl
  | cons b bs ih => rw [bareList, ih, List.map_cons]

theorem bareArms_eq (arms : List (String × Block)) : bareArms arms = arms.map (Prod.map id bare) := by
  induction arms with
  | nil => rfl
  | cons arm arms ih =>
    rw [bareArms, ih, List.map_cons]
    rfl

theorem children_bare (b : Block) : b.bare.children = b.children.map bare := by
  cases b with
  | fan node arms merge next =>
    simp only [bare, children, bareArms_eq, List.map_append, List.map_map, List.map_cons,
      List.map_nil]
    rfl
  | fork arms next =>
    simp only [bare, children, bareList_eq, List.map_append, List.map_cons, List.map_nil]
  | _ => rfl

/-- What a tree collects from its blocks, apart from the erased values, is the same for the bare
tree. -/
theorem collected_bare {β : Type} {f own : Block → List β}
    (hf : ∀ b, f b = own b ++ b.children.flatMap f) (hown : ∀ b : Block, own b.bare = own b)
    (b : Block) : f b.bare = f b := by
  induction b using holds_of_children with
  | h b ih =>
    rw [hf b.bare, hf b, hown, children_bare, List.flatMap_map, List.flatMap_def, List.flatMap_def,
      List.map_congr_left ih]

theorem owned_bare : ∀ b : Block, b.bare.owned = b.owned :=
  collected_bare owned_eq fun b => by cases b <;> rfl

/-- The node that a block leaves to another one. -/
def left : Block → List String
  | .visited node => [node]
  | _ => []

theorem revisited_eq (b : Block) : b.revisited = b.left ++ b.children.flatMap revisited := by
  cases b <;> simp [revisited, left, children, revisitedList_eq, revisitedArms_eq]

theorem revisited_bare : ∀ b : Block, b.bare.revisited = b.revisited :=
  collected_bare revisited_eq fun b => by cases b <;> rfl

theorem faults_bare (b : Block) (ids : List String) : b.bare.faults ids = b.faults ids := by
  simp only [faults, owned_bare, revisited_bare]

end Block

/-- The bare workflow, accepted with the same graph and loops. -/
def Accepted.bare (a : Accepted) : Accepted :=
  { a with workflow := a.workflow.bare, warnings := [] }

/-- The only note that looks at the configuration of a node. -/
def PlanNote.isRace : PlanNote → Bool
  | .race _ _ => true
  | _ => false

namespace Plan

/-- The same progress without the notes on races. -/
def Progress.bare (p : Progress) : Progress :=
  { p with notes := p.notes.filter fun n => !n.isRace }

/-- Apart from races, the notes on a fan are about the arms without a node of their own. -/
theorem fanNotes_calm (a : Accepted) (id : String) (merge : Merge) (shared : List String)
    (arms : List (Link × Block)) :
    (fanNotes a id merge shared arms).filter (fun n => !n.isRace) =
      (arms.filter fun arm => arm.2.owned.isEmpty).map fun arm =>
        .emptyArm (arm.1.edge.slot.getD "") id arm.1.target := by
  rw [fanNotes, List.partition_eq_filter_filter, List.filter_append]
  have hempty : ∀ idle : List (Link × Block),
      (idle.map fun arm => PlanNote.emptyArm (arm.1.edge.slot.getD "") id arm.1.target).filter
          (fun n => !n.isRace) =
        idle.map fun arm => PlanNote.emptyArm (arm.1.edge.slot.getD "") id arm.1.target := by
    intro idle
    refine List.filter_eq_self.mpr fun n hn => ?_
    obtain ⟨arm, -, rfl⟩ := List.mem_map.mp hn
    rfl
  refine (congrArg₂ _ (hempty _) ?_).trans (List.append_nil _)
  split
  · refine List.filter_eq_nil_iff.mpr fun n hn => ?_
    obtain ⟨node, -, rfl⟩ := List.mem_map.mp hn
    simp [PlanNote.isRace]
  · rfl

theorem fanNotes_bare (a : Accepted) (id : String) (merge : Merge) (shared : List String)
    (links : List Link) (blocks : List Block) :
    fanNotes a.bare id .all shared (links.zip (blocks.map Block.bare)) =
      (fanNotes a id merge shared (links.zip blocks)).filter fun n => !n.isRace := by
  have hall : (fanNotes a.bare id .all shared (links.zip (blocks.map Block.bare))).filter
      (fun n => !n.isRace) = fanNotes a.bare id .all shared (links.zip (blocks.map Block.bare)) := by
    refine List.filter_eq_self.mpr fun n hn => ?_
    rw [fanNotes, List.partition_eq_filter_filter] at hn
    rcases List.mem_append.mp hn with hn | hn
    · obtain ⟨arm, -, rfl⟩ := List.mem_map.mp hn
      rfl
    · simp at hn
  rw [← hall, fanNotes_calm, fanNotes_calm, List.zip_map_right, List.filter_map, List.map_map]
  simp only [Function.comp_def, Prod.map_fst, Prod.map_snd, Block.owned_bare]
  rfl

theorem Progress.bare_tell (p : Progress) (notes : List PlanNote) :
    Progress.bare { p with notes := p.notes ++ notes } =
      { p.bare with notes := p.bare.notes ++ notes.filter fun n => !n.isRace } := by
  simp only [bare, List.filter_append]

theorem Progress.bare_leave (p : Progress) (id : String) : (p.leave id).bare = p.bare.leave id := by
  have houtside : p.bare.outside = p.outside := rfl
  rw [leave, leave, houtside]
  split <;> rfl

theorem Progress.bare_postpone (p : Progress) (id : String) :
    (p.postpone id).bare = p.bare.postpone id := by
  have hwaiting : p.bare.waiting = p.waiting := rfl
  rw [postpone, postpone, hwaiting]
  split
  · rfl
  · exact bare_tell { p with waiting := id :: p.waiting } [.joinPostponed id]

theorem Progress.bare_note {n : PlanNote} (hn : n.isRace = false) (p : Progress) :
    (p.note n).bare = p.bare.note n := by
  simp [note, bare, hn]

/-- `walk'` plans the bare tree of what `walk` plans. -/
def Walk.Bares (walk walk' : Walk) : Prop :=
  ∀ s id p, walk' s id p.bare = ((walk s id p).1.bare, (walk s id p).2.bare)

section Walks

variable {a : Accepted} {order : List String} {walk walk' : Walk} (hw : walk.Bares walk')
include hw

theorem walkEach_bare (s : Scope) (ids : List String) : ∀ p : Progress,
    walkEach walk' s ids p.bare =
      ((walkEach walk s ids p).1.map Block.bare, (walkEach walk s ids p).2.bare) := by
  induction ids with
  | nil => exact fun p => rfl
  | cons id ids ih =>
    intro p
    simp only [walkEach, hw s id p, ih, List.map_cons]

theorem armsFrom_bare (s : Scope) (arms : List String) (p : Progress) :
    armsFrom a.bare order walk' s arms p.bare =
      ((armsFrom a order walk s arms p).1.map Block.bare,
        (armsFrom a order walk s arms p).2.1.bare, (armsFrom a order walk s arms p).2.2.bare) := by
  have hmeeting : meeting? a.bare order s arms = meeting? a order s arms := rfl
  simp only [armsFrom, hmeeting]
  split
  · simp only [walkEach_bare hw]
    rfl
  · simp only [walkEach_bare hw, hw s _ _]

theorem behind_bare (s : Scope) (targets : List String) (p : Progress) :
    behind a.bare order walk' s targets p.bare =
      ((behind a order walk s targets p).1.bare, (behind a order walk s targets p).2.bare) := by
  simp only [behind]
  split
  · rfl
  · exact hw s _ p
  · simp only [armsFrom_bare hw, Block.bare, Block.bareList_eq]

theorem branchAt_bare (s : Scope) (id : String) (p : Progress) :
    branchAt a.bare order walk' s id p.bare =
      ((branchAt a order walk s id p).1.bare, (branchAt a order walk s id p).2.bare) := by
  have houtgoing : a.bare.graph.outgoing id = a.graph.outgoing id := rfl
  simp only [branchAt, houtgoing]
  split
  · rename_i t f _ _
    rw [armsFrom_bare hw]
    generalize armsFrom a order walk s [t, f] p = planned
    obtain ⟨blocks, next, q⟩ := planned
    -- two blocks are the two arms
    rcases blocks with _ | ⟨onTrue, _ | ⟨onFalse, _ | ⟨more, blocks⟩⟩⟩ <;> rfl
  · simp only [hw s _ p, Block.bare]
  · simp only [hw s _ p, Block.bare]
  · rfl

theorem fanAt_bare (s : Scope) (id : String) (merge : Merge) (p : Progress) :
    fanAt a.bare order walk' s id .all p.bare =
      ((fanAt a order walk s id merge p).1.bare, (fanAt a order walk s id merge p).2.bare) := by
  have hlinks : outBySlot a.bare id = outBySlot a id := rfl
  have hshared : ∀ targets, common a.bare order s targets = common a order s targets := fun _ => rfl
  have hearliest : ∀ nodes, earliest a.bare nodes = earliest a nodes := fun _ => rfl
  simp only [fanAt, hlinks, hshared, hearliest, walkEach_bare hw, fanNotes_bare a id merge]
  generalize walkEach walk _ _ p = planned
  obtain ⟨blocks, q⟩ := planned
  rw [← Progress.bare_tell, behind_bare hw, Block.bare, Block.bareArms_eq, List.zip_map_right]

theorem loopAt_bare (s : Scope) (id : String) (config : FeedbackLoop) (p : Progress) :
    loopAt a.bare order walk' s id {} p.bare =
      ((loopAt a order walk s id config p).1.bare, (loopAt a order walk s id config p).2.bare) := by
  have hloops : a.bare.loops = a.loops := rfl
  have htargets : outByTarget a.bare id = outByTarget a id := rfl
  have hinside : ({ p.bare with outside := [] } : Progress) =
      Progress.bare { p with outside := [] } := rfl
  rw [loopAt, loopAt, hloops]
  rcases a.loops.get? id with _ | L
  · rfl
  · simp only [htargets, hinside, hw _ _ _]
    generalize walk _ L.bodyEntry _ = planned
    obtain ⟨body, q⟩ := planned
    have hexits : (q.outside.map fun node => PlanNote.loopExit node id).filter
        (fun n => !n.isRace) = q.outside.map fun node => PlanNote.loopExit node id := by
      refine List.filter_eq_self.mpr fun n hn => ?_
      obtain ⟨node, -, rfl⟩ := List.mem_map.mp hn
      rfl
    have hq := Progress.bare_tell { q with outside := p.outside }
      (q.outside.map fun node => PlanNote.loopExit node id)
    rw [hexits] at hq
    have hnext := @behind_bare a order walk walk' hw s
      (((outByTarget a id).map Link.target).filter (fun t => !L.body.contains t) ++ q.outside)
      { q with
        outside := p.outside
        notes := q.notes ++ q.outside.map fun node => PlanNote.loopExit node id }
    rw [hq] at hnext
    exact congrArg (fun r : Block × Progress => (Block.loop id body.bare 0 "" r.1, r.2)) hnext

theorem blockAt_bare (s : Scope) (id : String) (p : Progress) :
    blockAt a.bare order walk' s id p.bare =
      ((blockAt a order walk s id p).1.bare, (blockAt a order walk s id p).2.bare) := by
  have hloops : a.bare.loops = a.loops := rfl
  have htargets : outByTarget a.bare id = outByTarget a id := rfl
  have hplain : (Block.seq id (behind a.bare order walk' s ((outByTarget a id).map Link.target) p.bare).1,
      (behind a.bare order walk' s ((outByTarget a id).map Link.target) p.bare).2) =
      (Block.bare (.seq id (behind a order walk s ((outByTarget a id).map Link.target) p).1),
        (behind a order walk s ((outByTarget a id).map Link.target) p).2.bare) := by
    rw [behind_bare hw, Block.bare]
  have hconfig : (a.bare.node? id).map Node.config = (a.node? id).map fun n => n.kind.bare := by
    rw [Accepted.node?, Accepted.bare, Workflow.node?_bare, Option.map_map]
    rfl
  simp only [blockAt, hloops, htargets, hconfig]
  rcases a.node? id with _ | n
  · exact hplain
  · rw [Option.map_some, Option.map_some, Node.kind]
    cases n.config with
    | condition config => exact branchAt_bare hw s id p
    | parallel config => exact fanAt_bare hw s id config.merge p
    | feedbackLoop config =>
      simp only [Config.kind, Kind.bare]
      split
      · exact loopAt_bare hw s id config p
      · exact hplain
    | _ => exact hplain

end Walks

theorem loopAhead?_bare (a : Accepted) (s : Scope) (id : String) :
    loopAhead? a.bare s id = (loopAhead? a s id).map fun ahead => (ahead.1, {}) := by
  have hloops : a.bare.loops = a.loops := rfl
  have hconfig : ∀ v, (a.bare.node? v).map Node.config = (a.node? v).map fun n => n.kind.bare := by
    intro v
    rw [Accepted.node?, Accepted.bare, Workflow.node?_bare, Option.map_map]
    rfl
  simp only [loopAhead?, hloops, hconfig]
  rcases a.loops.entered? id with _ | L
  · rfl
  · simp only
    split
    · rfl
    · rcases a.node? L.head with _ | n
      · rfl
      · rw [Option.map_some, Option.map_some, Node.kind]
        cases n.config <;> rfl

/-- What is planned from a node on is the bare tree of what is planned for the workflow. -/
theorem blockFrom_bare (a : Accepted) (order : List String) (depth : Nat) :
    (blockFrom a order depth).Bares (blockFrom a.bare order depth) := by
  induction depth with
  | zero => exact fun s id p => rfl
  | succ depth ih =>
    intro s id p
    have hdue : isDue a.bare p.bare id = isDue a p id := rfl
    have hplanned : p.bare.planned = p.planned := rfl
    rw [blockFrom, blockFrom, hplanned, hdue, loopAhead?_bare]
    split
    · rfl
    · split
      · exact congrArg (Block.done, ·) (p.bare_leave id).symm
      · split
        · exact congrArg (Block.visited id, ·) (p.bare_note rfl).symm
        · split
          · exact congrArg (Block.done, ·) (p.bare_postpone id).symm
          · rcases loopAhead? a s id with _ | ⟨head, config⟩
            · exact blockAt_bare ih s id (p.mark id)
            · exact loopAt_bare ih s head config (p.mark head)

end Plan

/-- The plan of the bare workflow is the plan of the workflow without merges, bounds, stop
conditions and notes on races. -/
theorem Accepted.plan_bare (a : Accepted) : a.bare.plan.block = a.plan.block.bare ∧
    a.bare.plan.diagnostics = a.plan.diagnostics.filter fun d => d.code != "L004" := by
  have hfaults : ∀ fs : List PlanFault, (fs.map PlanFault.toDiagnostic).filter
      (fun d => d.code != "L004") = fs.map PlanFault.toDiagnostic := by
    intro fs
    refine List.filter_eq_self.mpr fun d hd => ?_
    obtain ⟨f, -, rfl⟩ := List.mem_map.mp hd
    cases f <;> rfl
  have hnotes : ∀ ns : List PlanNote, (ns.map PlanNote.toDiagnostic).filter
      (fun d => d.code != "L004") = (ns.filter fun n => !n.isRace).map PlanNote.toDiagnostic := by
    intro ns
    rw [List.filter_map]
    refine congrArg _ (List.filter_congr fun n _ => ?_)
    cases n <;> rfl
  have hgraph : a.bare.graph = a.graph := rfl
  have horder : a.bare.order = a.order := rfl
  have htrigger : a.bare.workflow.trigger? = a.workflow.trigger?.map Node.bare :=
    a.workflow.trigger?_bare
  rcases ht : a.workflow.trigger? with _ | t
  · simp only [plan, htrigger, ht, Option.map_none, Block.bare, List.filter_nil, and_self]
  · have hplan := Plan.blockFrom_bare a a.order (2 * a.graph.ids.length + 2) {} t.id {}
    have hstart : Plan.Progress.bare {} = {} := rfl
    rw [hstart] at hplan
    simp only [plan, htrigger, ht, Option.map_some, Node.bare_id, hgraph, horder, hplan,
      List.filter_append, hnotes, hfaults, Block.faults_bare, true_and]
    rfl

/-- Workflows with the same edges and with nodes of the same ids and kinds have the same errors, so
both are accepted or neither is.  If they are, their plans are the same but for the merges, bounds
and stop conditions in the tree and the warnings about races. -/
theorem check_reconfigured {w w' : Workflow} (hr : w.Reconfigured w') :
    (saidBy (check w')).filter Diagnostic.isError = (saidBy (check w)).filter Diagnostic.isError ∧
    ((∃ a', check w' = .ok a') ↔ ∃ a, check w = .ok a) ∧
    ∀ a a', check w = .ok a → check w' = .ok a' →
      a'.plan.block.bare = a.plan.block.bare ∧
      (a'.plan.diagnostics.filter fun d => d.code != "L004") =
        a.plan.diagnostics.filter fun d => d.code != "L004" := by
  have herrors : (saidBy (check w')).filter Diagnostic.isError =
      (saidBy (check w)).filter Diagnostic.isError := by
    rw [← errors_bare, hr.bare_eq, errors_bare]
  refine ⟨herrors, by rw [accepted_iff_errors, accepted_iff_errors, herrors], ?_⟩
  intro a a' ha ha'
  obtain ⟨hw, hgraph, hloops, -⟩ := check_ok ha
  obtain ⟨hw', hgraph', hloops', -⟩ := check_ok ha'
  have hbare : a'.bare = a.bare := by
    simp only [Accepted.bare, hw, hw', hgraph, hgraph', hloops, hloops', ← w.graph_bare,
      ← w'.graph_bare, ← Check.findLoops_bare w, ← Check.findLoops_bare w', hr.bare_eq]
  rw [← a.plan_bare.1, ← a.plan_bare.2, ← a'.plan_bare.1, ← a'.plan_bare.2, hbare]
  exact ⟨rfl, rfl⟩

/-- Two opinions are asked for at the same time, and summed up until the summary is good enough. -/
def opinionFlow (merge : Merge) (loop : FeedbackLoop) (prompt : String) : Workflow where
  nodes :=
    [ { id := "start", config := .trigger {} },
      { id := "improve", config := .feedbackLoop loop },
      { id := "split", config := .parallel { merge } },
      { id := "critic", config := .agent { prompt } },
      { id := "fan", config := .agent { prompt } },
      { id := "summary", config := .agent { prompt } } ]
  edges :=
    [ { id := "e1", source := "start", target := "improve" },
      { id := "e2", source := "improve", target := "split" },
      { id := "e3", source := "split", target := "critic", slot := some "contra" },
      { id := "e4", source := "split", target := "fan", slot := some "pro" },
      { id := "e5", source := "critic", target := "summary" },
      { id := "e6", source := "fan", target := "summary" },
      { id := "e7", source := "summary", target := "improve" } ]

/-- Without prompts, bound and stop condition the workflow draws five warnings and, because its
opinions race, one more for the plan; the tree keeps its shape. -/
theorem check_reconfigured_opinionFlow : ∃ a a',
    check (opinionFlow .all { maxIterations := 3, stopCondition := "good" } "Say it") = .ok a ∧
    check (opinionFlow .first {} "") = .ok a' ∧
    a.warnings = [] ∧ a'.warnings.map Diagnostic.code = ["N005", "N006", "N002", "N002", "N002"] ∧
    a.plan.diagnostics = [] ∧ a'.plan.diagnostics.map Diagnostic.code = ["L004"] ∧
    a.plan.block.owned = ["start", "improve", "split", "critic", "fan", "summary"] ∧
    a'.plan.block.bare = a.plan.block.bare ∧
    (a'.plan.diagnostics.filter fun d => d.code != "L004") = [] := by
  obtain ⟨a, ha, hwarnings, hplan, howned⟩ : ∃ a,
      check (opinionFlow .all { maxIterations := 3, stopCondition := "good" } "Say it") = .ok a ∧
      a.warnings = [] ∧ a.plan.diagnostics = [] ∧
      a.plan.block.owned = ["start", "improve", "split", "critic", "fan", "summary"] :=
    exists_check_ok (by decide +kernel)
  obtain ⟨a', ha', hwarnings', hplan'⟩ : ∃ a', check (opinionFlow .first {} "") = .ok a' ∧
      a'.warnings.map Diagnostic.code = ["N005", "N006", "N002", "N002", "N002"] ∧
      a'.plan.diagnostics.map Diagnostic.code = ["L004"] :=
    exists_check_ok (by decide +kernel)
  have hr : (opinionFlow .all { maxIterations := 3, stopCondition := "good" } "Say it").Reconfigured
      (opinionFlow .first {} "") := ⟨rfl, rfl⟩
  obtain ⟨hblock, hdiagnostics⟩ := (check_reconfigured hr).2.2 a a' ha ha'
  refine ⟨a, a', ha, ha', hwarnings, hwarnings', hplan, hplan', howned, hblock, ?_⟩
  rw [hdiagnostics, hplan]
  rfl

end Flowscript
