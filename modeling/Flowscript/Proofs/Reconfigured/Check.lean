/-
What the rules read of a node.

`Workflow.bare` is a workflow with nothing left of its nodes but their ids and kinds.  No rule on
the shape and no step of the loop analysis can tell it from the workflow itself, and the rules on
configurations only warn:

* `structuralFaults_bare`, `findLoops_bare` — the same faults and the same loops;
* `errors_of_check` — the errors of a check come from these two alone;
* `Workflow.Reconfigured.bare_eq` — workflows that differ in their configurations have the same
  bare workflow, so the check finds the same errors in both.
-/
import Flowscript.Proofs.Acceptance

namespace Flowscript

/-- A kind with the defaults of its configuration. -/
def Kind.bare : Kind → Config
  | .trigger => .trigger {}
  | .agent => .agent {}
  | .toolCall => .toolCall {}
  | .condition => .condition {}
  | .parallel => .parallel {}
  | .feedbackLoop => .feedbackLoop {}
  | .retrieval => .retrieval {}
  | .team => .team {}

/-- A node of the same id and kind, and nothing else. -/
def Node.bare (n : Node) : Node := { id := n.id, config := n.kind.bare }

/-- The workflow with nothing but the ids and kinds of its nodes. -/
def Workflow.bare (w : Workflow) : Workflow := { w with nodes := w.nodes.map Node.bare }

/-- The same edges, and nodes of the same ids and kinds in the same places. -/
structure Workflow.Reconfigured (w w' : Workflow) : Prop where
  nodes : w'.nodes.map (fun n => (n.id, n.kind)) = w.nodes.map fun n => (n.id, n.kind)
  edges : w'.edges = w.edges

namespace Node

@[simp] theorem bare_id (n : Node) : n.bare.id = n.id := rfl

@[simp] theorem bare_kind (n : Node) : n.bare.kind = n.kind := by
  show n.kind.bare.kind = n.kind
  cases n.kind <;> rfl

@[simp] theorem bare_isTrigger (n : Node) : n.bare.isTrigger = n.isTrigger := by
  rw [isTrigger, bare_kind, isTrigger]

@[simp] theorem bare_isFeedbackLoop (n : Node) : n.bare.isFeedbackLoop = n.isFeedbackLoop := by
  rw [isFeedbackLoop, bare_kind, isFeedbackLoop]

end Node

namespace Workflow

variable {w w' : Workflow}

theorem Reconfigured.bare_eq (h : w.Reconfigured w') : w'.bare = w.bare := by
  have hbare : ∀ v : Workflow, v.bare = ⟨(v.nodes.map fun n => (n.id, n.kind)).map fun p =>
      ({ id := p.1, config := p.2.bare } : Node), v.edges⟩ := by
    intro v
    rw [List.map_map]
    rfl
  rw [hbare, hbare, h.nodes, h.edges]

theorem node?_bare (w : Workflow) (id : String) : w.bare.node? id = (w.node? id).map Node.bare := by
  rw [node?, node?, bare, List.find?_map]
  rfl

theorem trigger?_bare (w : Workflow) : w.bare.trigger? = w.trigger?.map Node.bare := by
  rw [trigger?, trigger?, bare, List.find?_map]
  simp only [Function.comp_def, Node.bare_isTrigger]

theorem graph_bare (w : Workflow) : Graph.ofWorkflow w.bare = Graph.ofWorkflow w := by
  have hids : w.bare.nodes.map Node.id = w.nodes.map Node.id := by
    rw [bare, List.map_map]
    rfl
  rw [Graph.ofWorkflow, Graph.ofWorkflow, hids]
  rfl

end Workflow

/-! ### The rules -/

namespace Check

theorem isGuard_bare (w : Workflow) (id : String) : isGuard w.bare id = isGuard w id := by
  rw [isGuard, isGuard, w.node?_bare, Option.any_map]
  simp only [Node.bare_isFeedbackLoop]

theorem kindOf?_bare (w : Workflow) (id : String) : kindOf? w.bare id = kindOf? w id := by
  simp only [kindOf?, Workflow.bare, ← List.map_reverse, List.find?_map, Option.map_map,
    Function.comp_def, Node.bare_id, Node.bare_kind]

theorem structuralFaults_bare (w : Workflow) (g : Graph) :
    structuralFaults w.bare g = structuralFaults w g := by
  have hguard : isGuard w.bare = isGuard w := funext (isGuard_bare w)
  have hnodes : w.bare.nodes = w.nodes.map Node.bare := rfl
  have hedges : w.bare.edges = w.edges := rfl
  simp only [structuralFaults, oneTrigger, knownEndpoints, distinctEdges, distinctNodes,
    guardedCycles, reachableNodes, freeTriggers, conditionOutcomes, parallelSlots, selfLoops,
    strayMarks, hguard, kindOf?_bare, hnodes, hedges, List.countP_map, List.map_map,
    List.filter_map, List.flatMap_map, Function.comp_def, Node.bare_id, Node.bare_kind,
    Node.bare_isTrigger]
  rfl

theorem findLoops_bare (w : Workflow) (g : Graph) : findLoops w.bare g = findLoops w g := by
  have hguard : isGuard w.bare = isGuard w := funext (isGuard_bare w)
  have hadd : ∀ trigger, addCycle w.bare g trigger = addCycle w g trigger := by
    intro trigger
    funext found c
    simp only [addCycle, headOf?, hguard]
  have hnodes : w.bare.nodes = w.nodes.map Node.bare := rfl
  rcases ht : w.trigger? with _ | t
  · simp only [findLoops, w.trigger?_bare, ht, Option.map_none]
  · simp only [findLoops, w.trigger?_bare, ht, Option.map_some, hadd, hnodes, List.filter_map,
      List.map_map, Function.comp_def, Node.bare_id, Node.bare_isFeedbackLoop]

end Check

/-! ### The errors of a check -/

/-- All that a check has to say, whatever its verdict. -/
def saidBy : Except (List Diagnostic) Accepted → List Diagnostic
  | .error ds => ds
  | .ok a => a.warnings

theorem saidBy_check (w : Workflow) : saidBy (check w) = graphDiagnostics w (Graph.ofWorkflow w) ++
    (Check.findLoops w (Graph.ofWorkflow w)).2.map LoopFault.toDiagnostic := by
  simp only [check]
  split <;> rfl

/-- The errors of a check are those of the shape and the faults of the loops. -/
theorem errors_of_check (w : Workflow) : (saidBy (check w)).filter Diagnostic.isError =
    ((Check.structuralFaults w (Graph.ofWorkflow w)).map ShapeFault.toDiagnostic).filter
        Diagnostic.isError ++
      (Check.findLoops w (Graph.ofWorkflow w)).2.map LoopFault.toDiagnostic := by
  have hconfig : (w.nodes.flatMap Check.nodeDiagnostics).filter Diagnostic.isError = [] := by
    refine List.filter_eq_nil_iff.mpr fun d hd => ?_
    obtain ⟨n, -, hd⟩ := List.mem_flatMap.mp hd
    simp [nodeDiagnostics_calm hd]
  have hloops : ((Check.findLoops w (Graph.ofWorkflow w)).2.map LoopFault.toDiagnostic).filter
      Diagnostic.isError =
        (Check.findLoops w (Graph.ofWorkflow w)).2.map LoopFault.toDiagnostic := by
    refine List.filter_eq_self.mpr fun d hd => ?_
    obtain ⟨f, -, rfl⟩ := List.mem_map.mp hd
    rfl
  rw [saidBy_check, graphDiagnostics, List.filter_append, List.filter_append, hconfig,
    List.append_nil, hloops]

theorem errors_bare (w : Workflow) : (saidBy (check w.bare)).filter Diagnostic.isError =
    (saidBy (check w)).filter Diagnostic.isError := by
  rw [errors_of_check, errors_of_check, w.graph_bare, Check.structuralFaults_bare,
    Check.findLoops_bare]

theorem accepted_iff_errors (w : Workflow) :
    (∃ a, check w = .ok a) ↔ (saidBy (check w)).filter Diagnostic.isError = [] := by
  rw [saidBy_check, List.filter_eq_nil_iff, exists_accepted_iff, ← hasErrors_check, hasErrors,
    List.any_eq_false]

end Flowscript
