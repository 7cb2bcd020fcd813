/-
What acceptance says about a workflow.

`check_ok` takes acceptance apart: the workflow is well shaped and the loop analysis found no fault;
`exists_accepted_iff` says that nothing else is needed.  The other statements read the shape as facts
about the graph:

* `exists_trigger`, `no_link_to_trigger`, `reach_of_trigger` — one trigger, which nothing leads
  to and which leads everywhere;
* `source_ne_target` — no link leads from a vertex to itself;
* `condition_outgoing` — a condition has one link for each outcome and no other;
* `unguarded_rank` — without the feedback loops the links go up in some numbering.
-/
import Flowscript.Proofs.Outcome
import Flowscript.Proofs.Shape

open Relation

namespace Flowscript

variable {w : Workflow} {a : Accepted}

open Check

/-! ### Nothing was found wrong -/

theorem nodeDiagnostics_calm {n : Node} {d : Diagnostic} (hd : d ∈ nodeDiagnostics n) :
    d.isError = false := by
  obtain ⟨note, -, rfl⟩ := List.mem_map.mp hd
  rfl

theorem hasErrors_append (ds es : List Diagnostic) :
    hasErrors (ds ++ es) = (hasErrors ds || hasErrors es) := List.any_append

theorem hasErrors_check : hasErrors (graphDiagnostics w (Graph.ofWorkflow w) ++
    (findLoops w (Graph.ofWorkflow w)).2.map LoopFault.toDiagnostic) = false ↔
      w.WellShaped ∧ (findLoops w (Graph.ofWorkflow w)).2 = [] := by
  have hnodes : hasErrors (w.nodes.flatMap nodeDiagnostics) = false := by
    refine List.any_eq_false.mpr fun d hd => ?_
    obtain ⟨n, -, hd⟩ := List.mem_flatMap.mp hd
    simp [nodeDiagnostics_calm hd]
  have hloops : hasErrors ((findLoops w (Graph.ofWorkflow w)).2.map LoopFault.toDiagnostic) =
      false ↔ (findLoops w (Graph.ofWorkflow w)).2 = [] := by
    rw [hasErrors, List.any_eq_false, List.eq_nil_iff_forall_not_mem]
    simp [Diagnostic.isError, LoopFault.toDiagnostic]
  rw [graphDiagnostics, hasErrors_append, hasErrors_append, hnodes, Bool.or_false,
    Bool.or_eq_false_iff, hasErrors_structural, hloops]

theorem check_ok (h : check w = .ok a) :
    a.workflow = w ∧ a.graph = Graph.ofWorkflow w ∧
      a.loops = (findLoops w (Graph.ofWorkflow w)).1 ∧
      (findLoops w (Graph.ofWorkflow w)).2 = [] ∧ w.WellShaped := by
  simp only [check] at h
  split at h
  · exact absurd h (by simp)
  · rename_i herr
    obtain rfl := Except.ok.inj h
    obtain ⟨hshape, hfaults⟩ := hasErrors_check.mp (Bool.eq_false_iff.mpr herr)
    exact ⟨rfl, rfl, rfl, hfaults, hshape⟩

/-- A workflow is accepted exactly if it is well shaped and its loops are in order. -/
theorem exists_accepted_iff :
    (∃ a, check w = .ok a) ↔ w.WellShaped ∧ (findLoops w (Graph.ofWorkflow w)).2 = [] := by
  constructor
  · rintro ⟨a, h⟩
    obtain ⟨-, -, -, hfaults, hshape⟩ := check_ok h
    exact ⟨hshape, hfaults⟩
  · intro h
    simp only [check, hasErrors_check.mpr h]
    exact ⟨_, rfl⟩

/-- What can be computed from a workflow that is accepted. -/
theorem exists_check_ok {P : Accepted → Prop} [DecidablePred P]
    (h : ((check w).toOption.any fun a => decide (P a)) = true) : ∃ a, check w = .ok a ∧ P a :=
  exists_ok h

theorem wellShaped_of_check (h : check w = .ok a) : w.WellShaped := (check_ok h).2.2.2.2

/-! ### The shape as facts about the graph -/

theorem ids_eq (h : check w = .ok a) : a.graph.ids = w.nodes.map Node.id := by
  rw [(check_ok h).2.1]
  exact distinct_eq_self (wellShaped_of_check h).nodup_nodes

theorem trigger_mem_ids {t : Node} (ht : w.trigger? = some t) :
    t.id ∈ (Graph.ofWorkflow w).ids :=
  Graph.mem_ids.mpr ⟨t, List.mem_of_find?_eq_some ht, rfl⟩

namespace Workflow.WellShaped

variable (hw : w.WellShaped)
include hw

/-- There is one trigger, and no other node is one. -/
theorem exists_trigger :
    ∃ t, w.trigger? = some t ∧ t ∈ w.nodes ∧ t.isTrigger ∧
      ∀ n ∈ w.nodes, n.isTrigger → n = t := by
  obtain ⟨t, ht⟩ := hw.one_trigger
  have hmem : t ∈ w.nodes.filter Node.isTrigger := by simp [ht]
  obtain ⟨htm, htt⟩ := List.mem_filter.mp hmem
  refine ⟨t, ?_, htm, htt, fun n hn hnt => ?_⟩
  · rw [Workflow.trigger?, ← List.head?_filter, ht]
    rfl
  · have : n ∈ w.nodes.filter Node.isTrigger := List.mem_filter.mpr ⟨hn, hnt⟩
    rw [ht] at this
    exact List.mem_singleton.mp this

theorem no_link_to_trigger {t : Node} (ht : w.trigger? = some t) {u : String} :
    ¬(Graph.ofWorkflow w).Next u t.id := by
  rintro ⟨l, hl, -, htarget⟩
  have htt : t.isTrigger := by simpa using List.find?_some ht
  exact hw.trigger_free t (List.mem_of_find?_eq_some ht) htt l.edge (Graph.mem_links hl).1 htarget

theorem reach_of_trigger {t : Node} (ht : w.trigger? = some t) {id : String}
    (hid : id ∈ (Graph.ofWorkflow w).ids) : ReflTransGen (Graph.ofWorkflow w).Next t.id id := by
  obtain ⟨n, hn, rfl⟩ := Graph.mem_ids.mp hid
  have htt : t.isTrigger := by simpa using List.find?_some ht
  have hway := hw.reachable t (List.mem_of_find?_eq_some ht) htt n hn
  exact ReflTransGen.mono (fun _ _ hxy => (Graph.next_iff hw.endpoints).mpr hxy) _ _ hway

theorem source_ne_target {l : Link} (hl : l ∈ (Graph.ofWorkflow w).links) :
    l.source ≠ l.target :=
  hw.no_self_loop l.edge (Graph.mem_links hl).1

/-- A condition has one link for each outcome, and no other link leaves it. -/
theorem condition_outgoing {n : Node} (hn : n ∈ w.nodes) (hkind : n.kind = .condition) :
    ∃ t f, (Graph.ofWorkflow w).outgoing n.id = [t, f] ∧
      (t.edge.branch = some true ∧ f.edge.branch = some false ∨
        t.edge.branch = some false ∧ f.edge.branch = some true) := by
  have hboth := both_branches_iff.mpr (hw.condition n hn hkind)
  rw [← Graph.edges_of_outgoing hw.endpoints, List.length_map] at hboth
  obtain ⟨hlength, htrue, hfalse⟩ := hboth
  obtain ⟨t, f, htf⟩ := List.length_eq_two.mp hlength
  refine ⟨t, f, htf, ?_⟩
  rw [htf] at htrue hfalse
  simp only [List.map_cons, List.map_nil, List.mem_cons, List.not_mem_nil, or_false] at htrue hfalse
  rcases htrue with ht | hf
  · exact .inl ⟨ht.symm, (hfalse.resolve_left fun h => by simp [← h] at ht).symm⟩
  · exact .inr ⟨(hfalse.resolve_right fun h => by simp [← h] at hf).symm, hf.symm⟩

/-- Without the feedback loops the links go up in some numbering of the vertices. -/
theorem unguarded_rank :
    ∃ rank : String → Nat, ∀ u v, (Graph.ofWorkflow w).Next u v → isGuard w u = false →
      isGuard w v = false → rank u < rank v := by
  refine rank_of_guardedCycles
    ((guardedCycles_eq_nil hw.endpoints hw.no_self_loop hw.nodup_nodes).mpr hw.guarded) ?_
  rintro u ⟨l, hl, hu, hv⟩
  exact hw.source_ne_target hl (hu.trans hv.symm)

end Workflow.WellShaped

theorem trigger_unique (h : check w = .ok a) :
    ∃ t, w.trigger? = some t ∧ t ∈ w.nodes ∧ t.isTrigger ∧
      ∀ n ∈ w.nodes, n.isTrigger → n = t :=
  (wellShaped_of_check h).exists_trigger

end Flowscript
