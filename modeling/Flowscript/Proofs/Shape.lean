/-
The shape of a workflow.

`Workflow.WellShaped` says what the nodes and edges of a workflow have to look like, without any
graph or search.  Each rule on the shape is read as one condition of it (`oneTrigger_eq_nil` to
`guardedCycles_eq_nil`), and together:

* `structural_ok_iff` — the rules find no error exactly if each of their lists is empty;
* `closes_of_unguardedCycle` — an edge that is said to close a cycle without a feedback loop does;
* `structural_iff_wellShaped` — the rules find no error exactly in well-shaped workflows.

Where ids are repeated, a vertex of the graph stands for the first node of its id.
-/
import Flowscript.Check
import Flowscript.Proofs.Graph

open Relation

namespace Flowscript

/-! ### Graphs of workflows -/

namespace Graph

variable {w : Workflow}

@[simp] theorem mem_ids {id : String} :
    id ∈ (ofWorkflow w).ids ↔ ∃ n ∈ w.nodes, n.id = id := by
  simp [ofWorkflow]

theorem nodup_ids (w : Workflow) : (ofWorkflow w).ids.Nodup := nodup_distinct _

theorem mem_links {l : Link} (h : l ∈ (ofWorkflow w).links) :
    l.edge ∈ w.edges ∧ l.source ∈ (ofWorkflow w).ids ∧ l.target ∈ (ofWorkflow w).ids := by
  simp only [ofWorkflow, List.mem_map] at h
  obtain ⟨⟨e, i⟩, hei, rfl⟩ := h
  have he := List.mem_filter.mp (List.fst_mem_of_mem_zipIdx hei)
  simp only [Bool.and_eq_true, List.contains_iff_mem] at he
  exact ⟨he.1, he.2⟩

/-- Links have numbers of their own. -/
theorem link_eq_of_index {l m : Link} (hl : l ∈ (ofWorkflow w).links)
    (hm : m ∈ (ofWorkflow w).links) (h : l.index = m.index) : l = m := by
  simp only [ofWorkflow, List.mem_map] at hl hm
  obtain ⟨⟨e, i⟩, hei, rfl⟩ := hl
  obtain ⟨⟨f, j⟩, hfj, rfl⟩ := hm
  obtain rfl : i = j := h
  rw [List.mk_mem_zipIdx_iff_getElem?] at hei hfj
  rw [hei] at hfj
  rw [Option.some.inj hfj]

theorem next_mem {u v : String} (h : (ofWorkflow w).Next u v) :
    u ∈ (ofWorkflow w).ids ∧ v ∈ (ofWorkflow w).ids := by
  obtain ⟨l, hl, rfl, rfl⟩ := h
  exact (mem_links hl).2

/-- The links stand for the edges between known nodes, in their order. -/
theorem map_edge_links (w : Workflow) : (ofWorkflow w).links.map Link.edge =
    w.edges.filter fun e =>
      (ofWorkflow w).ids.contains e.source && (ofWorkflow w).ids.contains e.target := by
  rw [ofWorkflow, List.map_map]
  exact List.zipIdx_map_fst 0 _

end Graph

/-! ### Well-shaped workflows -/

namespace Workflow

/-- An edge leads from `u` to `v`. -/
def Leads (w : Workflow) (u v : String) : Prop := ∃ e ∈ w.edges, e.source = u ∧ e.target = v

/-- The edges that leave a node. -/
def edgesFrom (w : Workflow) (id : String) : List Edge := w.edges.filter fun e => e.source == id

/-- An edge closes a directed cycle: `c` lists the nodes of the cycle, each once, from the target of
the edge to its source. -/
structure Closes (w : Workflow) (e : Edge) (c : List String) : Prop where
  edge : e ∈ w.edges
  chain : c.IsChain w.Leads
  nodup : c.Nodup
  first : c.head? = some e.target
  last : c.getLast? = some e.source

/-- The rules on the shape of a workflow, by its nodes and edges and not by any search: one trigger,
which no edge enters and from which edges lead to every node; distinct ids; edges between two known
nodes; conditions with one edge for each outcome, and parallel nodes with at least two edges, in slots
of their own; and a feedback loop on every cycle. -/
structure WellShaped (w : Workflow) : Prop where
  one_trigger : ∃ t, w.nodes.filter Node.isTrigger = [t]
  nodup_nodes : (w.nodes.map Node.id).Nodup
  nodup_edges : (w.edges.map Edge.id).Nodup
  endpoints : ∀ e ∈ w.edges, e.source ∈ w.nodes.map Node.id ∧ e.target ∈ w.nodes.map Node.id
  no_self_loop : ∀ e ∈ w.edges, e.source ≠ e.target
  trigger_free : ∀ t ∈ w.nodes, t.isTrigger → ∀ e ∈ w.edges, e.target ≠ t.id
  reachable : ∀ t ∈ w.nodes, t.isTrigger → ∀ n ∈ w.nodes, ReflTransGen w.Leads t.id n.id
  condition : ∀ n ∈ w.nodes, n.kind = .condition → ∃ e f, (w.edgesFrom n.id).Perm [e, f] ∧
    e.branch = some true ∧ f.branch = some false
  parallel : ∀ n ∈ w.nodes, n.kind = .parallel → 2 ≤ (w.edgesFrom n.id).length ∧
    (∀ e ∈ w.edgesFrom n.id, ∃ s, e.slot = some s ∧ Text.trim s ≠ "") ∧
    ((w.edgesFrom n.id).map fun e => e.slot.map Text.trim).Nodup
  guarded : ∀ e c, w.Closes e c → ∃ n ∈ w.nodes, n.isFeedbackLoop ∧ n.id ∈ c

theorem node?_eq_some {w : Workflow} {n : Node} {id : String} (h : w.node? id = some n) :
    n ∈ w.nodes ∧ n.id = id :=
  ⟨List.mem_of_find?_eq_some h, by simpa using List.find?_some h⟩

theorem exists_node {w : Workflow} {id : String} (h : id ∈ (Graph.ofWorkflow w).ids) :
    ∃ n, w.node? id = some n := by
  obtain ⟨n, hn, hid⟩ := Graph.mem_ids.mp h
  exact Option.isSome_iff_exists.mp (List.find?_isSome.mpr ⟨n, hn, by simp [hid]⟩)

theorem node?_of_mem {w : Workflow} (hnodup : (w.nodes.map Node.id).Nodup) {n : Node}
    (hn : n ∈ w.nodes) : w.node? n.id = some n := by
  obtain ⟨m, hm⟩ := exists_node (Graph.mem_ids.mpr ⟨n, hn, rfl⟩)
  obtain ⟨hmem, hid⟩ := node?_eq_some hm
  rw [hm, List.inj_on_of_nodup_map hnodup hmem hn hid]

/-- An edge closes a cycle of nodes with a property exactly if its target leads to its source by
such nodes. -/
theorem exists_closes_iff {w : Workflow} {e : Edge} {P : String → Prop} :
    (∃ c, w.Closes e c ∧ ∀ v ∈ c, P v) ↔
      e ∈ w.edges ∧ P e.target ∧ ReflTransGen (fun u v => w.Leads u v ∧ P v) e.target e.source := by
  constructor
  · rintro ⟨c, hc, hP⟩
    have hchain : c.IsChain fun u v => w.Leads u v ∧ P v :=
      hc.chain.imp_of_mem_imp fun u v _ hv huv => ⟨huv, hP v hv⟩
    exact ⟨hc.edge, hP _ (List.mem_of_head? hc.first), reach_of_chain hchain hc.first hc.last⟩
  · rintro ⟨hedge, htarget, hway⟩
    obtain ⟨c, hchain, hnodup, hfirst, hlast, hP⟩ := exists_chain htarget hway
    exact ⟨c, ⟨hedge, hchain, hnodup, hfirst, hlast⟩, hP⟩

end Workflow

namespace Graph

variable {w : Workflow}

theorem leads_of_next {u v : String} (h : (ofWorkflow w).Next u v) : w.Leads u v := by
  obtain ⟨l, hl, hu, hv⟩ := h
  exact ⟨l.edge, (mem_links hl).1, hu, hv⟩

section Known

variable (hknown : ∀ e ∈ w.edges, e.source ∈ w.nodes.map Node.id ∧ e.target ∈ w.nodes.map Node.id)
include hknown

/-- Where all endpoints are known, every edge is part of the graph. -/
theorem edges_of_links : (ofWorkflow w).links.map Link.edge = w.edges := by
  rw [map_edge_links, List.filter_eq_self]
  intro e he
  simpa using hknown e he

theorem next_iff {u v : String} : (ofWorkflow w).Next u v ↔ w.Leads u v := by
  refine ⟨leads_of_next, ?_⟩
  rintro ⟨e, he, hu, hv⟩
  rw [← edges_of_links hknown] at he
  obtain ⟨l, hl, rfl⟩ := List.mem_map.mp he
  exact ⟨l, hl, hu, hv⟩

theorem edges_of_outgoing (id : String) :
    ((ofWorkflow w).outgoing id).map Link.edge = w.edgesFrom id := by
  rw [Workflow.edgesFrom, ← edges_of_links hknown, List.filter_map]
  rfl

theorem length_edgesFrom (id : String) :
    ((ofWorkflow w).outgoing id).length = (w.edgesFrom id).length := by
  rw [← edges_of_outgoing hknown, List.length_map]

end Known

end Graph

/-! ### The rules, one by one -/

namespace Check

variable {w : Workflow}

theorem oneTrigger_eq_nil : oneTrigger w = [] ↔ ∃ t, w.nodes.filter Node.isTrigger = [t] := by
  rw [← List.length_eq_one_iff, ← List.countP_eq_length_filter, oneTrigger]
  by_cases h : w.nodes.countP Node.isTrigger = 1 <;> simp [h]

theorem knownEndpoints_eq_nil : knownEndpoints w (Graph.ofWorkflow w) = [] ↔
    ∀ e ∈ w.edges, e.source ∈ w.nodes.map Node.id ∧ e.target ∈ w.nodes.map Node.id := by
  rw [knownEndpoints, List.flatMap_eq_nil_iff]
  refine forall₂_congr fun e _ => ?_
  simp [Graph.contains]

theorem distinctEdges_eq_nil : distinctEdges w = [] ↔ (w.edges.map Edge.id).Nodup := by
  simp [distinctEdges, repetitions_eq_nil]

theorem distinctNodes_eq_nil : distinctNodes w = [] ↔ (w.nodes.map Node.id).Nodup := by
  simp [distinctNodes, repetitions_eq_nil]

theorem selfLoops_eq_nil : selfLoops w = [] ↔ ∀ e ∈ w.edges, e.source ≠ e.target := by
  simp [selfLoops]

theorem slotOf_eq_some {e : Edge} {s : String} :
    slotOf e = some s ↔ e.slot.map Text.trim = some s ∧ s ≠ "" := by
  simp [slotOf, Option.filter_eq_some_iff]

/-- The slots of a parallel node are in order if each is there, none is repeated and none was seen
before. -/
theorem slotFaults_eq_nil {id : String} {seen : List String} {es : List Edge} :
    slotFaults id seen es = [] ↔ (∀ e ∈ es, ∃ s, e.slot = some s ∧ Text.trim s ≠ "") ∧
      (es.map fun e => e.slot.map Text.trim).Nodup ∧
      ∀ e ∈ es, ∀ s ∈ seen, e.slot.map Text.trim ≠ some s := by
  induction es generalizing seen with
  | nil => simp [slotFaults]
  | cons e es ih =>
    rw [slotFaults]
    cases hslot : slotOf e with
    | none =>
      have hmissing : ¬∃ s, e.slot = some s ∧ Text.trim s ≠ "" := by
        rintro ⟨s, hs, hne⟩
        have : slotOf e = some (Text.trim s) := slotOf_eq_some.mpr ⟨by rw [hs]; rfl, hne⟩
        simp [hslot] at this
      simp only [List.mem_cons, forall_eq_or_imp, hmissing, false_and, reduceCtorEq]
    | some slot =>
      obtain ⟨htrim, hne⟩ := slotOf_eq_some.mp hslot
      have hhere : ∃ s, e.slot = some s ∧ Text.trim s ≠ "" := by
        obtain ⟨s, hs, rfl⟩ := Option.map_eq_some_iff.mp htrim
        exact ⟨s, hs, hne⟩
      by_cases hseen : slot ∈ seen
      · simp only [List.contains_iff_mem.mpr hseen, if_true, reduceCtorEq, false_iff]
        rintro ⟨-, -, hnew⟩
        exact hnew e List.mem_cons_self slot hseen htrim
      · have hcontains : seen.contains slot = false := by simpa using hseen
        simp only [hcontains, Bool.false_eq_true, if_false, ih, List.map_cons, List.nodup_cons,
          List.forall_mem_cons, htrim, hhere, true_and]
        constructor
        · rintro ⟨hall, hnodup, hnew⟩
          refine ⟨hall, ⟨fun hmem => ?_, hnodup⟩, ?_, fun e he => (hnew e he).2⟩
          · obtain ⟨d, hd, heq⟩ := List.mem_map.mp hmem
            exact (hnew d hd).1 heq
          · rintro s hs ⟨rfl⟩
            exact hseen hs
        · rintro ⟨hall, ⟨hfresh, hnodup⟩, -, hrest⟩
          refine ⟨hall, hnodup, fun d hd => ⟨fun heq => hfresh ?_, hrest d hd⟩⟩
          exact List.mem_map.mpr ⟨d, hd, heq⟩

/-- Of two edges with both outcomes one is for `true` and the other for `false`. -/
theorem both_branches_iff {es : List Edge} :
    es.length = 2 ∧ some true ∈ es.map Edge.branch ∧ some false ∈ es.map Edge.branch ↔
      ∃ e f, es.Perm [e, f] ∧ e.branch = some true ∧ f.branch = some false := by
  constructor
  · rintro ⟨hlength, htrue, hfalse⟩
    obtain ⟨x, y, rfl⟩ := List.length_eq_two.mp hlength
    simp only [List.map_cons, List.map_nil, List.mem_cons, List.not_mem_nil, or_false]
      at htrue hfalse
    rcases htrue with hx | hy
    · refine ⟨x, y, .refl _, hx.symm, ?_⟩
      exact (hfalse.resolve_left fun h => by simp [← h] at hx).symm
    · refine ⟨y, x, .swap y x [], hy.symm, ?_⟩
      exact (hfalse.resolve_right fun h => by simp [← h] at hy).symm
  · rintro ⟨e, f, hperm, he, hf⟩
    refine ⟨hperm.length_eq, ?_, ?_⟩
    · exact List.mem_map.mpr ⟨e, hperm.mem_iff.mpr (by simp), he⟩
    · exact List.mem_map.mpr ⟨f, hperm.mem_iff.mpr (by simp), hf⟩

section Known

variable (hknown : ∀ e ∈ w.edges, e.source ∈ w.nodes.map Node.id ∧ e.target ∈ w.nodes.map Node.id)
include hknown

theorem freeTriggers_eq_nil : freeTriggers w (Graph.ofWorkflow w) = [] ↔
    ∀ t ∈ w.nodes, t.isTrigger → ∀ e ∈ w.edges, e.target ≠ t.id := by
  rw [freeTriggers, List.map_eq_nil_iff, List.filter_eq_nil_iff]
  refine forall₂_congr fun t _ => ?_
  have hincoming : (Graph.ofWorkflow w).incoming t.id = [] ↔ ∀ e ∈ w.edges, e.target ≠ t.id := by
    rw [← Graph.edges_of_links hknown, Graph.incoming, List.filter_eq_nil_iff]
    simp [Link.target]
  simp [hincoming]

theorem reachableNodes_eq_nil {t : Node} (ht : w.nodes.filter Node.isTrigger = [t]) :
    reachableNodes w (Graph.ofWorkflow w) = [] ↔
      ∀ n ∈ w.nodes, ReflTransGen w.Leads t.id n.id := by
  have hnext : (Graph.ofWorkflow w).Next = w.Leads := by
    funext u v
    exact propext (Graph.next_iff hknown)
  have hfound : ∀ id, id ∈ (Graph.ofWorkflow w).reach (Graph.ofWorkflow w).nextNewest [t.id] ↔
      ReflTransGen w.Leads t.id id := by
    intro id
    rw [Graph.mem_reach_nextNewest, hnext]
    simp
  simp [reachableNodes, ht, hfound]

theorem conditionOutcomes_eq_nil : conditionOutcomes w (Graph.ofWorkflow w) = [] ↔
    ∀ n ∈ w.nodes, n.kind = .condition → ∃ e f, (w.edgesFrom n.id).Perm [e, f] ∧
      e.branch = some true ∧ f.branch = some false := by
  rw [conditionOutcomes, List.flatMap_eq_nil_iff]
  simp only [List.mem_filter, beq_iff_eq, and_imp]
  refine forall₃_congr fun n _ _ => ?_
  have hlabels : ((Graph.ofWorkflow w).outgoing n.id).map (fun l => l.edge.branch) =
      (w.edgesFrom n.id).map Edge.branch := by
    rw [← Graph.edges_of_outgoing hknown, List.map_map]
    rfl
  rw [← both_branches_iff, Graph.length_edgesFrom hknown, hlabels]
  by_cases htwo : (w.edgesFrom n.id).length = 2
  · simp [htwo, -List.mem_map]
  · simp [htwo]

theorem parallelSlots_eq_nil : parallelSlots w (Graph.ofWorkflow w) = [] ↔
    ∀ n ∈ w.nodes, n.kind = .parallel → 2 ≤ (w.edgesFrom n.id).length ∧
      (∀ e ∈ w.edgesFrom n.id, ∃ s, e.slot = some s ∧ Text.trim s ≠ "") ∧
      ((w.edgesFrom n.id).map fun e => e.slot.map Text.trim).Nodup := by
  rw [parallelSlots, List.flatMap_eq_nil_iff]
  simp only [List.mem_filter, beq_iff_eq, and_imp]
  refine forall₃_congr fun n _ _ => ?_
  have hfew : ∀ f : ShapeFault, (if (w.edgesFrom n.id).length < 2 then [f] else []) = [] ↔
      2 ≤ (w.edgesFrom n.id).length := by
    intro f
    by_cases h : (w.edgesFrom n.id).length < 2
    · rw [if_pos h]
      exact ⟨fun hf => absurd hf (List.cons_ne_nil _ _), fun hle => absurd h (by omega)⟩
    · rw [if_neg h]
      exact ⟨fun _ => by omega, fun _ => rfl⟩
  rw [List.append_eq_nil_iff, Graph.edges_of_outgoing hknown, slotFaults_eq_nil,
    Graph.length_edgesFrom hknown, hfew]
  simp only [List.not_mem_nil, IsEmpty.forall_iff, implies_true, and_true]

end Known

/-! ### Cycles without a feedback loop -/

/-- The search of the rule on cycles: all nodes but the feedback loops, and the links between
them. -/
def unguardedTrace (w : Workflow) : Trace String :=
  (Graph.ofWorkflow w).trace
    (fun id => ((Graph.ofWorkflow w).nextNewest id).filter fun id => !isGuard w id)
    ((Graph.ofWorkflow w).ids.filter fun id => !isGuard w id)

/-- A link of that search. -/
def UnguardedNext (w : Workflow) (u v : String) : Prop :=
  (Graph.ofWorkflow w).Next u v ∧ isGuard w v = false

theorem mem_unguarded {u v : String} :
    v ∈ ((Graph.ofWorkflow w).nextNewest u).filter (fun id => !isGuard w id) ↔
      UnguardedNext w u v := by
  rw [List.mem_filter, Graph.mem_nextNewest, UnguardedNext, Bool.not_eq_true']

theorem unguardedTrace_sorted (w : Workflow) :
    (unguardedTrace w).Sorted
        (fun id => ((Graph.ofWorkflow w).nextNewest id).filter fun id => !isGuard w id)
        (fun _ _ => False) ∧
      ∀ v ∈ (Graph.ofWorkflow w).ids, isGuard w v = false → v ∈ (unguardedTrace w).finished := by
  have hids : ∀ u, ∀ v ∈ ((Graph.ofWorkflow w).nextNewest u).filter (fun id => !isGuard w id),
      v ∈ (Graph.ofWorkflow w).ids :=
    fun u v hv => (Graph.next_mem (mem_unguarded.mp hv).1).2
  have hstarts : ∀ u ∈ (Graph.ofWorkflow w).ids.filter (fun id => !isGuard w id),
      u ∈ (Graph.ofWorkflow w).ids ∧ ∀ e, False → e = u :=
    fun u hu => ⟨(List.mem_filter.mp hu).1, by simp⟩
  obtain ⟨hs, -, hfin⟩ := Graph.trace_sorted hids (by simp) hstarts
  exact ⟨hs, fun v hv hguard => hfin v (List.mem_filter.mpr ⟨hv, by simp [hguard]⟩)⟩

theorem mem_guardedCycles {f : ShapeFault} :
    f ∈ guardedCycles w (Graph.ofWorkflow w) ↔ ∃ u v, (u, v) ∈ (unguardedTrace w).retreating ∧
      f = .unguardedCycle
        ((((Graph.ofWorkflow w).between? u v).map fun l => l.edge.id).getD "") u v := by
  have heq : guardedCycles w (Graph.ofWorkflow w) =
      (distinct (unguardedTrace w).retreating.reverse).map fun uv => .unguardedCycle
        ((((Graph.ofWorkflow w).between? uv.1 uv.2).map fun l => l.edge.id).getD "") uv.1 uv.2 := rfl
  rw [heq, List.mem_map]
  constructor
  · rintro ⟨⟨u, v⟩, huv, rfl⟩
    exact ⟨u, v, List.mem_reverse.mp (mem_distinct.mp huv), rfl⟩
  · rintro ⟨u, v, huv, rfl⟩
    exact ⟨(u, v), mem_distinct.mpr (List.mem_reverse.mpr huv), rfl⟩

/-- An edge that is said to close a cycle without a feedback loop closes one. -/
theorem closes_of_unguardedCycle {f : ShapeFault} (hf : f ∈ guardedCycles w (Graph.ofWorkflow w)) :
    ∃ e c, f = .unguardedCycle e.id e.source e.target ∧ w.Closes e c ∧
      ∀ v ∈ c, ∃ n, w.node? v = some n ∧ n.isFeedbackLoop = false := by
  obtain ⟨u, v, huv, rfl⟩ := mem_guardedCycles.mp hf
  obtain ⟨-, hmem, -, hway⟩ := (unguardedTrace_sorted w).1.back u v huv
  obtain ⟨l, hl⟩ : ∃ l, (Graph.ofWorkflow w).between? u v = some l := by
    obtain ⟨l, hl, hu, hv⟩ := (mem_unguarded.mp hmem).1
    exact Option.isSome_iff_exists.mp (List.find?_isSome.mpr ⟨l, hl, by simp [hu, hv]⟩)
  obtain ⟨rfl, rfl⟩ : l.source = u ∧ l.target = v := by
    simpa using List.find?_some hl
  have hedge := (Graph.mem_links (List.mem_of_find?_eq_some hl)).1
  have hplain : ∀ {x y}, UnguardedNext w x y →
      ∃ n, w.node? y = some n ∧ n.isFeedbackLoop = false := by
    rintro x y ⟨hxy, hy⟩
    obtain ⟨n, hn⟩ := Workflow.exists_node (Graph.next_mem hxy).2
    exact ⟨n, hn, by simpa [isGuard, hn] using hy⟩
  -- the search found a way from the target of the edge down to its source
  have hround : ReflTransGen (fun x y => w.Leads x y ∧
      ∃ n, w.node? y = some n ∧ n.isFeedbackLoop = false) l.target l.source :=
    ReflTransGen.mono (fun x y hxy => by
      have hxy := mem_unguarded.mp hxy.1
      exact ⟨Graph.leads_of_next hxy.1, hplain hxy⟩) _ _ hway
  obtain ⟨c, hc, hfree⟩ :=
    Workflow.exists_closes_iff.mpr ⟨hedge, hplain (mem_unguarded.mp hmem), hround⟩
  exact ⟨l.edge, c, by rw [hl]; rfl, hc, hfree⟩

/-- Without the feedback loops the links go up in some numbering, if no cycle is found. -/
theorem rank_of_guardedCycles (hnone : guardedCycles w (Graph.ofWorkflow w) = [])
    (hself : ∀ u, ¬(Graph.ofWorkflow w).Next u u) :
    ∃ rank : String → Nat, ∀ u v, (Graph.ofWorkflow w).Next u v → isGuard w u = false →
      isGuard w v = false → rank u < rank v := by
  obtain ⟨hs, hfin⟩ := unguardedTrace_sorted w
  refine ⟨fun v => (unguardedTrace w).finished.idxOf v, fun u v huv hu hv => ?_⟩
  refine hs.idxOf_lt (hfin u (Graph.next_mem huv).1 hu) (mem_unguarded.mpr ⟨huv, hv⟩) ?_ ?_
  · rintro rfl
    exact hself u huv
  · intro hret
    have := mem_guardedCycles.mpr ⟨u, v, hret, rfl⟩
    simp [hnone] at this

theorem exists_of_isGuard {v : String} (h : isGuard w v = true) :
    ∃ n ∈ w.nodes, n.isFeedbackLoop ∧ n.id = v := by
  rw [isGuard, Option.any_eq_true] at h
  obtain ⟨n, hn, hloop⟩ := h
  exact ⟨n, (Workflow.node?_eq_some hn).1, hloop, (Workflow.node?_eq_some hn).2⟩

theorem guardedCycles_eq_nil
    (hknown : ∀ e ∈ w.edges, e.source ∈ w.nodes.map Node.id ∧ e.target ∈ w.nodes.map Node.id)
    (hself : ∀ e ∈ w.edges, e.source ≠ e.target) (hnodup : (w.nodes.map Node.id).Nodup) :
    guardedCycles w (Graph.ofWorkflow w) = [] ↔
      ∀ e c, w.Closes e c → ∃ n ∈ w.nodes, n.isFeedbackLoop ∧ n.id ∈ c := by
  constructor
  · intro hnone e c hc
    by_contra hcon
    have hfree : ∀ v ∈ c, isGuard w v = false := by
      intro v hv
      refine Bool.eq_false_iff.mpr fun hguard => hcon ?_
      obtain ⟨n, hn, hloop, rfl⟩ := exists_of_isGuard hguard
      exact ⟨n, hn, hloop, hv⟩
    have hne : ∀ u, ¬(Graph.ofWorkflow w).Next u u := by
      rintro u ⟨l, hl, hu, hv⟩
      exact hself l.edge (Graph.mem_links hl).1 (hu.trans hv.symm)
    obtain ⟨rank, hrank⟩ := rank_of_guardedCycles hnone hne
    obtain ⟨hedge, htarget, hway⟩ := Workflow.exists_closes_iff.mp ⟨c, hc, hfree⟩
    -- the numbering would go up all the way round
    have hup : rank e.target ≤ rank e.source ∧ isGuard w e.source = false := by
      clear hc
      generalize e.source = x at hway
      induction hway with
      | refl => exact ⟨Nat.le_refl _, htarget⟩
      | tail _ hxy ih =>
        have := hrank _ _ ((Graph.next_iff hknown).mpr hxy.1) ih.2 hxy.2
        exact ⟨by omega, hxy.2⟩
    have := hrank e.source e.target ((Graph.next_iff hknown).mpr ⟨e, hedge, rfl, rfl⟩) hup.2 htarget
    omega
  · intro hguarded
    refine List.eq_nil_iff_forall_not_mem.mpr fun f hf => ?_
    obtain ⟨e, c, -, hc, hfree⟩ := closes_of_unguardedCycle hf
    obtain ⟨n, hn, hloop, hmem⟩ := hguarded e c hc
    obtain ⟨m, hm, hplain⟩ := hfree n.id hmem
    rw [Workflow.node?_of_mem hnodup hn, Option.some.injEq] at hm
    simp [← hm, hloop] at hplain

/-! ### All rules together -/

theorem severity_eq_error_iff {f : ShapeFault} : f.severity = .error ↔ f.code ≠ "V014" := by
  cases f <;> simp [ShapeFault.severity, ShapeFault.code]

theorem code_of_slotFault {f : ShapeFault} {id : String} {seen : List String} {es : List Edge}
    (hf : f ∈ slotFaults id seen es) : f.code = "V009" := by
  induction es generalizing seen with
  | nil => simp [slotFaults] at hf
  | cons e es ih =>
    rw [slotFaults] at hf
    split at hf
    · rcases List.mem_cons.mp hf with rfl | hf
      · rfl
      · exact ih hf
    · split at hf
      · rcases List.mem_cons.mp hf with rfl | hf
        · rfl
        · exact ih hf
      · exact ih hf

/-- The findings of each rule carry one code. -/
theorem rule_codes (w : Workflow) :
    (∀ f ∈ oneTrigger w, f.code = "V001") ∧
    (∀ f ∈ knownEndpoints w (Graph.ofWorkflow w), f.code = "V002") ∧
    (∀ f ∈ distinctEdges w, f.code = "V003") ∧
    (∀ f ∈ distinctNodes w, f.code = "V011") ∧
    (∀ f ∈ guardedCycles w (Graph.ofWorkflow w), f.code = "V004") ∧
    (∀ f ∈ reachableNodes w (Graph.ofWorkflow w), f.code = "V005") ∧
    (∀ f ∈ freeTriggers w (Graph.ofWorkflow w), f.code = "V006") ∧
    (∀ f ∈ conditionOutcomes w (Graph.ofWorkflow w), f.code = "V008") ∧
    (∀ f ∈ parallelSlots w (Graph.ofWorkflow w), f.code = "V009") ∧
    (∀ f ∈ selfLoops w, f.code = "V010") ∧
    ∀ f ∈ strayMarks w, f.code = "V014" := by
  refine ⟨?_, ?_, ?_, ?_, ?_, ?_, ?_, ?_, ?_, ?_, ?_⟩ <;> intro f hf
  · rw [oneTrigger] at hf
    by_cases hone : w.nodes.countP Node.isTrigger = 1
    · simp [hone] at hf
    · simp only [hone, if_false, List.mem_singleton] at hf
      rw [hf]
      rfl
  · obtain ⟨e, -, hf⟩ := List.mem_flatMap.mp hf
    rcases List.mem_append.mp hf with hf | hf <;> split at hf
    · simp at hf
    · rw [List.mem_singleton.mp hf]
      rfl
    · simp at hf
    · rw [List.mem_singleton.mp hf]
      rfl
  · obtain ⟨id, -, rfl⟩ := List.mem_map.mp hf
    rfl
  · obtain ⟨id, -, rfl⟩ := List.mem_map.mp hf
    rfl
  · obtain ⟨u, v, -, rfl⟩ := mem_guardedCycles.mp hf
    rfl
  · simp only [reachableNodes] at hf
    split at hf
    · simp at hf
    · obtain ⟨id, -, rfl⟩ := List.mem_map.mp hf
      rfl
  · obtain ⟨n, -, rfl⟩ := List.mem_map.mp hf
    rfl
  · simp only [conditionOutcomes, List.mem_flatMap] at hf
    obtain ⟨n, -, hf⟩ := hf
    split at hf
    · rw [List.mem_singleton.mp hf]
      rfl
    · split at hf
      · simp at hf
      · rw [List.mem_singleton.mp hf]
        rfl
  · obtain ⟨n, -, hf⟩ := List.mem_flatMap.mp hf
    rcases List.mem_append.mp hf with hf | hf
    · split at hf
      · rw [List.mem_singleton.mp hf]
        rfl
      · simp at hf
    · exact code_of_slotFault hf
  · obtain ⟨e, -, rfl⟩ := List.mem_map.mp hf
    rfl
  · obtain ⟨e, -, hf⟩ := List.mem_flatMap.mp hf
    split at hf
    · simp at hf
    · rcases List.mem_append.mp hf with hf | hf <;> split at hf
      · rw [List.mem_singleton.mp hf]
        rfl
      · simp at hf
      · rw [List.mem_singleton.mp hf]
        rfl
      · simp at hf

theorem mem_guardedCycles_of_code {f : ShapeFault}
    (hf : f ∈ structuralFaults w (Graph.ofWorkflow w)) (hcode : f.code = "V004") :
    f ∈ guardedCycles w (Graph.ofWorkflow w) := by
  obtain ⟨h1, h2, h3, h11, -, h5, h6, h8, h9, h10, h14⟩ := rule_codes w
  have hother : ∀ {rule : List ShapeFault} {code : String}, (∀ f ∈ rule, f.code = code) →
      code ≠ "V004" → f ∉ rule := fun hrule hne hmem => hne ((hrule f hmem).symm.trans hcode)
  simpa [structuralFaults, hother h1, hother h2, hother h3, hother h11, hother h5, hother h6,
    hother h8, hother h9, hother h10, hother h14] using hf

/-- The rules find no error exactly if none but the one on stray marks finds anything. -/
theorem structural_ok_iff :
    (∀ f ∈ structuralFaults w (Graph.ofWorkflow w), f.severity ≠ .error) ↔
      oneTrigger w = [] ∧ knownEndpoints w (Graph.ofWorkflow w) = [] ∧ distinctEdges w = [] ∧
      distinctNodes w = [] ∧ guardedCycles w (Graph.ofWorkflow w) = [] ∧
      reachableNodes w (Graph.ofWorkflow w) = [] ∧ freeTriggers w (Graph.ofWorkflow w) = [] ∧
      conditionOutcomes w (Graph.ofWorkflow w) = [] ∧ parallelSlots w (Graph.ofWorkflow w) = [] ∧
      selfLoops w = [] := by
  obtain ⟨h1, h2, h3, h11, h4, h5, h6, h8, h9, h10, h14⟩ := rule_codes w
  have hrule : ∀ {rule : List ShapeFault} {code : String}, (∀ f ∈ rule, f.code = code) →
      code ≠ "V014" → ((∀ f ∈ rule, f.severity ≠ .error) ↔ rule = []) := by
    intro rule code hcode hne
    refine ⟨fun h => List.eq_nil_iff_forall_not_mem.mpr fun f hf => h f hf ?_, by rintro rfl; simp⟩
    exact severity_eq_error_iff.mpr (hcode f hf ▸ hne)
  have hstray : ∀ f ∈ strayMarks w, f.severity ≠ .error :=
    fun f hf herr => severity_eq_error_iff.mp herr (h14 f hf)
  simp only [structuralFaults, List.forall_mem_append, and_assoc]
  rw [hrule h1 (by decide), hrule h2 (by decide), hrule h3 (by decide), hrule h11 (by decide),
    hrule h4 (by decide), hrule h5 (by decide), hrule h6 (by decide), hrule h8 (by decide),
    hrule h9 (by decide), hrule h10 (by decide)]
  rw [iff_true_intro hstray, and_true]

theorem wellShaped_iff :
    (∀ f ∈ structuralFaults w (Graph.ofWorkflow w), f.severity ≠ .error) ↔ w.WellShaped := by
  rw [structural_ok_iff, oneTrigger_eq_nil, knownEndpoints_eq_nil, distinctEdges_eq_nil,
    distinctNodes_eq_nil, selfLoops_eq_nil]
  constructor
  · rintro ⟨⟨t, ht⟩, hknown, hedges, hnodes, hcycles, hreach, hfree, hcond, hpar, hself⟩
    refine ⟨⟨t, ht⟩, hnodes, hedges, hknown, hself, (freeTriggers_eq_nil hknown).mp hfree, ?_,
      (conditionOutcomes_eq_nil hknown).mp hcond, (parallelSlots_eq_nil hknown).mp hpar,
      (guardedCycles_eq_nil hknown hself hnodes).mp hcycles⟩
    intro s hs htrigger
    have hmem : s ∈ w.nodes.filter Node.isTrigger := List.mem_filter.mpr ⟨hs, htrigger⟩
    rw [ht] at hmem
    rw [List.mem_singleton.mp hmem]
    exact (reachableNodes_eq_nil hknown ht).mp hreach
  · intro h
    obtain ⟨t, ht⟩ := h.one_trigger
    have hmem : t ∈ w.nodes.filter Node.isTrigger := by simp [ht]
    obtain ⟨hmem, htrigger⟩ := List.mem_filter.mp hmem
    exact ⟨⟨t, ht⟩, h.endpoints, h.nodup_edges, h.nodup_nodes,
      (guardedCycles_eq_nil h.endpoints h.no_self_loop h.nodup_nodes).mpr h.guarded,
      (reachableNodes_eq_nil h.endpoints ht).mpr (h.reachable t hmem htrigger),
      (freeTriggers_eq_nil h.endpoints).mpr h.trigger_free,
      (conditionOutcomes_eq_nil h.endpoints).mpr h.condition,
      (parallelSlots_eq_nil h.endpoints).mpr h.parallel, h.no_self_loop⟩

theorem hasErrors_structural :
    hasErrors ((structuralFaults w (Graph.ofWorkflow w)).map ShapeFault.toDiagnostic) = false ↔
      w.WellShaped := by
  rw [← wellShaped_iff, hasErrors, List.any_eq_false]
  simp [Diagnostic.isError, ShapeFault.toDiagnostic]

end Check

/-- The rules on the shape find no error exactly in well-shaped workflows.  In any workflow an edge
that they report with V004 closes a cycle without a feedback loop. -/
theorem structural_iff_wellShaped (w : Workflow) :
    (hasErrors ((Check.structuralFaults w (Graph.ofWorkflow w)).map ShapeFault.toDiagnostic) = false ↔
      w.WellShaped) ∧
    ∀ d ∈ (Check.structuralFaults w (Graph.ofWorkflow w)).map ShapeFault.toDiagnostic,
      d.code = "V004" → ∃ e c, d.edgeId = some e.id ∧ d.nodeId = some e.target ∧ w.Closes e c ∧
        ∀ v ∈ c, ∃ n, w.node? v = some n ∧ n.isFeedbackLoop = false := by
  refine ⟨Check.hasErrors_structural, fun d hd hcode => ?_⟩
  obtain ⟨f, hf, rfl⟩ := List.mem_map.mp hd
  obtain ⟨e, c, rfl, hc, hfree⟩ :=
    Check.closes_of_unguardedCycle (Check.mem_guardedCycles_of_code hf hcode)
  exact ⟨e, c, rfl, rfl, hc, hfree⟩

/-- A draft is revised until the reviewer, given here by its configuration, lets it pass. -/
def revisionFlow (reviewer : Config) : Workflow where
  nodes :=
    [ { id := "start", config := .trigger {} },
      { id := "draft", config := .agent { prompt := "draft" } },
      { id := "review", config := reviewer } ]
  edges :=
    [ { id := "e1", source := "start", target := "draft" },
      { id := "e2", source := "draft", target := "review" },
      { id := "e3", source := "review", target := "draft" } ]

/-- With a feedback loop as the reviewer the shape is right.  With an agent it is not, and the edge
back to the draft is reported. -/
theorem structural_revisionFlow :
    (revisionFlow (.feedbackLoop { maxIterations := 3 })).WellShaped ∧
    ¬(revisionFlow (.agent {})).WellShaped ∧
    ∃ e c, e.id = "e3" ∧ (revisionFlow (.agent {})).Closes e c ∧
      ∀ v ∈ c, ∃ n, (revisionFlow (.agent {})).node? v = some n ∧ n.isFeedbackLoop = false := by
  refine ⟨(structural_iff_wellShaped _).1.mp (by decide +kernel), fun h => ?_, ?_⟩
  · have := (structural_iff_wellShaped _).1.mpr h
    revert this
    decide +kernel
  · have hreported : ∃ d ∈ (Check.structuralFaults (revisionFlow (.agent {}))
        (Graph.ofWorkflow (revisionFlow (.agent {})))).map ShapeFault.toDiagnostic,
        d.code = "V004" ∧ d.edgeId = some "e3" := by
      decide +kernel
    obtain ⟨d, hd, hcode, hedge⟩ := hreported
    obtain ⟨e, c, he, -, hc, hfree⟩ := (structural_iff_wellShaped _).2 d hd hcode
    exact ⟨e, c, Option.some.inj (he.symm.trans hedge), hc, hfree⟩

end Flowscript
