/-
A workflow with its nodes renamed.

`w.rename f` gives the node `v` the id `f v`, in the nodes and at the ends of the edges.  If `f` is
injective, everything up to the choice of heads and entries is carried over as it is:

* `breadthFirst_map`, `depthFirst_map` — a search among renamed vertices is the renamed search;
* `graph_rename`, `trace_rename`, `cycle_rename`, `reachWithout_rename` — so are the graph of the
  workflow and what the loop analysis searches in it;
* `WellShaped.rename` — a well-shaped workflow stays well shaped.

A renaming need only be injective on the ids that the workflow mentions (`Workflow.ids`):
`exists_injective` extends it to all texts.
-/
import Flowscript.Proofs.Shape
import Mathlib.Algebra.Order.BigOperators.Group.List
import Mathlib.Algebra.Order.Group.Nat

open Relation

namespace Flowscript

/-! ### Lists and searches -/

section Injective

variable {α β : Type} [DecidableEq α] [DecidableEq β] {f : α → β} (hf : Function.Injective f)
include hf

theorem contains_map (l : List α) (a : α) : (l.map f).contains (f a) = l.contains a := by
  rw [Bool.eq_iff_iff, List.contains_iff_mem, List.contains_iff_mem, List.mem_map_of_injective hf]

theorem beq_map (a b : α) : (f a == f b) = (a == b) := by
  rw [Bool.eq_iff_iff, beq_iff_eq, beq_iff_eq, hf.eq_iff]

theorem distinct_map (l : List α) : distinct (l.map f) = (distinct l).map f := by
  induction l with
  | nil => rfl
  | cons a l ih =>
    rw [List.map_cons, distinct, distinct, ih, List.map_cons, List.filter_map]
    simp only [Function.comp_def, ne_eq, hf.eq_iff]

theorem breadthFirst_map {next : α → List α} {next' : β → List β}
    (hnext : ∀ v, next' (f v) = (next v).map f) (steps : Nat) : ∀ queue seen : List α,
    breadthFirst next' steps (queue.map f) (seen.map f) =
      (breadthFirst next steps queue seen).map f := by
  induction steps with
  | zero => exact fun _ _ => rfl
  | succ steps ih =>
    intro queue seen
    cases queue with
    | nil => rfl
    | cons v queue =>
      have hseen : f v ∈ seen.map f ↔ v ∈ seen := List.mem_map_of_injective hf
      rw [List.map_cons, breadthFirst, breadthFirst, hnext]
      by_cases hv : v ∈ seen
      · rw [if_pos hv, if_pos (hseen.mpr hv)]
        exact ih queue seen
      · rw [if_neg hv, if_neg (mt hseen.mp hv), List.map_cons, ← ih, List.map_append, List.map_cons]

/-- The course of a search among renamed vertices. -/
def Trace.map (f : α → β) (t : Trace α) : Trace β :=
  ⟨t.discovered.map f, t.finished.map f, t.retreating.map (Prod.map f f)⟩

theorem follow_map {visit : α → Trace α → Trace α} {visit' : β → Trace β → Trace β}
    (hvisit : ∀ v t, visit' (f v) (t.map f) = (visit v t).map f) (u : α) (t : Trace α) (v : α) :
    (t.map f).follow visit' (f u) (f v) = (t.follow visit u v).map f := by
  have hdiscovered : f v ∈ (t.map f).discovered ↔ v ∈ t.discovered :=
    List.mem_map_of_injective hf
  have hfinished : f v ∈ (t.map f).finished ↔ v ∈ t.finished := List.mem_map_of_injective hf
  have hopen : f v ∉ (t.map f).finished ∧ f u ≠ f v ↔ v ∉ t.finished ∧ u ≠ v := by
    rw [hfinished, Ne, hf.eq_iff]
  rw [Trace.follow, Trace.follow, hvisit]
  by_cases hv : v ∈ t.discovered
  · rw [if_neg (not_not.mpr hv), if_neg (not_not.mpr (hdiscovered.mpr hv))]
    by_cases huv : v ∉ t.finished ∧ u ≠ v
    · rw [if_pos huv, if_pos (hopen.mpr huv)]
      rfl
    · rw [if_neg huv, if_neg (mt hopen.mp huv)]
  · rw [if_pos hv, if_pos (mt hdiscovered.mp hv)]

theorem depthFirst_map {next : α → List α} {next' : β → List β}
    (hnext : ∀ v, next' (f v) = (next v).map f) (depth : Nat) : ∀ (u : α) (t : Trace α),
    depthFirst next' depth (f u) (t.map f) = (depthFirst next depth u t).map f := by
  induction depth with
  | zero => exact fun _ _ => rfl
  | succ depth ih =>
    intro u t
    have hfold : ∀ (vs : List α) (t : Trace α),
        (vs.map f).foldl (Trace.follow (depthFirst next' depth) (f u)) (t.map f) =
          (vs.foldl (Trace.follow (depthFirst next depth) u) t).map f := by
      intro vs
      induction vs with
      | nil => exact fun _ => rfl
      | cons v vs ihvs =>
        intro t
        rw [List.map_cons, List.foldl_cons, List.foldl_cons, follow_map hf ih, ihvs]
    have hdiscovered : f u ∈ (t.map f).discovered ↔ u ∈ t.discovered :=
      List.mem_map_of_injective hf
    rw [depthFirst, depthFirst]
    by_cases hu : u ∈ t.discovered
    · rw [if_pos hu, if_pos (hdiscovered.mpr hu)]
    · have hrun := hfold (next u) { t with discovered := u :: t.discovered }
      rw [← hnext] at hrun
      rw [if_neg hu, if_neg (mt hdiscovered.mp hu)]
      exact congrArg (fun t : Trace β => { t with finished := f u :: t.finished }) hrun

end Injective

/-! ### Renamed workflows -/

/-- A node under another id. -/
def Node.rename (f : String → String) (n : Node) : Node := { n with id := f n.id }

/-- An edge between renamed nodes; it keeps its own id. -/
def Edge.rename (f : String → String) (e : Edge) : Edge :=
  { e with source := f e.source, target := f e.target }

/-- A link between renamed vertices; it keeps its number. -/
def Link.rename (f : String → String) (l : Link) : Link := { l with edge := l.edge.rename f }

/-- The graph with renamed vertices, in the same order. -/
def Graph.rename (f : String → String) (g : Graph) : Graph :=
  ⟨g.ids.map f, g.links.map (Link.rename f)⟩

/-- The same workflow with the node `v` under the id `f v`. -/
def Workflow.rename (f : String → String) (w : Workflow) : Workflow :=
  ⟨w.nodes.map (Node.rename f), w.edges.map (Edge.rename f)⟩

variable {f : String → String} (hf : Function.Injective f) {w : Workflow} {g : Graph}

@[simp] theorem Node.rename_kind (n : Node) : (n.rename f).kind = n.kind := rfl

@[simp] theorem Node.rename_isTrigger (n : Node) : (n.rename f).isTrigger = n.isTrigger := rfl

theorem Workflow.trigger?_rename : (w.rename f).trigger? = w.trigger?.map (Node.rename f) := by
  rw [trigger?, trigger?, rename, List.find?_map]
  rfl

section Graphs

include hf

theorem Workflow.node?_rename (v : String) :
    (w.rename f).node? (f v) = (w.node? v).map (Node.rename f) := by
  rw [node?, node?, rename, List.find?_map]
  simp only [Function.comp_def, Node.rename, beq_map hf]

theorem isGuard_rename (v : String) : Check.isGuard (w.rename f) (f v) = Check.isGuard w v := by
  rw [Check.isGuard, Check.isGuard, Workflow.node?_rename hf, Option.any_map]
  rfl

theorem graph_rename : Graph.ofWorkflow (w.rename f) = (Graph.ofWorkflow w).rename f := by
  have hids : (w.rename f).nodes.map Node.id = (w.nodes.map Node.id).map f := by
    rw [Workflow.rename, List.map_map, List.map_map]
    rfl
  have hkept : ((w.rename f).edges.filter fun e =>
      (distinct ((w.nodes.map Node.id).map f)).contains e.source &&
        (distinct ((w.nodes.map Node.id).map f)).contains e.target) =
      (w.edges.filter fun e => (distinct (w.nodes.map Node.id)).contains e.source &&
        (distinct (w.nodes.map Node.id)).contains e.target).map (Edge.rename f) := by
    rw [Workflow.rename, List.filter_map]
    simp only [Function.comp_def, Edge.rename, distinct_map hf, contains_map hf]
  rw [Graph.ofWorkflow, Graph.ofWorkflow, hids, hkept, distinct_map hf, List.zipIdx_map]
  simp only [Graph.rename, List.map_map]
  rfl

theorem outgoing_rename (v : String) :
    (g.rename f).outgoing (f v) = (g.outgoing v).map (Link.rename f) := by
  rw [Graph.outgoing, Graph.outgoing, Graph.rename, List.filter_map]
  simp only [Function.comp_def, Link.source, Link.rename, Edge.rename, beq_map hf]

theorem incoming_rename (v : String) :
    (g.rename f).incoming (f v) = (g.incoming v).map (Link.rename f) := by
  rw [Graph.incoming, Graph.incoming, Graph.rename, List.filter_map]
  simp only [Function.comp_def, Link.target, Link.rename, Edge.rename, beq_map hf]

theorem nextNewest_rename (v : String) :
    (g.rename f).nextNewest (f v) = (g.nextNewest v).map f := by
  rw [Graph.nextNewest, Graph.nextNewest, outgoing_rename hf, ← List.map_reverse, List.map_map,
    List.map_map]
  rfl

theorem trace_rename (v : String) :
    (g.rename f).trace (g.rename f).nextNewest [f v] = (g.trace g.nextNewest [v]).map f := by
  rw [Graph.trace, Graph.trace, Graph.rename, List.length_map]
  exact depthFirst_map hf (nextNewest_rename hf) _ v {}

theorem reach_rename {next next' : String → List String}
    (hnext : ∀ v, next' (f v) = (next v).map f) (starts : List String) :
    (g.rename f).reach next' (starts.map f) = (g.reach next starts).map f := by
  rw [Graph.reach, Graph.reach, Graph.rename, List.length_map, List.length_map]
  exact breadthFirst_map hf hnext _ starts []

theorem filter_ne_map (l : List String) (e : String) :
    (l.map f).filter (fun v => decide (v ≠ f e)) = (l.filter fun v => decide (v ≠ e)).map f := by
  rw [List.filter_map]
  simp only [Function.comp_def, ne_eq, hf.eq_iff]

theorem cycle_rename (entry : String) (tails : List String) :
    (g.rename f).cycle (f entry) (tails.map f) = (g.cycle entry tails).map f := by
  rw [Graph.cycle, Graph.cycle, List.map_cons]
  refine congrArg _ (reach_rename hf (fun v => ?_) tails)
  rw [incoming_rename hf, List.map_map, ← filter_ne_map hf, List.map_map]
  rfl

theorem reachWithout_rename (start blocked : String) :
    (g.rename f).reachWithout (f start) (f blocked) = (g.reachWithout start blocked).map f := by
  refine reach_rename hf (fun v => ?_) [start]
  rw [nextNewest_rename hf, filter_ne_map hf]

end Graphs

/-! ### The shape -/

theorem edgesFrom_rename (hf : Function.Injective f) (v : String) :
    (w.rename f).edgesFrom (f v) = (w.edgesFrom v).map (Edge.rename f) := by
  rw [Workflow.edgesFrom, Workflow.edgesFrom, Workflow.rename, List.filter_map]
  simp only [Function.comp_def, Edge.rename, beq_map hf]

/-- A way along renamed edges is a renamed way. -/
theorem exists_way_of_rename (hf : Function.Injective f) {P P' : String → Prop}
    (hP : ∀ v, P' (f v) → P v) {u v' : String}
    (h : ReflTransGen (fun x y => (w.rename f).Leads x y ∧ P' y) (f u) v') :
    ∃ v, v' = f v ∧ ReflTransGen (fun x y => w.Leads x y ∧ P y) u v := by
  induction h with
  | refl => exact ⟨u, rfl, .refl⟩
  | tail _ hstep ih =>
    obtain ⟨x, rfl, hway⟩ := ih
    obtain ⟨⟨e', he', hsource, rfl⟩, hy⟩ := hstep
    obtain ⟨e, he, rfl⟩ := List.mem_map.mp he'
    exact ⟨e.target, rfl, hway.tail ⟨⟨e, he, hf hsource, rfl⟩, hP _ hy⟩⟩

theorem Workflow.WellShaped.rename (hw : w.WellShaped) (hf : Function.Injective f) :
    (w.rename f).WellShaped where
  one_trigger := by
    obtain ⟨t, ht⟩ := hw.one_trigger
    refine ⟨t.rename f, ?_⟩
    rw [Workflow.rename, List.filter_map]
    exact congrArg (List.map (Node.rename f)) ht
  nodup_nodes := by
    have := hw.nodup_nodes.map hf
    rw [List.map_map] at this
    rw [Workflow.rename, List.map_map]
    exact this
  nodup_edges := by
    rw [Workflow.rename, List.map_map]
    exact hw.nodup_edges
  endpoints e' he' := by
    obtain ⟨e, he, rfl⟩ := List.mem_map.mp he'
    have hids : (w.rename f).nodes.map Node.id = (w.nodes.map Node.id).map f := by
      rw [Workflow.rename, List.map_map, List.map_map]
      rfl
    rw [hids]
    exact (hw.endpoints e he).imp (List.mem_map_of_mem (f := f)) (List.mem_map_of_mem (f := f))
  no_self_loop e' he' := by
    obtain ⟨e, he, rfl⟩ := List.mem_map.mp he'
    exact hf.ne (hw.no_self_loop e he)
  trigger_free t' ht' htt e' he' := by
    obtain ⟨t, ht, rfl⟩ := List.mem_map.mp ht'
    obtain ⟨e, he, rfl⟩ := List.mem_map.mp he'
    exact hf.ne (hw.trigger_free t ht htt e he)
  reachable t' ht' htt n' hn' := by
    obtain ⟨t, ht, rfl⟩ := List.mem_map.mp ht'
    obtain ⟨n, hn, rfl⟩ := List.mem_map.mp hn'
    refine (hw.reachable t ht htt n hn).lift f ?_
    rintro x y ⟨e, he, rfl, rfl⟩
    exact ⟨e.rename f, List.mem_map_of_mem he, rfl, rfl⟩
  condition n' hn' hkind := by
    obtain ⟨n, hn, rfl⟩ := List.mem_map.mp hn'
    obtain ⟨d, e, hperm, hbranches⟩ := hw.condition n hn hkind
    refine ⟨d.rename f, e.rename f, ?_, hbranches⟩
    rw [show (n.rename f).id = f n.id from rfl, edgesFrom_rename hf]
    exact hperm.map (Edge.rename f)
  parallel n' hn' hkind := by
    obtain ⟨n, hn, rfl⟩ := List.mem_map.mp hn'
    obtain ⟨hlength, hslots, hnodup⟩ := hw.parallel n hn hkind
    rw [show (n.rename f).id = f n.id from rfl, edgesFrom_rename hf, List.length_map, List.map_map]
    refine ⟨hlength, ?_, hnodup⟩
    intro e' he'
    obtain ⟨e, he, rfl⟩ := List.mem_map.mp he'
    exact hslots e he
  guarded e' c' hc' := by
    -- a cycle without feedback loops would be a renamed cycle without feedback loops
    by_contra hcon
    let Free (w : Workflow) (v : String) : Prop := ¬∃ n ∈ w.nodes, n.isFeedbackLoop ∧ n.id = v
    have hfree : ∀ v, Free (w.rename f) (f v) → Free w v := by
      rintro v hv ⟨n, hn, hguard, rfl⟩
      exact hv ⟨n.rename f, List.mem_map_of_mem hn, hguard, rfl⟩
    have hclosed : ∀ v ∈ c', Free (w.rename f) v := by
      rintro v hv ⟨n, hn, hguard, rfl⟩
      exact hcon ⟨n, hn, hguard, hv⟩
    obtain ⟨he', htarget, hway⟩ := Workflow.exists_closes_iff.mp ⟨c', hc', hclosed⟩
    obtain ⟨e, he, rfl⟩ := List.mem_map.mp he'
    obtain ⟨v, hv, hway⟩ := exists_way_of_rename hf hfree hway
    obtain rfl : e.source = v := hf hv
    obtain ⟨c, hc, hfreec⟩ :=
      Workflow.exists_closes_iff.mpr ⟨he, hfree _ htarget, hway⟩
    obtain ⟨n, hn, hguard, hmem⟩ := hw.guarded e c hc
    exact hfreec _ hmem ⟨n, hn, hguard, rfl⟩

/-! ### Renamings of the ids that are mentioned -/

/-- The ids of the nodes and of the ends of the edges. -/
def Workflow.ids (w : Workflow) : List String :=
  w.nodes.map Node.id ++ w.edges.flatMap fun e => [e.source, e.target]

theorem rename_congr {f' : String → String} (h : ∀ v ∈ w.ids, f v = f' v) :
    w.rename f = w.rename f' := by
  have hnodes : w.nodes.map (Node.rename f) = w.nodes.map (Node.rename f') := by
    refine List.map_congr_left fun n hn => ?_
    rw [Node.rename, Node.rename, h _ (List.mem_append_left _ (List.mem_map_of_mem hn))]
  have hedges : w.edges.map (Edge.rename f) = w.edges.map (Edge.rename f') := by
    refine List.map_congr_left fun e he => ?_
    have hends : ∀ v ∈ [e.source, e.target], f v = f' v := fun v hv =>
      h v (List.mem_append_right _ (List.mem_flatMap.mpr ⟨e, he, hv⟩))
    rw [Edge.rename, Edge.rename, hends _ List.mem_cons_self,
      hends _ (List.mem_cons_of_mem _ List.mem_cons_self)]
  rw [Workflow.rename, Workflow.rename, hnodes, hedges]

theorem rename_rename (f f' : String → String) : (w.rename f).rename f' = w.rename (f' ∘ f) := by
  rw [Workflow.rename, Workflow.rename, Workflow.rename, List.map_map, List.map_map]
  rfl

theorem rename_id : w.rename id = w := by
  have hnode : Node.rename id = id := rfl
  have hedge : Edge.rename id = id := rfl
  rw [Workflow.rename, hnode, hedge, List.map_id, List.map_id]

theorem ids_rename : (w.rename f).ids = w.ids.map f := by
  simp only [Workflow.ids, Workflow.rename, List.map_append, List.map_map, List.flatMap_map,
    List.map_flatMap]
  rfl

/-- A renaming that is injective on some texts agrees there with one that is injective. -/
theorem exists_injective {l : List String} (hf : ∀ u ∈ l, ∀ v ∈ l, f u = f v → u = v) :
    ∃ f' : String → String, Function.Injective f' ∧ ∀ v ∈ l, f v = f' v := by
  -- the other texts are made longer than any new name
  obtain ⟨n, hn⟩ : ∃ n, ∀ v ∈ l, (f v).length < n := by
    refine ⟨(l.map fun v => (f v).length).sum + 1, fun v hv => Nat.lt_succ_of_le ?_⟩
    exact List.le_sum_of_mem (List.mem_map_of_mem hv)
  let pad (v : String) : String := String.ofList (List.replicate n ' ') ++ v
  have hpad : ∀ u ∈ l, ∀ v, f u ≠ pad v := by
    intro u hu v huv
    have := congrArg String.length huv
    simp only [pad, String.length_append, String.length_ofList, List.length_replicate] at this
    have := hn u hu
    omega
  refine ⟨fun v => if v ∈ l then f v else pad v, ?_, fun v hv => (if_pos hv).symm⟩
  intro u v huv
  dsimp only at huv
  split at huv <;> split at huv
  · rename_i hu hv
    exact hf u hu v hv huv
  · rename_i hu _
    exact absurd huv (hpad u hu v)
  · rename_i hu hv
    exact absurd huv.symm (hpad v hv u)
  · exact String.append_right_inj _ |>.mp huv

end Flowscript
