/-
A workflow drawn in another order.

`w.Redrawn w'` says that `w'` has the nodes and edges of `w`, in any order.  Such a workflow is
well shaped if `w` is, and then its graph differs in the order of vertices and links and in the
numbers of the links, but not in what the links connect:

* `WellShaped.redrawn` — the shape is kept;
* `node?_eq`, `trigger?_eq` — ids stand for the same nodes, and the trigger is the same;
* `perm_ids`, `perm_links`, `next_redrawn` — the same vertices, edges and links;
* `perm_filter` — so are the edges of those links that are picked by their edges.
-/
import Flowscript.Proofs.Shape
import Mathlib.Data.List.Find

open Relation

namespace Flowscript

theorem perm_filter {ls ls' : List Link} (h : (ls'.map Link.edge).Perm (ls.map Link.edge))
    (p : Edge → Bool) : ((ls'.filter fun l => p l.edge).map Link.edge).Perm
      ((ls.filter fun l => p l.edge).map Link.edge) := by
  have := h.filter p
  rw [List.filter_map, List.filter_map] at this
  exact this

/-- The same nodes and edges, each drawn in any order. -/
structure Workflow.Redrawn (w w' : Workflow) : Prop where
  nodes : w'.nodes.Perm w.nodes
  edges : w'.edges.Perm w.edges

namespace Workflow.Redrawn

variable {w w' : Workflow} (hr : w.Redrawn w')
include hr

theorem leads_iff {u v : String} : w'.Leads u v ↔ w.Leads u v := by
  simp only [Leads, hr.edges.mem_iff]

theorem closes_iff {e : Edge} {c : List String} : w'.Closes e c ↔ w.Closes e c := by
  have hleads : w'.Leads = w.Leads := by
    funext u v
    exact propext hr.leads_iff
  constructor
  · rintro ⟨hedge, hchain, hnodup, hfirst, hlast⟩
    exact ⟨hr.edges.mem_iff.mp hedge, hleads ▸ hchain, hnodup, hfirst, hlast⟩
  · rintro ⟨hedge, hchain, hnodup, hfirst, hlast⟩
    exact ⟨hr.edges.mem_iff.mpr hedge, hleads ▸ hchain, hnodup, hfirst, hlast⟩

theorem edgesFrom_perm (id : String) : (w'.edgesFrom id).Perm (w.edgesFrom id) :=
  hr.edges.filter _

theorem perm_ids : (Graph.ofWorkflow w').ids.Perm (Graph.ofWorkflow w).ids := by
  refine (List.perm_ext_iff_of_nodup (Graph.nodup_ids w') (Graph.nodup_ids w)).mpr fun id => ?_
  simp only [Graph.mem_ids, hr.nodes.mem_iff]

end Workflow.Redrawn

open Workflow

variable {w w' : Workflow}

theorem Workflow.WellShaped.redrawn (hw : w.WellShaped) (hr : w.Redrawn w') : w'.WellShaped where
  one_trigger := by
    obtain ⟨t, ht⟩ := hw.one_trigger
    refine ⟨t, List.perm_singleton.mp ?_⟩
    rw [← ht]
    exact hr.nodes.filter _
  nodup_nodes := (hr.nodes.map _).nodup_iff.mpr hw.nodup_nodes
  nodup_edges := (hr.edges.map _).nodup_iff.mpr hw.nodup_edges
  endpoints e he := by
    rw [(hr.nodes.map _).mem_iff, (hr.nodes.map _).mem_iff]
    exact hw.endpoints e (hr.edges.mem_iff.mp he)
  no_self_loop e he := hw.no_self_loop e (hr.edges.mem_iff.mp he)
  trigger_free t ht htt e he :=
    hw.trigger_free t (hr.nodes.mem_iff.mp ht) htt e (hr.edges.mem_iff.mp he)
  reachable t ht htt n hn :=
    ReflTransGen.mono (fun _ _ => hr.leads_iff.mpr) _ _
      (hw.reachable t (hr.nodes.mem_iff.mp ht) htt n (hr.nodes.mem_iff.mp hn))
  condition n hn hkind := by
    obtain ⟨e, f, hperm, hbranches⟩ := hw.condition n (hr.nodes.mem_iff.mp hn) hkind
    exact ⟨e, f, (hr.edgesFrom_perm _).trans hperm, hbranches⟩
  parallel n hn hkind := by
    obtain ⟨hlength, hslots, hnodup⟩ := hw.parallel n (hr.nodes.mem_iff.mp hn) hkind
    have hperm := hr.edgesFrom_perm n.id
    refine ⟨hperm.length_eq ▸ hlength, fun e he => hslots e (hperm.mem_iff.mp he), ?_⟩
    exact (hperm.map _).nodup_iff.mpr hnodup
  guarded e c hc := by
    obtain ⟨n, hn, hguard⟩ := hw.guarded e c (hr.closes_iff.mp hc)
    exact ⟨n, hr.nodes.mem_iff.mpr hn, hguard⟩

namespace Workflow.WellShaped

variable (hw : w.WellShaped) (hr : w.Redrawn w')
include hw hr

theorem node?_eq (id : String) : w'.node? id = w.node? id := by
  refine List.find?_eq_find?_of_perm hr.nodes ?_
  rintro m ⟨hm, hmid⟩ n ⟨hn, hnid⟩
  refine List.inj_on_of_nodup_map hw.nodup_nodes (hr.nodes.mem_iff.mp hm)
    (hr.nodes.mem_iff.mp hn) ?_
  rw [beq_iff_eq] at hmid hnid
  exact hmid.trans hnid.symm

theorem trigger?_eq : w'.trigger? = w.trigger? := by
  obtain ⟨t, ht⟩ := hw.one_trigger
  have ht' : w'.nodes.filter Node.isTrigger = [t] := by
    rw [← List.perm_singleton, ← ht]
    exact hr.nodes.filter _
  rw [trigger?, trigger?, ← List.head?_filter, ← List.head?_filter, ht, ht']

theorem isGuard_eq (id : String) : Check.isGuard w' id = Check.isGuard w id := by
  rw [Check.isGuard, Check.isGuard, hw.node?_eq hr]

theorem perm_links : ((Graph.ofWorkflow w').links.map Link.edge).Perm
    ((Graph.ofWorkflow w).links.map Link.edge) := by
  rw [Graph.edges_of_links (hw.redrawn hr).endpoints, Graph.edges_of_links hw.endpoints]
  exact hr.edges

theorem next_redrawn : (Graph.ofWorkflow w').Next = (Graph.ofWorkflow w).Next := by
  funext u v
  refine propext ?_
  rw [Graph.next_iff (hw.redrawn hr).endpoints, Graph.next_iff hw.endpoints, hr.leads_iff]

theorem past_redrawn : (Graph.ofWorkflow w').Past = (Graph.ofWorkflow w).Past := by
  funext e u v
  rw [Graph.Past, Graph.Past, hw.next_redrawn hr]

end Workflow.WellShaped

end Flowscript
