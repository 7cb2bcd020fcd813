/-
Compiling does not depend on the order in which a workflow was drawn.

Nodes are put in the order of their ids and edges in an order that tells any two of them apart
(`Edge.compare_eq`).  So the canonical form depends on the order of the nodes only where ids are
repeated, and such a workflow is refused:

* `canonical_redrawn` — with distinct ids the canonical form is the same;
* `code_of_repeated` — with repeated ids there is no program;
* `compile_redrawn` — the program is always the same, and with distinct ids so are the messages.
-/
import Flowscript.Compile
import Flowscript.Proofs.Redrawn.Graph
import Flowscript.Proofs.Reducible

namespace Flowscript

/-! ### The order of edges -/

instance : Std.TransCmp compareBranch where
  eq_swap {a b} := by cases a <;> cases b <;> rfl
  isLE_trans {a b c} := by cases a <;> cases b <;> cases c <;> decide

theorem compareBranch_eq {a b : Bool} : compareBranch a b = .eq → a = b := by
  cases a <;> cases b <;> simp [compareBranch]

section Option

variable {α : Type} {cmp : α → α → Ordering}

instance [Std.TransCmp cmp] : Std.TransCmp (compareOption cmp) where
  eq_swap {a b} := by
    cases a <;> cases b
    · rfl
    · rfl
    · rfl
    · show cmp _ _ = (cmp _ _).swap
      exact Std.OrientedCmp.eq_swap
  isLE_trans {a b c} hab hbc := by
    cases a <;> cases b <;> cases c <;> simp [compareOption] at hab hbc ⊢
    exact Std.TransCmp.isLE_trans hab hbc

theorem compareOption_eq (h : ∀ a b, cmp a b = .eq → a = b) {a b : Option α}
    (hab : compareOption cmp a b = .eq) : a = b := by
  cases a <;> cases b <;> simp [compareOption] at hab ⊢
  exact h _ _ hab

end Option

instance : Std.TransCmp Edge.compare :=
  transCmp_then (transCmp_on compareText Edge.source) <|
    transCmp_then (transCmp_on compareText Edge.target) <|
      transCmp_then (transCmp_on (compareOption compareBranch) Edge.branch) <|
        transCmp_then (transCmp_on (compareOption compareText) Edge.slot)
          (transCmp_on compareText Edge.id)

/-- No two edges are equal in their order. -/
theorem Edge.compare_eq {e f : Edge} (h : e.compare f = .eq) : e = f := by
  obtain ⟨hsource, h⟩ := Ordering.then_eq_eq.mp h
  obtain ⟨htarget, h⟩ := Ordering.then_eq_eq.mp h
  obtain ⟨hbranch, h⟩ := Ordering.then_eq_eq.mp h
  obtain ⟨hslot, hid⟩ := Ordering.then_eq_eq.mp h
  have := compareOption_eq (fun a b => compareBranch_eq) hbranch
  have := compareOption_eq (fun a b => compareText_eq.mp) hslot
  rw [compareText_eq] at hsource htarget hid
  cases e
  cases f
  simp_all

/-! ### The canonical form -/

variable {w w' : Workflow}

theorem canonical_redrawn (hr : w.Redrawn w') (hnodup : (w.nodes.map Node.id).Nodup) :
    w'.canonical = w.canonical := by
  have hnodes : sortBy (fun m n => compareText m.id n.id != .gt) w'.nodes =
      sortBy (fun m n => compareText m.id n.id != .gt) w.nodes := by
    have := transCmp_on compareText Node.id
    refine sortBy_eq_of_perm hr.nodes fun m hm n hn heq => ?_
    exact List.inj_on_of_nodup_map hnodup (hr.nodes.mem_iff.mp hm) (hr.nodes.mem_iff.mp hn)
      (compareText_eq.mp heq)
  have hedges : sortBy (fun e f => e.compare f != .gt) w'.edges =
      sortBy (fun e f => e.compare f != .gt) w.edges :=
    sortBy_eq_of_perm hr.edges fun _ _ _ _ => Edge.compare_eq
  rw [Workflow.canonical, Workflow.canonical, hnodes, hedges]

/-- There is no program for a workflow with repeated ids. -/
theorem code_of_repeated (hrepeated : ¬(w.nodes.map Node.id).Nodup) (options : Options) :
    (w.compile options).code = "" := by
  have hne : w.nodes.isEmpty = false := by
    rw [List.isEmpty_eq_false_iff]
    intro hnil
    simp [hnil] at hrepeated
  rw [Workflow.compile, hne, if_neg Bool.false_ne_true]
  split
  · rfl
  · rename_i a ha
    have hnodup := (wellShaped_of_check ha).nodup_nodes
    rw [Workflow.canonical, ((sortBy_perm _ w.nodes).map Node.id).nodup_iff] at hnodup
    exact absurd hnodup hrepeated

/-- A workflow whose nodes and edges are drawn in another order compiles to the same program.  If no
id is repeated, the messages are the same, too. -/
theorem compile_redrawn (hr : w.Redrawn w') (options : Options) :
    (w'.compile options).code = (w.compile options).code ∧
      ((w.nodes.map Node.id).Nodup →
        (w'.compile options).diagnostics = (w.compile options).diagnostics) := by
  have hsame : (w.nodes.map Node.id).Nodup → w'.compile options = w.compile options := by
    intro hnodup
    rw [Workflow.compile, Workflow.compile, canonical_redrawn hr hnodup, hr.nodes.isEmpty_eq]
  refine ⟨?_, fun hnodup => by rw [hsame hnodup]⟩
  by_cases hnodup : (w.nodes.map Node.id).Nodup
  · rw [hsame hnodup]
  · have hrepeated : ¬(w'.nodes.map Node.id).Nodup :=
      fun hnodup' => hnodup ((hr.nodes.map _).nodup_iff.mp hnodup')
    rw [code_of_repeated hnodup, code_of_repeated hrepeated]

/-- The essay with both lists reversed gives the same program. -/
theorem compile_redrawn_essayFlow :
    (essayFlow.compile {}).code ≠ "" ∧ (essayFlow.nodes.map Node.id).Nodup ∧
    (Workflow.compile ⟨essayFlow.nodes.reverse, essayFlow.edges.reverse⟩ {}).code =
      (essayFlow.compile {}).code ∧
    (Workflow.compile ⟨essayFlow.nodes.reverse, essayFlow.edges.reverse⟩ {}).diagnostics =
      (essayFlow.compile {}).diagnostics := by
  have hr : essayFlow.Redrawn ⟨essayFlow.nodes.reverse, essayFlow.edges.reverse⟩ :=
    ⟨List.reverse_perm _, List.reverse_perm _⟩
  have hnodup : (essayFlow.nodes.map Node.id).Nodup := by decide
  obtain ⟨hcode, hdiagnostics⟩ := compile_redrawn hr {}
  exact ⟨by decide +kernel, hnodup, hcode, hdiagnostics hnodup⟩

end Flowscript
