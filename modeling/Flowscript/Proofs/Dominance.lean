/-
Dominance.

A vertex dominates another one if it is on every way to it from the root.  A depth-first search
from the root finishes each vertex before the others that dominate it, in whatever order it follows
the links.  So a link to a dominator always goes back:

* `dominates_iff` — a vertex other than the root dominates what no way past it leads to;
* `trace_sorted_of_root` — what a search from the root finds, with dominance in the place of the
  relation that it carries along;
* `mem_retreating_of_dominates` — a link to a dominator goes back in every search from the root;
* `mem_retreating_iff` — where all other links go up in a numbering of the vertices, the links that
  go back are exactly those to a dominator, whatever the order of the search.
-/
import Flowscript.Proofs.Graph

open Relation

namespace Flowscript

namespace Graph

variable {g : Graph} {root : String}

/-- A way from `u` to `v`, as the list of the vertices on it. -/
structure Way (g : Graph) (u v : String) (p : List String) : Prop where
  chain : p.IsChain g.Next
  first : p.head? = some u
  last : p.getLast? = some v

/-- Every way from `root` to `v` leads through `e`. -/
def Dominates (g : Graph) (root e v : String) : Prop := ∀ p, g.Way root v p → e ∈ p

theorem Way.single (u : String) : g.Way u u [u] := ⟨.singleton u, rfl, rfl⟩

theorem Way.snoc {u x v : String} {p : List String} (h : g.Way u x p) (hxv : g.Next x v) :
    g.Way u v (p ++ [v]) := by
  refine ⟨?_, ?_, List.getLast?_concat⟩
  · refine h.chain.append (.singleton v) ?_
    rw [h.last]
    simpa using hxv
  · rw [List.head?_append, h.first]
    rfl

/-- A vertex is kept off by some way exactly if the way can be gone past it. -/
theorem exists_way_iff {e u v : String} :
    (∃ p, g.Way u v p ∧ e ∉ p) ↔ u ≠ e ∧ ReflTransGen (g.Past e) u v := by
  constructor
  · rintro ⟨p, hp, he⟩
    have hpast : p.IsChain (g.Past e) := hp.chain.imp_of_mem_imp fun x y hx hy hxy =>
      ⟨hxy, fun h => he (h ▸ hx), fun h => he (h ▸ hy)⟩
    refine ⟨?_, reach_of_chain hpast hp.first hp.last⟩
    rintro rfl
    exact he (List.mem_of_head? hp.first)
  · rintro ⟨hu, h⟩
    induction h with
    | refl => exact ⟨[u], .single u, by simpa using hu.symm⟩
    | @tail x y _ hxy ih =>
      obtain ⟨p, hp, he⟩ := ih
      refine ⟨p ++ [y], hp.snoc hxy.1, ?_⟩
      simpa using ⟨he, hxy.2.2.symm⟩

theorem dominates_iff {e v : String} :
    g.Dominates root e v ↔ root = e ∨ ¬ReflTransGen (g.Past e) root v := by
  have : ¬g.Dominates root e v ↔ ∃ p, g.Way root v p ∧ e ∉ p := by simp [Dominates]
  rw [← not_iff_not, this, exists_way_iff]
  simp

/-- What dominates the target of a link, other than the target itself, dominates its source. -/
theorem Dominates.of_next {e u v : String} (h : g.Dominates root e v) (huv : g.Next u v)
    (hne : e ≠ v) : g.Dominates root e u := by
  intro p hp
  have := h _ (hp.snoc huv)
  simpa [hne] using this

section Search

variable {next : String → List String} (hnext : ∀ u v, v ∈ next u ↔ g.Next u v)
  (hids : ∀ u v, g.Next u v → v ∈ g.ids) (hroot : root ∈ g.ids)
include hnext hids hroot

/-- A search from the root finishes all that can be reached, each vertex before the others that
dominate it. -/
theorem trace_sorted_of_root : (g.trace next [root]).Sorted next (g.Dominates root) ∧
    ∀ v, ReflTransGen g.Next root v → v ∈ (g.trace next [root]).finished := by
  have hmem : ∀ u, ∀ v ∈ next u, v ∈ g.ids := fun u v hv => hids u v ((hnext u v).mp hv)
  have hdom : ∀ e u v, v ∈ next u → g.Dominates root e v → e ≠ v → e = u ∨ g.Dominates root e u :=
    fun e u v huv hv hne => .inr (hv.of_next ((hnext u v).mp huv) hne)
  have hstarts : ∀ u ∈ [root], u ∈ g.ids ∧ ∀ e, g.Dominates root e u → e = u := by
    intro u hu
    obtain rfl := List.mem_singleton.mp hu
    exact ⟨hroot, fun e he => List.mem_singleton.mp (he _ (.single u))⟩
  obtain ⟨hs, hopen, hfin⟩ := trace_sorted hmem hdom hstarts
  refine ⟨hs, fun v hv => hs.finished_of_reach hopen (hfin root List.mem_cons_self) ?_⟩
  exact ReflTransGen.mono (fun x y hxy => (hnext x y).mpr hxy) _ _ hv

/-- A search from the root finds every link to a dominator to go back. -/
theorem mem_retreating_of_dominates {u v : String} (hreach : ReflTransGen g.Next root u)
    (huv : g.Next u v) (hne : u ≠ v) (hdom : g.Dominates root v u) :
    (u, v) ∈ (g.trace next [root]).retreating := by
  obtain ⟨hs, hfin⟩ := trace_sorted_of_root hnext hids hroot
  obtain ⟨newer, older, hsplit⟩ := List.append_of_mem (hfin u hreach)
  rcases hs.sorted u older ⟨newer, hsplit.symm⟩ v ((hnext u v).mpr huv) with hold | hret | heq
  · -- every way to `u` leads through `v`, so `v` is still open when `u` is finished
    exact absurd hold (hs.late u older ⟨newer, hsplit.symm⟩ v hdom hne.symm)
  · exact hret
  · exact absurd heq hne

/-- Where the links that do not lead to a dominator go up in a numbering, a search from the root
finds exactly the others to go back. -/
theorem mem_retreating_iff (hne : ∀ u, ¬g.Next u u)
    (hreach : ∀ u v, g.Next u v → ReflTransGen g.Next root u) {rank : String → Nat}
    (hrank : ∀ u v, g.Next u v → ¬g.Dominates root v u → rank u < rank v) {u v : String} :
    (u, v) ∈ (g.trace next [root]).retreating ↔ g.Next u v ∧ g.Dominates root v u := by
  constructor
  · intro hret
    obtain ⟨-, hmem, -, hway⟩ := (trace_sorted_of_root hnext hids hroot).1.back u v hret
    have huv := (hnext u v).mp hmem
    refine ⟨huv, ?_⟩
    by_contra hdom
    -- the way from `v` down to `u` goes up in the numbering, and so does the link from `u` to `v`
    have hup : rank v ≤ rank u := by
      clear hret hmem huv hdom
      induction hway with
      | refl => exact Nat.le_refl _
      | tail _ hxy ih =>
        exact Nat.le_trans ih (Nat.le_of_lt (hrank _ _ ((hnext _ _).mp hxy.1) hxy.2))
    have := hrank u v huv hdom
    omega
  · rintro ⟨huv, hdom⟩
    refine mem_retreating_of_dominates hnext hids hroot (hreach u v huv) huv ?_ hdom
    rintro rfl
    exact hne u huv

end Search

end Graph

end Flowscript
