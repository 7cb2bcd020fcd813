/-
Ways through the graph of a workflow.

`Graph.Next u v` says that a link leads from `u` to `v`, and `Graph.Past e u v` that it does so
without touching `e`.  The searches of the loop analysis are read as statements about ways:

* `mem_reachWithout` — what a search with `blocked` taken out finds;
* `mem_cycle` — the cycle of an entry is the entry with every vertex from which a way past the
  entry leads to a tail;
* `exists_first_step` — a way from `e` to another vertex leaves `e` for the last time;
* `last_visit`, `first_visit` — the order in which a way visits two vertices.

A way can also be given as the list of the vertices on it (`reach_of_chain`, `reach_last`,
`reach_of_first`, `exists_chain`).
-/
import Flowscript.Loop
import Flowscript.Proofs.Search
import Flowscript.Proofs.Sorting
import Mathlib.Data.List.Chain

open Relation

namespace Flowscript

theorem reach_of_chain {α : Type} {r : α → α → Prop} {u v : α} {p : List α} (h : p.IsChain r)
    (hfirst : p.head? = some u) (hlast : p.getLast? = some v) : ReflTransGen r u v := by
  have hne : p ≠ [] := by
    rintro rfl
    exact absurd hfirst (by simp)
  have hu : p.head hne = u := Option.some.inj ((List.head?_eq_some_head hne).symm.trans hfirst)
  have hv : p.getLast hne = v :=
    Option.some.inj ((List.getLast?_eq_some_getLast hne).symm.trans hlast)
  have := List.relationReflTransGen_of_exists_isChain p h hne
  rwa [hu, hv] at this

/-- Every vertex on a way leads to its end. -/
theorem reach_last {α : Type} {r : α → α → Prop} {x v : α} {p : List α} (h : p.IsChain r)
    (hlast : p.getLast? = some v) (hx : x ∈ p) : ReflTransGen r x v := by
  obtain ⟨before, after, rfl⟩ := List.append_of_mem hx
  refine reach_of_chain (List.isChain_split.mp h).2 rfl ?_
  rwa [List.getLast?_append_of_ne_nil _ (List.cons_ne_nil _ _)] at hlast

/-- The start of a way leads to every vertex on it. -/
theorem reach_of_first {α : Type} {r : α → α → Prop} {u x : α} {p : List α} (h : p.IsChain r)
    (hfirst : p.head? = some u) (hx : x ∈ p) : ReflTransGen r u x := by
  obtain ⟨before, after, rfl⟩ := List.append_of_mem hx
  refine reach_of_chain (List.isChain_split.mp h).1 ?_ List.getLast?_concat
  rw [List.head?_append] at hfirst ⊢
  exact hfirst

/-- A way can be cut down to one that visits no vertex twice. -/
theorem exists_chain {α : Type} {r : α → α → Prop} {P : α → Prop} {u v : α} (hu : P u)
    (h : ReflTransGen (fun x y => r x y ∧ P y) u v) :
    ∃ p : List α, p.IsChain r ∧ p.Nodup ∧ p.head? = some u ∧ p.getLast? = some v ∧
      ∀ x ∈ p, P x := by
  induction h with
  | refl => exact ⟨[u], .singleton u, by simp, rfl, rfl, by simpa using hu⟩
  | @tail x y _ hxy ih =>
    obtain ⟨p, hchain, hnodup, hfirst, hlast, hp⟩ := ih
    by_cases hy : y ∈ p
    · -- the way has been at `y` before, so it can stop there
      obtain ⟨earlier, later, rfl⟩ := List.append_of_mem hy
      have hsub : (earlier ++ [y]).Sublist (earlier ++ y :: later) :=
        List.Sublist.append_left (List.singleton_sublist.mpr List.mem_cons_self) earlier
      refine ⟨earlier ++ [y], (List.isChain_split.mp hchain).1, hnodup.sublist hsub, ?_, by simp,
        fun z hz => hp z (hsub.subset hz)⟩
      rw [List.head?_append] at hfirst ⊢
      exact hfirst
    · refine ⟨p ++ [y], ?_, ?_, ?_, List.getLast?_concat, ?_⟩
      · refine hchain.append (.singleton y) ?_
        rw [hlast]
        simpa using hxy.1
      · refine List.nodup_append.mpr ⟨hnodup, by simp, fun a ha b hb hab => hy ?_⟩
        exact List.mem_singleton.mp hb ▸ hab ▸ ha
      · rw [List.head?_append, hfirst]
        rfl
      · exact List.forall_mem_append.mpr ⟨hp, by simpa using hxy.2⟩

namespace Graph

variable {g : Graph}

/-- A link leads from `u` to `v`. -/
def Next (g : Graph) (u v : String) : Prop := ∃ l ∈ g.links, l.source = u ∧ l.target = v

/-- A link leads from `u` to `v`, and neither is `e`. -/
def Past (g : Graph) (e u v : String) : Prop := g.Next u v ∧ u ≠ e ∧ v ≠ e

@[simp] theorem mem_outgoing {l : Link} {id : String} :
    l ∈ g.outgoing id ↔ l ∈ g.links ∧ l.source = id := by
  simp [outgoing]

@[simp] theorem mem_incoming {l : Link} {id : String} :
    l ∈ g.incoming id ↔ l ∈ g.links ∧ l.target = id := by
  simp [incoming]

theorem mem_nextNewest {u v : String} : v ∈ g.nextNewest u ↔ g.Next u v := by
  simp only [nextNewest, List.mem_map, List.mem_reverse, mem_outgoing, Next, and_assoc]

theorem length_outgoing (id : String) :
    (g.outgoing id).length = g.links.countP fun l => l.source = id := by
  simp [outgoing, List.countP_eq_length_filter, beq_eq_decide]

theorem length_incoming (id : String) :
    (g.incoming id).length = g.links.countP fun l => l.target = id := by
  simp [incoming, List.countP_eq_length_filter, beq_eq_decide]

/-- Breadth-first search along links, each taken at most once, finds what can be reached. -/
theorem mem_reach {next : String → List String} {starts : List String} (key : Link → String)
    (hnext : ∀ v, (next v).length ≤ g.links.countP fun l => key l = v) {v : String} :
    v ∈ g.reach next starts ↔ ∃ s ∈ starts, ReflTransGen (Follows next) s v :=
  mem_breadthFirst hnext (Nat.lt_succ_self _)

theorem length_nextNewest (id : String) :
    (g.nextNewest id).length = g.links.countP fun l => l.source = id := by
  rw [← length_outgoing, nextNewest, List.length_map, List.length_reverse]

theorem mem_reach_nextNewest {starts : List String} {v : String} :
    v ∈ g.reach g.nextNewest starts ↔ ∃ s ∈ starts, ReflTransGen g.Next s v := by
  rw [mem_reach Link.source fun v => Nat.le_of_eq (length_nextNewest v)]
  have hfollows : Follows g.nextNewest = g.Next := by
    funext u v
    exact propext mem_nextNewest
  rw [hfollows]

theorem mem_reachWithout {start blocked v : String} (hne : start ≠ blocked) :
    v ∈ g.reachWithout start blocked ↔ ReflTransGen (g.Past blocked) start v := by
  have hlength : ∀ v, ((g.nextNewest v).filter (· ≠ blocked)).length ≤
      g.links.countP fun l => l.source = v := by
    intro v
    rw [← length_nextNewest]
    exact List.length_filter_le _ _
  rw [reachWithout, mem_reach Link.source hlength]
  simp only [List.mem_singleton, exists_eq_left]
  constructor
  · intro h
    -- no vertex on the way is `blocked`, not even the last one
    suffices ReflTransGen (g.Past blocked) start v ∧ v ≠ blocked from this.1
    induction h with
    | refl => exact ⟨.refl, hne⟩
    | tail _ huv ih =>
      obtain ⟨hmem, hv⟩ := List.mem_filter.mp huv
      have hv := of_decide_eq_true hv
      exact ⟨ih.1.tail ⟨mem_nextNewest.mp hmem, ih.2, hv⟩, hv⟩
  · intro h
    refine ReflTransGen.mono (fun u v huv => ?_) _ _ h
    exact List.mem_filter.mpr ⟨mem_nextNewest.mpr huv.1, decide_eq_true huv.2.2⟩

theorem mem_cycle {entry : String} {tails : List String} (htails : entry ∉ tails) {v : String} :
    v ∈ g.cycle entry tails ↔
      v = entry ∨ ∃ u ∈ tails, ReflTransGen (g.Past entry) v u := by
  have hlength : ∀ v, (((g.incoming v).map Link.source).filter (· ≠ entry)).length ≤
      g.links.countP fun l => l.target = v := by
    intro v
    rw [← length_incoming]
    exact Nat.le_trans (List.length_filter_le _ _) (Nat.le_of_eq (List.length_map _))
  rw [cycle, List.mem_cons, mem_reach Link.target hlength]
  refine or_congr_right (exists_congr fun u => and_congr_right fun hu => ?_)
  -- the search goes against the links
  rw [← reflTransGen_swap]
  constructor
  · intro h
    suffices ReflTransGen (g.Past entry) v u ∧ v ≠ entry from this.1
    induction h using ReflTransGen.head_induction_on with
    | refl => exact ⟨.refl, fun he => htails (he ▸ hu)⟩
    | head hxy _ ih =>
      obtain ⟨hmem, hx⟩ := List.mem_filter.mp hxy
      obtain ⟨l, hl, rfl⟩ := List.mem_map.mp hmem
      have hx := of_decide_eq_true hx
      obtain ⟨hl, htarget⟩ := mem_incoming.mp hl
      exact ⟨.head ⟨⟨l, hl, rfl, htarget⟩, hx, ih.2⟩ ih.1, hx⟩
  · intro h
    refine ReflTransGen.mono (fun x y hxy => ?_) _ _ h
    obtain ⟨⟨l, hl, rfl, rfl⟩, hx, _⟩ := hxy
    exact List.mem_filter.mpr
      ⟨List.mem_map_of_mem (mem_incoming.mpr ⟨hl, rfl⟩), decide_eq_true hx⟩

/-- A way from `e` to another vertex leaves `e` for the last time. -/
theorem exists_first_step {e v : String} (h : ReflTransGen g.Next e v) (hne : v ≠ e) :
    ∃ u, g.Next e u ∧ u ≠ e ∧ ReflTransGen (g.Past e) u v := by
  induction h with
  | refl => exact absurd rfl hne
  | @tail x y _ hxy ih =>
    by_cases hx : x = e
    · exact ⟨y, hx ▸ hxy, hne, .refl⟩
    · obtain ⟨u, heu, hu, hux⟩ := ih hx
      exact ⟨u, heu, hu, hux.tail ⟨hxy, hx, hne⟩⟩

/-- A way to `e` from another vertex comes to `e` for the first time. -/
theorem exists_last_step {e u : String} (h : ReflTransGen g.Next u e) (hne : u ≠ e) :
    ∃ v, ReflTransGen (g.Past e) u v ∧ v ≠ e ∧ g.Next v e := by
  induction h using ReflTransGen.head_induction_on with
  | refl => exact absurd rfl hne
  | @head x y hxy _ ih =>
    by_cases hy : y = e
    · exact ⟨x, .refl, hne, hy ▸ hxy⟩
    · obtain ⟨v, hyv, hv, hve⟩ := ih hy
      exact ⟨v, .head ⟨hxy, hne, hy⟩ hyv, hv, hve⟩

theorem ne_of_past {e u v : String} (h : ReflTransGen (g.Past e) u v) (hu : u ≠ e) : v ≠ e := by
  induction h with
  | refl => exact hu
  | tail _ hxy _ => exact hxy.2.2

section TwoVertices

variable {root e e' v : String} (hne : e ≠ e') (hr : root ≠ e) (hr' : root ≠ e')
include hne hr hr'

/-- A way from `root` keeps off both of two vertices, or has a last visit of one of them. -/
theorem last_visit (h : ReflTransGen g.Next root v) :
    ReflTransGen (g.Past e) root v ∧ ReflTransGen (g.Past e') root v ∨
      ReflTransGen (g.Past e) e' v ∨ ReflTransGen (g.Past e') e v := by
  induction h with
  | refl => exact .inl ⟨.refl, .refl⟩
  | @tail x y _ hxy ih =>
    -- a visit of one of the two starts the way past the other anew
    by_cases hy : y = e
    · exact .inr (.inr (hy ▸ .refl))
    · by_cases hy' : y = e'
      · exact .inr (.inl (hy' ▸ .refl))
      · rcases ih with ⟨h, h'⟩ | h | h
        · exact .inl ⟨h.tail ⟨hxy, ne_of_past h hr, hy⟩, h'.tail ⟨hxy, ne_of_past h' hr', hy'⟩⟩
        · exact .inr (.inl (h.tail ⟨hxy, ne_of_past h hne.symm, hy⟩))
        · exact .inr (.inr (h.tail ⟨hxy, ne_of_past h hne, hy'⟩))

/-- Of two vertices the first to be visited can be reached past the other. -/
theorem first_visit (h : ReflTransGen g.Next root v) :
    ReflTransGen (g.Past e) root v ∧ ReflTransGen (g.Past e') root v ∨
      ReflTransGen (g.Past e') root e ∨ ReflTransGen (g.Past e) root e' := by
  induction h with
  | refl => exact .inl ⟨.refl, .refl⟩
  | @tail x y _ hxy ih =>
    rcases ih with ⟨h, h'⟩ | h
    · have hx := ne_of_past h hr
      have hx' := ne_of_past h' hr'
      by_cases hy : y = e
      · subst hy
        exact .inr (.inl (h'.tail ⟨hxy, hx', hne⟩))
      · by_cases hy' : y = e'
        · subst hy'
          exact .inr (.inr (h.tail ⟨hxy, hx, hne.symm⟩))
        · exact .inl ⟨h.tail ⟨hxy, hx, hy⟩, h'.tail ⟨hxy, hx', hy'⟩⟩
    · exact .inr h

end TwoVertices

end Graph

end Flowscript
