/-
Breadth-first search from the nearest vertices outwards.

`breadthFirst` marks a vertex when it leaves the queue, so a vertex may wait in the queue more than
once.  A `Frontier` is the state of a search that marks a vertex when it enters the queue:

* `Frontier.iterate_step` — both visit the same vertices in the same order, since the queue of the
  one is that of the other without the vertices that are done and without repetitions;
* `Frontier.Layered.step` — at each step the queue is sorted by the distance from the start, and
  all of it is at the distance of its first vertex or one further away;
* `Frontier.breadthFirst_sorted` — so vertices are visited in the order of their distance.
-/
import Flowscript.Proofs.Search
import Mathlib.Logic.Function.Iterate

open Relation

namespace Flowscript

variable {α : Type} [DecidableEq α] {next : α → List α}

/-! ### Vertices that are new -/

/-- The vertices of a list that are not among `seen`, each where it comes first. -/
def fresh : List α → List α → List α
  | [], _ => []
  | v :: vs, seen => if v ∈ seen then fresh vs seen else v :: fresh vs (v :: seen)

theorem mem_fresh {v : α} {vs seen : List α} : v ∈ fresh vs seen ↔ v ∈ vs ∧ v ∉ seen := by
  fun_induction fresh vs seen with
  | case1 => simp
  | case2 u vs seen hu ih =>
    rw [ih, List.mem_cons]
    exact ⟨fun h => ⟨.inr h.1, h.2⟩, fun h => ⟨h.1.resolve_left fun heq => h.2 (heq ▸ hu), h.2⟩⟩
  | case3 u vs seen hu ih =>
    rw [List.mem_cons, ih, List.mem_cons, List.mem_cons]
    by_cases hv : v = u
    · simp [hv, hu]
    · simp [hv]

theorem fresh_congr {vs seen seen' : List α} (h : ∀ v, v ∈ seen ↔ v ∈ seen') :
    fresh vs seen = fresh vs seen' := by
  induction vs generalizing seen seen' with
  | nil => rfl
  | cons v vs ih =>
    rw [fresh, fresh, ih h, @ih (v :: seen) (v :: seen') fun u => by simp [h u]]
    simp only [h v]

theorem fresh_append (vs ws seen : List α) :
    fresh (vs ++ ws) seen = fresh vs seen ++ fresh ws (vs ++ seen) := by
  induction vs generalizing seen with
  | nil => rfl
  | cons v vs ih =>
    rw [List.cons_append, fresh, fresh, ih, ih]
    split
    · rename_i hv
      congr 1
      exact fresh_congr fun u => by simp only [List.mem_cons, List.mem_append]; grind
    · rw [List.cons_append]
      congr 2
      exact fresh_congr fun u => by simp only [List.mem_cons, List.mem_append]; grind

/-! ### Marking on entry -/

/-- The course of a breadth-first search so far. -/
structure Frontier (α : Type) where
  queue : List α
  /-- Vertices that have entered the queue. -/
  marked : List α
  /-- Vertices that have left the queue, in order. -/
  visited : List α := []

namespace Frontier

/-- The search before its first step. -/
def start (v : α) : Frontier α := { queue := [v], marked := [v] }

/-- Puts a vertex into the queue and marks it, unless it is marked. -/
def enter (f : Frontier α) (v : α) : Frontier α :=
  if v ∈ f.marked then f else { f with queue := f.queue ++ [v], marked := v :: f.marked }

/-- Takes the first vertex from the queue and has its neighbours enter in turn. -/
def step (next : α → List α) (f : Frontier α) : Frontier α :=
  match f.queue with
  | [] => f
  | v :: queue => (next v).foldl enter { f with queue, visited := f.visited ++ [v] }

theorem foldl_enter (vs : List α) : ∀ f : Frontier α,
    (vs.foldl enter f).queue = f.queue ++ fresh vs f.marked ∧
      (∀ v, v ∈ (vs.foldl enter f).marked ↔ v ∈ f.marked ∨ v ∈ vs) ∧
      (vs.foldl enter f).visited = f.visited := by
  induction vs with
  | nil => exact fun f => ⟨(List.append_nil _).symm, by simp, rfl⟩
  | cons v vs ih =>
    intro f
    rw [List.foldl_cons, fresh]
    by_cases hv : v ∈ f.marked
    · rw [enter, if_pos hv, if_pos hv]
      obtain ⟨hqueue, hmarked, hvisited⟩ := ih f
      refine ⟨hqueue, fun u => ?_, hvisited⟩
      rw [hmarked, List.mem_cons]
      exact ⟨Or.imp_right .inr, fun h => h.elim .inl (Or.imp_left fun heq => heq ▸ hv)⟩
    · rw [enter, if_neg hv, if_neg hv]
      obtain ⟨hqueue, hmarked, hvisited⟩ :=
        ih { f with queue := f.queue ++ [v], marked := v :: f.marked }
      refine ⟨hqueue.trans (List.append_assoc _ _ _), fun u => ?_, hvisited⟩
      rw [hmarked, List.mem_cons, List.mem_cons]
      tauto

/-- What a step does to a queue that is not empty. -/
theorem step_cons (next : α → List α) {f : Frontier α} {v : α} {queue : List α}
    (h : f.queue = v :: queue) :
    (f.step next).queue = queue ++ fresh (next v) f.marked ∧
      (∀ u, u ∈ (f.step next).marked ↔ u ∈ f.marked ∨ u ∈ next v) ∧
      (f.step next).visited = f.visited ++ [v] := by
  simp only [step, h]
  exact foldl_enter (next v) { f with queue, visited := f.visited ++ [v] }

/-- A search that marks on entry visits what `breadthFirst` visits, one vertex at a step. -/
theorem iterate_step {β : Type} {items : List β} {key : β → α}
    (hnext : ∀ v, (next v).length ≤ items.countP fun b => key b = v) {steps : Nat}
    {queue seen : List α}
    (hsteps : queue.length + items.countP (fun b => key b ∉ seen) < steps) {f : Frontier α}
    (hqueue : f.queue = fresh queue seen) (hmarked : ∀ v, v ∈ f.marked ↔ v ∈ queue ++ seen) :
    ((step next)^[(breadthFirst next steps queue seen).length] f).queue = [] ∧
      ((step next)^[(breadthFirst next steps queue seen).length] f).visited =
        f.visited ++ breadthFirst next steps queue seen := by
  fun_induction breadthFirst next steps queue seen generalizing f with
  | case1 => omega
  | case2 => exact ⟨hqueue, (List.append_nil _).symm⟩
  | case3 steps u queue seen hu ih =>
    -- what is done already was marked before it came to the queue again
    rw [List.length_cons] at hsteps
    rw [fresh, if_pos hu] at hqueue
    refine ih (by omega) hqueue fun v => ?_
    rw [hmarked, List.cons_append, List.mem_cons, or_iff_right_of_imp]
    exact fun heq => heq ▸ List.mem_append_right _ hu
  | case4 steps u queue seen hu ih =>
    rw [List.length_cons, countP_notMem_cons items key hu] at hsteps
    rw [fresh, if_neg hu] at hqueue
    obtain ⟨hqueue', hmarked', hvisited'⟩ := step_cons next hqueue
    have hbehind : (f.step next).queue = fresh (queue ++ next u) (u :: seen) := by
      rw [hqueue', fresh_append]
      congr 1
      refine fresh_congr fun v => (hmarked v).trans ?_
      simp only [List.mem_append, List.mem_cons]
      tauto
    have hmark : ∀ v, v ∈ (f.step next).marked ↔ v ∈ (queue ++ next u) ++ u :: seen := by
      intro v
      rw [hmarked', hmarked]
      simp only [List.mem_append, List.mem_cons]
      tauto
    have hlen := hnext u
    obtain ⟨hempty, hvisited⟩ := ih (by rw [List.length_append]; omega) hbehind hmark
    rw [List.length_cons, Function.iterate_succ_apply]
    refine ⟨hempty, ?_⟩
    rw [hvisited, hvisited', List.append_assoc, List.singleton_append]

/-! ### Distances -/

/-- The numbers `d` measure how far vertices are from `s`: a neighbour is at most one further
away, and each vertex but `s` is a neighbour of a nearer one. -/
structure Measures (next : α → List α) (s : α) (d : α → Nat) : Prop where
  le_succ : ∀ {u v}, ReflTransGen (Follows next) s u → v ∈ next u → d v ≤ d u + 1
  exists_nearer : ∀ {v}, ReflTransGen (Follows next) s v → v ≠ s →
    ∃ u, ReflTransGen (Follows next) s u ∧ v ∈ next u ∧ d u < d v

/-- The queue has vertices of two distances at most, the nearer ones first, and none of those
visited is further away. -/
structure Layered (next : α → List α) (s : α) (d : α → Nat) (f : Frontier α) : Prop where
  mem_marked : ∀ v, v ∈ f.marked ↔ v ∈ f.visited ∨ v ∈ f.queue
  start : s ∈ f.marked
  reach : ∀ v ∈ f.marked, ReflTransGen (Follows next) s v
  closed : ∀ u ∈ f.visited, ∀ v ∈ next u, v ∈ f.marked
  sorted : (f.visited ++ f.queue).Pairwise fun u v => d u ≤ d v
  near : ∀ u ∈ f.queue, ∀ v ∈ f.queue, d v ≤ d u + 1

section Distance

variable {s : α} {d : α → Nat} (hd : Measures next s d) {f : Frontier α}
include hd

/-- What is not marked yet is further away than the first vertex of the queue. -/
theorem Layered.lt_of_notMem (hf : f.Layered next s d) {u : α} {queue : List α}
    (hqueue : f.queue = u :: queue) {v : α} (hv : ReflTransGen (Follows next) s v)
    (hnew : v ∉ f.marked) : d u < d v := by
  -- by induction on the distance: a nearer vertex is in the queue, or not marked either
  induction hn : d v using Nat.strongRecOn generalizing v with
  | _ n ih =>
    subst hn
    obtain ⟨x, hx, hxv, hlt⟩ := hd.exists_nearer hv fun heq => hnew (heq ▸ hf.start)
    by_cases hmark : x ∈ f.marked
    · have hsorted := (List.pairwise_append.mp hf.sorted).2.1
      rw [hqueue, List.pairwise_cons] at hsorted
      rcases (hf.mem_marked x).mp hmark with hmem | hmem
      · exact absurd (hf.closed x hmem v hxv) hnew
      · rw [hqueue, List.mem_cons] at hmem
        rcases hmem with rfl | hmem
        · exact hlt
        · exact Nat.lt_of_le_of_lt (hsorted.1 x hmem) hlt
    · exact Nat.lt_trans (ih (d x) hlt hx hmark rfl) hlt

/-- The vertices that enter are one further away than the one that leaves. -/
theorem Layered.eq_succ_of_fresh (hf : f.Layered next s d) {u : α} {queue : List α}
    (hqueue : f.queue = u :: queue) {v : α} (hv : v ∈ fresh (next u) f.marked) :
    d v = d u + 1 := by
  obtain ⟨hv, hnew⟩ := mem_fresh.mp hv
  have hu : ReflTransGen (Follows next) s u :=
    hf.reach u ((hf.mem_marked u).mpr (.inr (by simp [hqueue])))
  exact Nat.le_antisymm (hd.le_succ hu hv) (hf.lt_of_notMem hd hqueue (hu.tail hv) hnew)

omit [DecidableEq α] hd in
/-- What was marked before is one further away at most. -/
theorem Layered.le_succ (hf : f.Layered next s d) {u : α} {queue : List α}
    (hqueue : f.queue = u :: queue) {v : α} (hv : v ∈ f.visited ++ f.queue) : d v ≤ d u + 1 := by
  have hfirst : u ∈ f.queue := by simp [hqueue]
  rcases List.mem_append.mp hv with hv | hv
  · exact Nat.le_succ_of_le ((List.pairwise_append.mp hf.sorted).2.2 v hv u hfirst)
  · exact hf.near u hfirst v hv

/-- A step keeps the layers. -/
theorem Layered.step (hf : f.Layered next s d) : (f.step next).Layered next s d := by
  cases hqueue : f.queue with
  | nil =>
    rw [Frontier.step, hqueue]
    exact hf
  | cons u queue =>
    obtain ⟨hqueue', hmarked', hvisited'⟩ := step_cons next hqueue
    have hu : ReflTransGen (Follows next) s u :=
      hf.reach u ((hf.mem_marked u).mpr (.inr (by simp [hqueue])))
    have hfresh : ∀ v ∈ fresh (next u) f.marked, d v = d u + 1 :=
      fun v hv => hf.eq_succ_of_fresh hd hqueue hv
    refine ⟨fun v => ?_, (hmarked' s).mpr (.inl hf.start), fun v hv => ?_, fun x hx v hv => ?_,
      ?_, fun x hx v hv => ?_⟩
    · rw [hmarked', hvisited', hqueue']
      simp only [List.mem_append, List.mem_cons, mem_fresh, hf.mem_marked, hqueue,
        List.not_mem_nil]
      tauto
    · rcases (hmarked' v).mp hv with hv | hv
      · exact hf.reach v hv
      · exact hu.tail hv
    · rw [hvisited', List.mem_append, List.mem_singleton] at hx
      rcases hx with hx | rfl
      · exact (hmarked' v).mpr (.inl (hf.closed x hx v hv))
      · exact (hmarked' v).mpr (.inr hv)
    · -- the vertices that enter stand behind all others
      rw [hvisited', hqueue', List.append_assoc, List.singleton_append, ← List.cons_append,
        ← List.append_assoc, ← hqueue]
      refine List.pairwise_append.mpr ⟨hf.sorted, ?_, fun x hx v hv => ?_⟩
      · refine List.pairwise_of_forall_mem_list fun x hx v hv => ?_
        exact Nat.le_of_eq ((hfresh x hx).trans (hfresh v hv).symm)
      · rw [hfresh v hv]
        exact hf.le_succ hqueue hx
    · rw [hqueue', List.mem_append] at hx hv
      have hsorted := (List.pairwise_append.mp hf.sorted).2.1
      rw [hqueue, List.pairwise_cons] at hsorted
      have hlow : d u ≤ d x := by
        rcases hx with hx | hx
        · exact hsorted.1 x hx
        · exact hfresh x hx ▸ Nat.le_succ _
      have hhigh : d v ≤ d u + 1 := by
        rcases hv with hv | hv
        · exact hf.le_succ hqueue (List.mem_append_right _ (by simp [hqueue, hv]))
        · exact Nat.le_of_eq (hfresh v hv)
      omega

theorem Layered.iterate (hf : f.Layered next s d) (n : Nat) :
    ((Frontier.step next)^[n] f).Layered next s d := by
  induction n with
  | zero => exact hf
  | succ n ih =>
    rw [Function.iterate_succ_apply']
    exact ih.step hd

omit hd [DecidableEq α] in
theorem layered_start (s : α) (d : α → Nat) : (start s).Layered next s d := by
  refine ⟨?_, ?_, ?_, ?_, ?_, ?_⟩ <;> simp [start, ReflTransGen.refl]

end Distance

section Search

variable {β : Type} {items : List β} {key : β → α}
  (hnext : ∀ v, (next v).length ≤ items.countP fun b => key b = v)
include hnext

/-- The search from one vertex empties its queue and has then visited what `breadthFirst` does. -/
theorem iterate_start {steps : Nat} (hsteps : 1 + items.length < steps) (s : α) :
    ((step next)^[(breadthFirst next steps [s] []).length] (start s)).queue = [] ∧
      ((step next)^[(breadthFirst next steps [s] []).length] (start s)).visited =
        breadthFirst next steps [s] [] := by
  have hcount : items.countP (fun b => key b ∉ ([] : List α)) ≤ items.length :=
    List.countP_le_length
  refine iterate_step hnext (by rw [List.length_singleton]; omega) ?_ fun v => ?_
  · rw [fresh, if_neg List.not_mem_nil, fresh]
    rfl
  · rw [List.append_nil]
    rfl

/-- The nearer vertices are visited first. -/
theorem breadthFirst_sorted {steps : Nat} (hsteps : 1 + items.length < steps) {s : α} {d : α → Nat}
    (hd : Measures next s d) :
    (breadthFirst next steps [s] []).Pairwise fun u v => d u ≤ d v := by
  obtain ⟨-, hvisited⟩ := iterate_start hnext hsteps s
  have hsorted := ((layered_start s d).iterate hd (breadthFirst next steps [s] []).length).sorted
  rw [hvisited] at hsorted
  exact (List.pairwise_append.mp hsorted).1

end Search

end Frontier

end Flowscript
