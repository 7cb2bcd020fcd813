/-
The order of dependence is topological.

A stage of the ordering counts for each vertex the forward links from vertices that are not
placed.  `Stage.Good` says that the counts are right, that the ready vertices are those whose
count is zero, and that each placed vertex stands behind the sources of its links.  Releasing a
link and placing a vertex keep it, and on an acyclic graph nothing is left over in the end:

* `order_perm` — the order has every vertex once;
* `mem_of_order` — it has the sources of the forward links of a vertex before the vertex.
-/
import Flowscript.Order
import Flowscript.Proofs.Sound
import Mathlib.Data.List.Perm.Subperm

namespace Flowscript

namespace Order

variable {ids : List String} {deps : String → List String}

/-- The links into `v` that are not taken into account yet: those from vertices that are not
placed, and those of the vertex placed last whose targets are still `pending`. -/
def left (deps : String → List String) (placed pending : List String) (v : String) : Nat :=
  (deps v).countP (fun u => u ∉ placed) + pending.count v

/-- What holds while the vertices are placed: the counts are those of the links that are left, the
vertices with none left are ready or placed, none of them twice, and a vertex is placed after all that
it depends on. -/
structure Stage.Good (ids : List String) (deps : String → List String) (pending : List String)
    (s : Stage) : Prop where
  waiting : s.waiting = ids.map fun v => (v, left deps s.placed pending v)
  ready : ∀ v, v ∈ s.ready ∨ v ∈ s.placed ↔ v ∈ ids ∧ left deps s.placed pending v = 0
  nodup : (s.ready ++ s.placed).Nodup
  sorted : ∀ earlier v, earlier ++ [v] <+: s.placed → ∀ u ∈ deps v, u ∈ earlier

/-- The ready vertices are those that are not placed, but wait for placed ones only. -/
theorem Stage.Good.mem_ready {s : Stage} (hs : s.Good ids deps []) {v : String} :
    v ∈ s.ready ↔ v ∈ ids ∧ v ∉ s.placed ∧ ∀ u ∈ deps v, u ∈ s.placed := by
  have hready := hs.ready v
  rw [left, List.count_nil, Nat.add_zero, List.countP_eq_zero] at hready
  simp only [decide_eq_true_eq, not_not] at hready
  constructor
  · intro hv
    have hnew : v ∉ s.placed := fun h => (List.nodup_append.mp hs.nodup).2.2 v hv v h rfl
    obtain ⟨hids, hdeps⟩ := hready.mp (.inl hv)
    exact ⟨hids, hnew, hdeps⟩
  · rintro ⟨hids, hnew, hdeps⟩
    exact (hready.mpr ⟨hids, hdeps⟩).resolve_right hnew

theorem notMem_of_nodup {earlier later : List String} {v : String}
    (h : (earlier ++ v :: later).Nodup) : v ∉ earlier :=
  fun hmem => (List.nodup_append.mp h).2.2 v hmem v List.mem_cons_self rfl

theorem smallest?_cases (vs : List String) :
    (smallest? vs = none ∧ vs = []) ∨ ∃ v ∈ vs, smallest? vs = some v ∧ ∀ u ∈ vs, v ≤ u := by
  induction vs with
  | nil => exact .inl ⟨rfl, rfl⟩
  | cons v vs ih =>
    right
    rcases ih with ⟨hnone, rfl⟩ | ⟨x, hx, hsome, hleast⟩
    · exact ⟨v, List.mem_cons_self, by rw [smallest?, hnone], by simp⟩
    · rw [smallest?, hsome]
      by_cases hlt : x < v
      · refine ⟨x, List.mem_cons_of_mem _ hx, by simp [hlt], List.forall_mem_cons.mpr ?_⟩
        exact ⟨String.not_lt.mp (String.lt_asymm hlt), hleast⟩
      · refine ⟨v, List.mem_cons_self, by simp [hlt], List.forall_mem_cons.mpr ?_⟩
        exact ⟨String.le_refl v, fun u hu => String.le_trans (String.not_lt.mp hlt) (hleast u hu)⟩

theorem lookup_map {f : String → Nat} {v : String} (hv : v ∈ ids) :
    (ids.map fun id => (id, f id)).lookup v = some (f v) := by
  induction ids with
  | nil => simp at hv
  | cons id rest ih =>
    rw [List.map_cons, List.lookup_cons]
    by_cases h : v = id
    · simp [h]
    · rw [beq_false_of_ne h]
      exact ih ((List.mem_cons.mp hv).resolve_left h)

/-- A vertex with a pending link still waits for it. -/
theorem Stage.Good.lookup_waiting {pending : List String} {s : Stage} {v : String} (hv : v ∈ ids)
    (hs : s.Good ids deps (v :: pending)) :
    s.waiting.lookup v = some (left deps s.placed pending v + 1) := by
  rw [hs.waiting, lookup_map hv, left, List.count_cons_self, left]
  rfl

/-- Taking one pending link into account. -/
theorem release_good {pending : List String} {s : Stage} {v : String} (hv : v ∈ ids)
    (hs : s.Good ids deps (v :: pending)) : (release s v).Good ids deps pending := by
  have hother : ∀ u, u ≠ v →
      left deps s.placed (v :: pending) u = left deps s.placed pending u := by
    intro u hu
    rw [left, List.count_cons_of_ne hu.symm, left]
  have hpos : left deps s.placed (v :: pending) v ≠ 0 := by
    rw [left, List.count_cons_self]
    omega
  have hwaiting : ∀ f : String × Nat → String × Nat,
      (∀ id k, f (id, k) = if id = v then (id, k - 1) else (id, k)) →
      s.waiting.map f = ids.map fun u => (u, left deps s.placed pending u) := by
    intro f hf
    rw [hs.waiting, List.map_map]
    refine List.map_congr_left fun u _ => ?_
    by_cases hu : u = v
    · subst hu
      simp [hf, left, ← Nat.add_assoc]
    · simp [hf, hu, hother u hu]
  have hnew : v ∉ s.ready ++ s.placed := by
    intro hmem
    exact hpos ((hs.ready v).mp (List.mem_append.mp hmem)).2
  -- the vertex gets ready when its last link is released
  simp only [release, hs.lookup_waiting hv, Nat.add_sub_cancel]
  split
  · rename_i hzero
    refine ⟨hwaiting _ fun _ _ => rfl, fun u => ?_, List.nodup_cons.mpr ⟨hnew, hs.nodup⟩, hs.sorted⟩
    by_cases hu : u = v
    · simp [hu, hv, hzero]
    · rw [List.mem_cons, or_iff_right hu, hs.ready u, hother u hu]
  · rename_i hzero
    refine ⟨hwaiting _ fun _ _ => rfl, fun u => ?_, hs.nodup, hs.sorted⟩
    by_cases hu : u = v
    · subst hu
      rw [hs.ready u]
      exact ⟨fun h => absurd h.2 hpos, fun h => absurd h.2 hzero⟩
    · rw [hs.ready u, hother u hu]

theorem foldl_release_placed (pending : List String) : ∀ s : Stage,
    (pending.foldl release s).placed = s.placed := by
  induction pending with
  | nil => exact fun s => rfl
  | cons v pending ih =>
    intro s
    rw [List.foldl_cons, ih, release]
    split
    · rfl
    · split <;> rfl

theorem foldl_release_good {pending : List String} (hp : ∀ v ∈ pending, v ∈ ids) :
    ∀ {s : Stage}, s.Good ids deps pending → (pending.foldl release s).Good ids deps [] := by
  induction pending with
  | nil => exact fun hs => hs
  | cons v pending ih =>
    intro s hs
    exact ih (fun u hu => hp u (List.mem_cons_of_mem _ hu))
      (release_good (hp v List.mem_cons_self) hs)

section Place

variable {next : String → List String} (hdual : ∀ u v, (next u).count v = (deps v).count u)

theorem countP_notMem_append {us placed : List String} {v : String} (hv : v ∉ placed) :
    us.countP (fun u => u ∉ placed ++ [v]) + us.count v = us.countP (fun u => u ∉ placed) := by
  induction us with
  | nil => rfl
  | cons u us ih =>
    by_cases huv : u = v
    · subst huv
      simp [hv] at ih ⊢
      omega
    · by_cases hu : u ∈ placed <;> simp [huv, hu] at ih ⊢ <;> omega

include hdual

/-- Moving a ready vertex to the placed ones, with the links that leave it pending. -/
theorem move_good {s : Stage} {v : String} (hv : v ∈ s.ready) (hs : s.Good ids deps []) :
    ({ s with ready := s.ready.erase v, placed := s.placed ++ [v] } : Stage).Good ids deps
      (next v) := by
  have hnodup := List.nodup_append.mp hs.nodup
  have hnew : v ∉ s.placed := fun h => hnodup.2.2 v hv v h rfl
  have hleft : ∀ u, left deps (s.placed ++ [v]) (next v) u = left deps s.placed [] u := by
    intro u
    rw [left, left, hdual, countP_notMem_append hnew, List.count_nil, Nat.add_zero]
  refine ⟨?_, fun u => ?_, ?_, ?_⟩
  · rw [hs.waiting]
    exact List.map_congr_left fun u _ => by rw [hleft u]
  · rw [hleft u, ← hs.ready u, List.Nodup.mem_erase_iff hnodup.1, List.mem_append,
      List.mem_singleton]
    by_cases huv : u = v
    · simp [huv, hv]
    · simp [huv]
  · refine List.nodup_append.mpr ⟨hnodup.1.erase v, ?_, fun x hx y hy => ?_⟩
    · refine List.nodup_append.mpr ⟨hnodup.2.1, by simp, fun x hx y hy => ?_⟩
      obtain rfl := List.mem_singleton.mp hy
      exact fun hxy => hnew (hxy ▸ hx)
    · obtain ⟨hxv, hx⟩ := (List.Nodup.mem_erase_iff hnodup.1).mp hx
      rcases List.mem_append.mp hy with hy | hy
      · exact hnodup.2.2 x hx y hy
      · obtain rfl := List.mem_singleton.mp hy
        exact hxv
  · intro earlier x hprefix u hu
    rcases List.prefix_concat_iff.mp hprefix with heq | hprefix
    · obtain ⟨rfl, hx⟩ := List.append_inj' heq rfl
      obtain rfl : x = v := List.singleton_inj.mp hx
      have hzero := ((hs.ready x).mp (.inl hv)).2
      rw [left, List.count_nil, Nat.add_zero, List.countP_eq_zero] at hzero
      simpa using hzero u hu
    · exact hs.sorted earlier x hprefix u hu

variable (hnext : ∀ u, ∀ v ∈ next u, v ∈ ids)
include hnext

/-- Placing goes on until no vertex is ready. -/
theorem place_good : ∀ (steps : Nat) (s : Stage), s.Good ids deps [] →
    ids.length ≤ steps + s.placed.length →
    (place next steps s).Good ids deps [] ∧ (place next steps s).ready = [] := by
  intro steps
  induction steps with
  | zero =>
    intro s hs hlen
    refine ⟨hs, ?_⟩
    -- as many are placed as there are, so none is left to be ready
    have hsub : s.ready ++ s.placed ⊆ ids :=
      fun v hv => ((hs.ready v).mp (List.mem_append.mp hv)).1
    have hle := (List.subperm_of_subset hs.nodup hsub).length_le
    rw [List.length_append] at hle
    exact List.length_eq_zero_iff.mp (by rw [place]; omega)
  | succ steps ih =>
    intro s hs hlen
    rcases smallest?_cases s.ready with ⟨hnone, hempty⟩ | ⟨v, hv, hsome, -⟩
    · rw [place, hnone]
      exact ⟨hs, hempty⟩
    · rw [place, hsome]
      refine ih _ (foldl_release_good (hnext v) (move_good hdual hv hs)) ?_
      simp only [foldl_release_placed, List.length_append, List.length_singleton]
      omega

end Place

theorem start_good (deps : String → List String) (hnodup : ids.Nodup) :
    (start ids fun v => (deps v).length).Good ids deps [] := by
  have hleft : ∀ v, left deps [] [] v = (deps v).length := by
    intro v
    simp [left]
  refine ⟨?_, fun v => ?_, ?_, ?_⟩
  · exact List.map_congr_left fun v _ => by rw [start, hleft v]
  · simp [start, hleft v]
  · simpa [start] using hnodup.filter _
  · intro earlier v hprefix
    exact absurd (List.prefix_nil.mp hprefix) (by simp)

end Order

namespace Accepted

variable {a : Accepted}

/-- The targets of the forward links of a node. -/
def next (a : Accepted) (id : String) : List String := (a.forwardOut id).map Link.target

/-- The stage at which the ordering begins. -/
def firstStage (a : Accepted) : Order.Stage :=
  Order.start a.graph.ids fun id => (a.forwardIn id).length

/-- The stage at which the ordering ends, before what is left over is added. -/
def lastStage (a : Accepted) : Order.Stage := Order.place a.next a.graph.ids.length a.firstStage

theorem mem_forwardOut {l : Link} {id : String} :
    l ∈ a.forwardOut id ↔ l ∈ a.graph.links ∧ a.loops.isBack l = false ∧ l.source = id := by
  simp only [forwardOut, List.mem_filter, Graph.mem_outgoing, Bool.not_eq_true']
  tauto

theorem mem_forwardIn {l : Link} {id : String} :
    l ∈ a.forwardIn id ↔ l ∈ a.graph.links ∧ a.loops.isBack l = false ∧ l.target = id := by
  simp only [forwardIn, List.mem_filter, Graph.mem_incoming, Bool.not_eq_true']
  tauto

theorem mem_sources {u v : String} :
    u ∈ (a.forwardIn v).map Link.source ↔ a.Forward u v := by
  simp only [List.mem_map, mem_forwardIn, Forward]
  constructor
  · rintro ⟨l, ⟨hl, hback, htarget⟩, hsource⟩
    exact ⟨l, hl, hback, hsource, htarget⟩
  · rintro ⟨l, hl, hback, hsource, htarget⟩
    exact ⟨l, ⟨hl, hback, htarget⟩, hsource⟩

theorem count_forward (u v : String) :
    (a.next u).count v = ((a.forwardIn v).map Link.source).count u := by
  simp only [next, List.count_eq_countP, List.countP_map, forwardOut, forwardIn, Graph.outgoing,
    Graph.incoming, List.filter_filter, List.countP_filter]
  refine List.countP_congr fun l _ => ?_
  simp
  tauto

namespace Sound

variable (hs : a.Sound)
include hs

theorem next_mem (u : String) : ∀ v ∈ a.next u, v ∈ a.graph.ids := by
  intro v hv
  obtain ⟨l, hl, rfl⟩ := List.mem_map.mp hv
  exact (hs.link_mem l (mem_forwardOut.mp hl).1).2

theorem start_good :
    a.firstStage.Good a.graph.ids (fun v => (a.forwardIn v).map Link.source) [] := by
  simpa only [firstStage, List.length_map] using
    Order.start_good (fun v => (a.forwardIn v).map Link.source) hs.nodup_ids

/-- At the last stage no vertex is ready, since all are placed. -/
theorem placed_good :
    a.lastStage.Good a.graph.ids (fun v => (a.forwardIn v).map Link.source) [] ∧
      a.lastStage.ready = [] ∧ ∀ v ∈ a.graph.ids, v ∈ a.lastStage.placed := by
  obtain ⟨hgood, hready⟩ : a.lastStage.Good _ _ [] ∧ a.lastStage.ready = [] :=
    Order.place_good count_forward hs.next_mem a.graph.ids.length _ hs.start_good (by simp)
  refine ⟨hgood, hready, ?_⟩
  -- by induction on the rank: a vertex whose sources are all placed is not left over
  obtain ⟨rank, hrank⟩ := hs.rank
  intro v
  induction hn : rank v using Nat.strongRecOn generalizing v with
  | _ n ih =>
    intro hv
    refine ((hgood.ready v).mpr ⟨hv, ?_⟩).resolve_left (by rw [hready]; simp)
    rw [Order.left, List.count_nil, Nat.add_zero, List.countP_eq_zero]
    intro u hu
    obtain ⟨l, hl, rfl⟩ := List.mem_map.mp hu
    obtain ⟨hlinks, hback, rfl⟩ := mem_forwardIn.mp hl
    have hlt : rank l.source < n := hn ▸ hrank _ _ ⟨l, hlinks, hback, rfl, rfl⟩
    simpa using ih _ hlt l.source rfl (hs.link_mem l hlinks).1

theorem order_eq : a.order = a.lastStage.placed := by
  have hnone : a.graph.ids.filter (fun id => !a.lastStage.placed.contains id) = [] := by
    refine List.filter_eq_nil_iff.mpr fun v hv => ?_
    simpa using hs.placed_good.2.2 v hv
  have horder : a.order = a.lastStage.placed ++
      sortTexts (a.graph.ids.filter fun id => !a.lastStage.placed.contains id) := rfl
  rw [horder, hnone]
  exact List.append_nil _

/-- The order has every vertex once. -/
theorem order_perm : a.order.Perm a.graph.ids := by
  obtain ⟨hgood, -, hall⟩ := hs.placed_good
  rw [hs.order_eq]
  refine (List.perm_ext_iff_of_nodup (List.nodup_append.mp hgood.nodup).2.1 hs.nodup_ids).mpr ?_
  exact fun v => ⟨fun hv => ((hgood.ready v).mp (.inr hv)).1, hall v⟩

theorem nodup_order : a.order.Nodup := hs.order_perm.nodup_iff.mpr hs.nodup_ids

theorem mem_order {v : String} : v ∈ a.order ↔ v ∈ a.graph.ids := hs.order_perm.mem_iff

/-- The sources of the forward links of a vertex stand before it. -/
theorem mem_of_order {earlier later : List String} {v : String}
    (h : a.order = earlier ++ v :: later) {u : String} (huv : a.Forward u v) : u ∈ earlier := by
  obtain ⟨l, hl, hback, rfl, rfl⟩ := huv
  refine hs.placed_good.1.sorted earlier l.target ?_ l.source ?_
  · rw [← hs.order_eq, h]
    exact ⟨later, by simp⟩
  · exact List.mem_map_of_mem (mem_forwardIn.mpr ⟨hl, hback, rfl⟩)

end Sound

end Accepted

end Flowscript
