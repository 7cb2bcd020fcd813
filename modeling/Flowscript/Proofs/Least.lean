/-
The order of dependence is the least of all.

A permutation of the nodes is topological if every forward link leads onwards in it.  Placing the
smallest vertex that is ready, again and again, gives the topological permutation that comes first
if permutations are compared node by node and ids byte by byte: as long as another one agrees with
what is placed, its next node is ready too, so it is not smaller than the one that is chosen.

* `placed_least` — no sequence in which every vertex stands behind the ones it depends on comes
  before the placed vertices;
* `place?_eq` — a count is never taken below zero, since each link is released once;
* `order_is_least` — what that says about an accepted workflow, where nothing is left over.
-/
import Flowscript.Proofs.Plan.Dependence
import Flowscript.Proofs.Text.Bytes

namespace Flowscript

namespace Order

/-- `release`, but with no result if the count of the target is zero already. -/
def release? (s : Stage) (target : String) : Option Stage :=
  if s.waiting.lookup target = some 0 then none else some (release s target)

/-- `place`, but with no result once a count that is zero would go down. -/
def place? (next : String → List String) : Nat → Stage → Option Stage
  | 0, s => some s
  | steps + 1, s =>
    match smallest? s.ready with
    | none => some s
    | some id => do
      let s ← (next id).foldlM release?
        { s with ready := s.ready.erase id, placed := s.placed ++ [id] }
      place? next steps s

section Place

variable {ids : List String} {deps next : String → List String}

/-! ### Counts do not go below zero -/

theorem release?_eq {pending : List String} {s : Stage} {v : String} (hv : v ∈ ids)
    (hs : s.Good ids deps (v :: pending)) : release? s v = some (release s v) := by
  rw [release?, hs.lookup_waiting hv]
  simp

theorem foldlM_release? {pending : List String} (hp : ∀ v ∈ pending, v ∈ ids) :
    ∀ {s : Stage}, s.Good ids deps pending →
      pending.foldlM release? s = some (pending.foldl release s) := by
  induction pending with
  | nil => exact fun _ => rfl
  | cons v pending ih =>
    intro s hs
    have hv : v ∈ ids := hp v List.mem_cons_self
    rw [List.foldlM_cons, release?_eq hv hs, List.foldl_cons]
    exact ih (fun u hu => hp u (List.mem_cons_of_mem _ hu)) (release_good hv hs)

variable (hdual : ∀ u v, (next u).count v = (deps v).count u) (hnext : ∀ u, ∀ v ∈ next u, v ∈ ids)
include hdual hnext

/-- Placing never fails. -/
theorem place?_eq : ∀ (steps : Nat) {s : Stage}, s.Good ids deps [] →
    place? next steps s = some (place next steps s) := by
  intro steps
  induction steps with
  | zero => exact fun _ => rfl
  | succ steps ih =>
    intro s hs
    rcases smallest?_cases s.ready with ⟨hnone, -⟩ | ⟨v, hv, hsome, -⟩
    · rw [place?, place, hnone]
    · have hmoved := move_good hdual hv hs
      simp only [place?, place, hsome, foldlM_release? (hnext v) hmoved]
      exact ih (foldl_release_good (hnext v) hmoved)

/-! ### No topological sequence is smaller -/

omit hdual hnext in
theorem placed_prefix (next : String → List String) : ∀ (steps : Nat) (s : Stage),
    s.placed <+: (place next steps s).placed := by
  intro steps
  induction steps with
  | zero => exact fun s => List.prefix_rfl
  | succ steps ih =>
    intro s
    rw [place]
    split
    · exact List.prefix_rfl
    · rename_i v _
      refine .trans ?_ (ih _)
      rw [foldl_release_placed]
      exact List.prefix_append s.placed [v]

/-- The placed vertices come before any other sequence of all the vertices in which each stands
behind those it depends on. -/
theorem placed_least {l : List String} (hnodup : l.Nodup) (hperm : l.Perm ids)
    (htopo : ∀ earlier v later, l = earlier ++ v :: later → ∀ u ∈ deps v, u ∈ earlier) :
    ∀ (steps : Nat) {s : Stage}, s.Good ids deps [] → s.placed <+: l →
      ids.length ≤ steps + s.placed.length →
      l = (place next steps s).placed ∨ (place next steps s).placed < l := by
  intro steps
  induction steps with
  | zero =>
    intro s _ hbegins hlen
    left
    refine (hbegins.eq_of_length_le ?_).symm
    rw [hperm.length_eq]
    omega
  | succ steps ih =>
    intro s hs hbegins hlen
    obtain ⟨later, rfl⟩ := hbegins
    -- the sequence agrees with what is placed, so its next vertex is ready
    have hready : ∀ x rest, later = x :: rest → x ∈ s.ready := by
      rintro x rest rfl
      exact hs.mem_ready.mpr
        ⟨hperm.mem_iff.mp (by simp), notMem_of_nodup hnodup, htopo _ _ _ rfl⟩
    rcases smallest?_cases s.ready with ⟨hnone, hempty⟩ | ⟨v, hv, hsome, hleast⟩
    · left
      cases later with
      | nil => simp only [place, hnone, List.append_nil]
      | cons x rest => exact absurd (hready x rest rfl) (by simp [hempty])
    · rw [place, hsome]
      cases later with
      | nil =>
        obtain ⟨hids, hnew, -⟩ := hs.mem_ready.mp hv
        exact absurd (hperm.mem_iff.mpr hids) (by simpa using hnew)
      | cons x rest =>
        by_cases hvx : v = x
        · subst hvx
          refine ih (foldl_release_good (hnext v) (move_good hdual hv hs)) ?_ ?_
          · rw [foldl_release_placed]
            exact ⟨rest, by simp⟩
          · simp only [foldl_release_placed, List.length_append, List.length_singleton]
            omega
        · right
          have hlt : v < x := by
            refine String.not_le.mp fun hxv => hvx ?_
            exact String.le_antisymm (hleast x (hready x rest rfl)) hxv
          obtain ⟨more, hmore⟩ := placed_prefix next steps ((next v).foldl release
            { s with ready := s.ready.erase v, placed := s.placed ++ [v] })
          rw [foldl_release_placed, List.append_assoc] at hmore
          simp only [← hmore]
          exact List.Lex.append_left (· < ·) (.rel hlt) s.placed

end Place

end Order

namespace Accepted

variable {a : Accepted}

/-- A permutation of the nodes in which every link that does not go back leads onwards. -/
structure Topological (a : Accepted) (l : List String) : Prop where
  perm : l.Perm (a.workflow.nodes.map Node.id)
  onward : ∀ link ∈ a.graph.links, a.loops.isBack link = false →
    Plan.Before l link.source link.target

theorem Sound.topological_order (hs : a.Sound) (hids : a.graph.ids = a.workflow.nodes.map Node.id) :
    a.Topological a.order := by
  refine ⟨hids ▸ hs.order_perm, fun l hl hback => ?_⟩
  obtain ⟨earlier, later, hsplit⟩ := List.append_of_mem (hs.mem_order.mpr (hs.link_mem l hl).2)
  have hnew : l.target ∉ earlier := Order.notMem_of_nodup (hsplit ▸ hs.nodup_order)
  rw [hsplit]
  exact Plan.before_of_split hnew (hs.mem_of_order hsplit ⟨l, hl, hback, rfl, rfl⟩)

theorem Topological.mem_earlier {earlier later : List String} {u v : String}
    (ht : a.Topological (earlier ++ v :: later)) (hnew : v ∉ earlier) (huv : a.Forward u v) :
    u ∈ earlier := by
  obtain ⟨l, hl, hback, rfl, rfl⟩ := huv
  have hlt := (ht.onward l hl hback).2
  rw [List.idxOf_append_of_notMem hnew, List.idxOf_cons_self, Nat.add_zero] at hlt
  by_contra hu
  rw [List.idxOf_append_of_notMem hu] at hlt
  omega

/-- No topological permutation comes before the order. -/
theorem Sound.order_le (hs : a.Sound) (hids : a.graph.ids = a.workflow.nodes.map Node.id)
    {l : List String} (hl : a.Topological l) : l = a.order ∨ a.order < l := by
  have hperm : l.Perm a.graph.ids := hids ▸ hl.perm
  have hnodup : l.Nodup := hperm.nodup_iff.mpr hs.nodup_ids
  rw [hs.order_eq]
  refine Order.placed_least count_forward hs.next_mem hnodup hperm ?_ a.graph.ids.length
    hs.start_good List.nil_prefix (by simp)
  rintro earlier v later rfl u hu
  exact hl.mem_earlier (Order.notMem_of_nodup hnodup) (mem_sources.mp hu)

end Accepted

/-- The order of an accepted workflow is the least topological permutation of its nodes.  When no
vertex is ready any more all of them are placed, and no count was zero when a link was released. -/
theorem order_is_least {w : Workflow} {a : Accepted} (h : check w = .ok a) :
    a.workflow = w ∧ a.graph.links.map Link.edge = w.edges ∧
    a.Topological a.order ∧
    (∀ l, a.Topological l → l = a.order ∨ List.Lex Text.Precedes a.order l) ∧
    Order.place? a.next a.graph.ids.length a.firstStage = some a.lastStage ∧
    a.lastStage.ready = [] ∧ a.lastStage.placed.length = w.nodes.length ∧
    a.order = a.lastStage.placed := by
  have hs := Check.sound_of_check h
  obtain ⟨rfl, hgraph, -, -, hshape⟩ := check_ok h
  have hids := ids_eq h
  have hbytes : Text.Precedes = (· < ·) := by
    funext s t
    exact propext Text.precedes_iff
  refine ⟨rfl, ?_, hs.topological_order hids, ?_, ?_, hs.placed_good.2.1, ?_, hs.order_eq⟩
  · rw [hgraph]
    exact Graph.edges_of_links hshape.endpoints
  · rw [hbytes]
    exact fun l hl => hs.order_le hids hl
  · exact Order.place?_eq Accepted.count_forward hs.next_mem a.graph.ids.length hs.start_good
  · rw [← hs.order_eq, hs.order_perm.length_eq, hids, List.length_map]

/-- Two votes are counted twice each, after a loop.  The ids of what the start leads to are four,
three and one bytes long. -/
def voteFlow : Workflow where
  nodes :=
    [ { id := "start", config := .trigger {} },
      { id := "😀", config := .agent { prompt := "vote" } },
      { id := "ｚ", config := .agent { prompt := "vote" } },
      { id := "z", config := .feedbackLoop { maxIterations := 2, stopCondition := "done" } },
      { id := "again", config := .agent { prompt := "again" } },
      { id := "count", config := .agent { prompt := "count" } } ]
  edges :=
    [ { id := "e1", source := "start", target := "😀" },
      { id := "e2", source := "start", target := "ｚ" },
      { id := "e3", source := "start", target := "z" },
      { id := "e4", source := "z", target := "again" },
      { id := "e5", source := "again", target := "z" },
      { id := "e6", source := "😀", target := "count" },
      { id := "e7", source := "😀", target := "count" },
      { id := "e8", source := "ｚ", target := "count" },
      { id := "e9", source := "ｚ", target := "count" } ]

/-- The shortest of the three ids comes first, and with it the body of its loop. -/
theorem order_is_least_voteFlow : ∃ a, check voteFlow = .ok a ∧
    a.order = ["start", "z", "again", "ｚ", "😀", "count"] ∧
    a.Topological a.order ∧
    (∀ l, a.Topological l → l = a.order ∨ List.Lex Text.Precedes a.order l) ∧
    Order.place? a.next a.graph.ids.length a.firstStage = some a.lastStage ∧
    a.lastStage.placed.length = 6 := by
  obtain ⟨a, ha, horder⟩ : ∃ a, check voteFlow = .ok a ∧
      a.order = ["start", "z", "again", "ｚ", "😀", "count"] :=
    exists_check_ok (by decide +kernel)
  obtain ⟨-, -, htopo, hleast, hplace, -, hlen, -⟩ := order_is_least ha
  exact ⟨a, ha, horder, htopo, hleast, hplace, hlen⟩

end Flowscript
