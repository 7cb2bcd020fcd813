/-
Where arms meet.

`Leads` is a forward link that a walk follows without going on behind a reserved node.  The
planner compares what the arms of a node lead to.  A loop that is not being planned can only be
entered at its entry (`Callable`), and this carries over to the nodes at which arms stop:

* `callable_of_meeting` — to the node where all arms come together;
* `entry_of_common` — the nodes that two arms lead to have the entry of a loop with any other
  node of it;
* `callable_of_earliest` — to the first of these nodes.
-/
import Flowscript.Proofs.Plan.Step

open Relation

namespace Flowscript

namespace Plan

variable {a : Accepted} {s : Scope}

/-- A forward link that a walk follows. -/
def Leads (a : Accepted) (s : Scope) (u v : String) : Prop := u ∉ s.reserved ∧ a.Forward u v

theorem mem_forwardReach {u v : String} :
    v ∈ forwardReach a s u ↔ ReflTransGen (Leads a s) u v := by
  have hlength : ∀ v, (if s.reserved.contains v then []
      else (a.forwardOut v).map Link.target).length ≤
      a.graph.links.countP fun l => l.source = v := by
    intro v
    rw [← Graph.length_outgoing]
    split
    · exact Nat.zero_le _
    · rw [List.length_map]
      exact List.length_filter_le _ _
  rw [forwardReach, Graph.mem_reach Link.source hlength]
  have hfollows : Follows (fun v => if s.reserved.contains v then []
      else (a.forwardOut v).map Link.target) = Leads a s := by
    funext u v
    refine propext ?_
    simp only [Follows, Leads, Accepted.Forward]
    split
    · rename_i h
      simp [List.contains_iff_mem.mp h]
    · rename_i h
      rw [List.contains_iff_mem] at h
      simp [h, Accepted.mem_forwardOut, and_assoc]
  rw [hfollows]
  simp only [List.mem_singleton, exists_eq_left]

theorem forward_of_leads {u v : String} (h : ReflTransGen (Leads a s) u v) :
    ReflTransGen a.Forward u v :=
  ReflTransGen.mono (fun _ _ hxy => hxy.2) _ _ h

theorem meeting?_eq_some {ids : List String} {m : String}
    (h : meeting? a a.order s ids = some m) :
    (∀ t ∈ ids, ReflTransGen (Leads a s) t m) ∧
      ∃ earlier later, a.order = earlier ++ m :: later ∧
        ∀ v ∈ earlier, ∃ t ∈ ids, ¬ReflTransGen (Leads a s) t v := by
  obtain ⟨hm, earlier, later, horder, hearlier⟩ := List.find?_eq_some_iff_append.mp h
  simp only [List.all_map, List.all_eq_true, Function.comp_apply, List.contains_iff_mem,
    mem_forwardReach] at hm
  refine ⟨hm, earlier, later, horder, fun v hv => ?_⟩
  have := hearlier v hv
  simpa [mem_forwardReach] using this

/-- How many of some arms lead to a node. -/
def armsTo (a : Accepted) (s : Scope) (ids : List String) (v : String) : Nat :=
  ids.countP fun t => (forwardReach a s t).contains v

theorem mem_common (hs : a.Sound) {ids : List String} {v : String} :
    v ∈ common a a.order s ids ↔ v ∈ a.graph.ids ∧ v ∉ s.reserved ∧ 1 < armsTo a s ids v := by
  simp only [common, List.mem_filter, hs.mem_order, Bool.and_eq_true, decide_eq_true_eq,
    Bool.not_eq_true', Bool.eq_false_iff, ne_eq, List.contains_iff_mem, List.countP_map, armsTo]
  exact and_congr_right fun _ => and_comm

theorem mem_shared (hs : a.Sound) {id v : String} :
    v ∈ shared a s id ↔ v ∈ a.graph.ids ∧ v ∉ s.reserved ∧
      1 < armsTo a s ((outBySlot a id).map Link.target) v := mem_common hs

theorem armsTo_le {ids : List String} {u v : String}
    (h : ∀ t ∈ ids, ReflTransGen (Leads a s) t v → ReflTransGen (Leads a s) t u) :
    armsTo a s ids v ≤ armsTo a s ids u := by
  refine List.countP_mono_left fun t ht hv => ?_
  rw [List.contains_iff_mem, mem_forwardReach] at hv ⊢
  exact h t ht hv

theorem exists_arm {ids : List String} {v : String} (h : 0 < armsTo a s ids v) :
    ∃ t ∈ ids, ReflTransGen (Leads a s) t v := by
  obtain ⟨t, ht, hv⟩ := List.countP_pos_iff.mp h
  exact ⟨t, ht, mem_forwardReach.mp (List.contains_iff_mem.mp hv)⟩

theorem mem_earliest {nodes : List String} {v : String} :
    v ∈ earliest a nodes ↔ v ∈ nodes ∧ ∀ u, a.Forward u v → u ∉ nodes := by
  simp only [earliest, List.mem_filter, Bool.not_eq_true', List.any_eq_false,
    List.contains_iff_mem, ← Accepted.mem_sources, List.forall_mem_map]

theorem exists_before_of_notMem_earliest {nodes : List String} {v : String} (hv : v ∈ nodes)
    (h : v ∉ earliest a nodes) : ∃ u ∈ nodes, a.Forward u v := by
  by_contra hcon
  exact h (mem_earliest.mpr ⟨hv, fun u huv hu => hcon ⟨u, hu, huv⟩⟩)

/-- What leads to a node stands before it. -/
theorem mem_earlier (hs : a.Sound) {u v : String} (h : ReflTransGen a.Forward u v) :
    ∀ {earlier later}, a.order = earlier ++ v :: later → u ≠ v → u ∈ earlier := by
  induction h with
  | refl => exact fun _ hne => absurd rfl hne
  | @tail x y hux hxy ih =>
    intro earlier later horder hne
    have hx := hs.mem_of_order horder hxy
    by_cases hxu : u = x
    · exact hxu ▸ hx
    · obtain ⟨first, second, rfl⟩ := List.append_of_mem hx
      have hsplit : a.order = first ++ x :: (second ++ y :: later) := by
        rw [horder, List.append_assoc, List.cons_append]
      exact List.mem_append_left _ (ih hsplit hxu)

/-! ### Nodes at which planning may start -/

/-- A loop that is not being planned has the node only as its entry. -/
def Callable (a : Accepted) (A : List Loop) (v : String) : Prop :=
  v ∈ a.graph.ids ∧ ∀ L ∈ a.loops.loops, L ∉ A → L.Has v → v = L.entry

section Callable

variable (hs : a.Sound) {A : List Loop} {ids : List String} (hids : ∀ t ∈ ids, Callable a A t)
include hs

/-- A way into a loop that may only be entered at its entry leads through the entry. -/
theorem leads_entry {L : Loop} (hL : L ∈ a.loops.loops) {t v : String}
    (ht : L.Has t → t = L.entry) (hv : L.Has v) (h : ReflTransGen (Leads a s) t v) :
    ReflTransGen (Leads a s) t L.entry ∧ ReflTransGen (Leads a s) L.entry v := by
  induction h with
  | refl =>
    rw [← ht hv]
    exact ⟨.refl, .refl⟩
  | @tail x y htx hxy ih =>
    by_cases hx : L.Has x
    · obtain ⟨hentry, hway⟩ := ih hx
      exact ⟨hentry, hway.tail hxy⟩
    · obtain ⟨hfree, l, hl, hback, rfl, rfl⟩ := hxy
      have hentry := hs.enters L hL l hl hv hx
      rw [← hentry]
      exact ⟨htx.tail ⟨hfree, l, hl, hback, rfl, rfl⟩, .refl⟩

/-- Arms that lead into a loop through its entry meet at the entry. -/
theorem entry_of_meeting {L : Loop} (hL : L ∈ a.loops.loops)
    (hids : ∀ t ∈ ids, L.Has t → t = L.entry) {m : String} (hne : ids ≠ [])
    (h : meeting? a a.order s ids = some m) (hhas : L.Has m) : m = L.entry := by
  obtain ⟨hm, earlier, later, horder, hearlier⟩ := meeting?_eq_some h
  by_contra hentry
  have hway : ∀ t ∈ ids, ReflTransGen (Leads a s) t L.entry ∧ ReflTransGen (Leads a s) L.entry m :=
    fun t ht => leads_entry hs hL (hids t ht) hhas (hm t ht)
  obtain ⟨t, ht⟩ := List.exists_mem_of_ne_nil ids hne
  have hmem := mem_earlier hs (forward_of_leads (hway t ht).2) horder fun h => hentry h.symm
  obtain ⟨t, ht, hnot⟩ := hearlier L.entry hmem
  exact hnot (hway t ht).1

/-- The first of the nodes that two arms lead to is the entry of any loop that the arms which lead
to it enter there. -/
theorem entry_of_earliest {L : Loop} (hL : L ∈ a.loops.loops) {v : String}
    (hids : ∀ t ∈ ids, ReflTransGen (Leads a s) t v → L.Has t → t = L.entry)
    (hv : v ∈ earliest a (common a a.order s ids)) (hhas : L.Has v) : v = L.entry := by
  obtain ⟨hcommon, hfirst⟩ := mem_earliest.mp hv
  obtain ⟨hmem, -, hcount⟩ := (mem_common hs).mp hcommon
  by_contra hentry
  have hway : ∀ t ∈ ids, ReflTransGen (Leads a s) t v →
      ReflTransGen (Leads a s) t L.entry ∧ ReflTransGen (Leads a s) L.entry v :=
    fun t ht hv => leads_entry hs hL (hids t ht hv) hhas hv
  obtain ⟨t, ht, htv⟩ := exists_arm (Nat.lt_trans Nat.zero_lt_one hcount)
  -- the node before it on the way from the entry is common to the same arms
  rcases (hway t ht htv).2.cases_tail with heq | ⟨x, hx, hfree, hxv⟩
  · exact hentry heq
  · refine hfirst x hxv ((mem_common hs).mpr ⟨?_, hfree, Nat.lt_of_lt_of_le hcount ?_⟩)
    · obtain ⟨l, hl, -, rfl, -⟩ := hxv
      exact (hs.link_mem l hl).1
    · exact armsTo_le fun t ht htv => (hway t ht htv).1.trans hx

include hids

theorem callable_of_meeting {m : String} (hne : ids ≠ [])
    (h : meeting? a a.order s ids = some m) : Callable a A m := by
  refine ⟨?_, fun L hL hA hhas =>
    entry_of_meeting hs hL (fun t ht => (hids t ht).2 L hL hA) hne h hhas⟩
  obtain ⟨-, earlier, later, horder, -⟩ := meeting?_eq_some h
  exact hs.mem_order.mp (by rw [horder]; simp)

theorem entry_of_common {L : Loop} (hL : L ∈ a.loops.loops) (hA : L ∉ A) {v : String}
    (hv : v ∈ common a a.order s ids) (hhas : L.Has v) :
    L.entry ∈ s.reserved ∨ L.entry ∈ common a a.order s ids := by
  by_cases hfree : L.entry ∈ s.reserved
  · exact .inl hfree
  · rw [mem_common hs] at hv ⊢
    refine .inr ⟨hs.has_mem L hL _ (hs.has_entry L hL), hfree, Nat.lt_of_lt_of_le hv.2.2 ?_⟩
    exact armsTo_le fun t ht hway => (leads_entry hs hL ((hids t ht).2 L hL hA) hhas hway).1

theorem callable_of_earliest {v : String} (hv : v ∈ earliest a (common a a.order s ids)) :
    Callable a A v :=
  ⟨((mem_common hs).mp (mem_earliest.mp hv).1).1, fun L hL hA hhas =>
    entry_of_earliest hs hL (fun t ht _ => (hids t ht).2 L hL hA) hv hhas⟩

end Callable

end Plan

end Flowscript
