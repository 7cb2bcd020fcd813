/-
What the audit of a tree of blocks reports.

The same block may stand at several places of a tree, so places are told apart by the way that leads
to them: a list of numbers, each of which says which of the blocks inside comes next.

* `mem_owned_iff_ownsAt`, `mem_revisited_iff` — a node is run, or referred to, at some place;
* `duplicate_owned_iff` — a node is run twice just if two places run it;
* `faults_by_place` — when a tree has no faults, and which ones it has otherwise.
-/
import Flowscript.Plan.Audit
import Flowscript.Proofs.Plan.Part
import Flowscript.Proofs.Sorting
import Mathlib.Data.List.Duplicate

namespace Flowscript

/-! ### Lists that repeat a member -/

section Duplicate

variable {α : Type} [DecidableEq α] {a : α}

theorem mem_repetitions {seen l : List α} :
    a ∈ repetitions seen l ↔ a ∈ seen ∧ a ∈ l ∨ List.Duplicate a l := by
  induction l generalizing seen with
  | nil => simp [repetitions]
  | cons b bs ih =>
    rw [repetitions, List.duplicate_cons_iff, List.mem_cons]
    split
    · rw [List.mem_cons, ih]
      grind
    · rw [ih, List.mem_cons]
      grind

theorem duplicate_append {l l' : List α} : List.Duplicate a (l ++ l') ↔
    List.Duplicate a l ∨ List.Duplicate a l' ∨ a ∈ l ∧ a ∈ l' := by
  rw [List.duplicate_iff_two_le_count, List.duplicate_iff_two_le_count,
    List.duplicate_iff_two_le_count, List.count_append, ← List.count_pos_iff, ← List.count_pos_iff]
  omega

/-- What repeats a member in several lists behind each other: one of them, or two together. -/
theorem duplicate_flatMap {β : Type} {f : β → List α} {bs : List β} :
    List.Duplicate a (bs.flatMap f) ↔
      (∃ (i : Nat) (d : β), bs[i]? = some d ∧ List.Duplicate a (f d)) ∨
      ∃ (i j : Nat) (d e : β), i ≠ j ∧ bs[i]? = some d ∧ bs[j]? = some e ∧ a ∈ f d ∧ a ∈ f e := by
  induction bs with
  | nil => simp
  | cons b bs ih =>
    rw [List.flatMap_cons, duplicate_append, ih, List.mem_flatMap]
    constructor
    · rintro (hdup | (⟨i, d, hd, hdup⟩ | ⟨i, j, d, e, hne, hd, he, hmem⟩) | ⟨hmem, e, he, hmem'⟩)
      · exact .inl ⟨0, b, rfl, hdup⟩
      · exact .inl ⟨i + 1, d, hd, hdup⟩
      · exact .inr ⟨i + 1, j + 1, d, e, by omega, hd, he, hmem⟩
      · obtain ⟨j, hj⟩ := List.mem_iff_getElem?.mp he
        exact .inr ⟨0, j + 1, b, e, by omega, rfl, hj, hmem, hmem'⟩
    · rintro (⟨_ | i, d, hd, hdup⟩ | ⟨_ | i, _ | j, d, e, hne, hd, he, hmem, hmem'⟩)
      · exact .inl (Option.some.inj hd ▸ hdup)
      · exact .inr (.inl (.inl ⟨i, d, hd, hdup⟩))
      · exact absurd rfl hne
      · exact .inr (.inr ⟨Option.some.inj hd ▸ hmem, e, List.mem_of_getElem? he, hmem'⟩)
      · exact .inr (.inr ⟨Option.some.inj he ▸ hmem', d, List.mem_of_getElem? hd, hmem⟩)
      · exact .inr (.inl (.inr ⟨i, j, d, e, by omega, hd, he, hmem, hmem'⟩))

end Duplicate

namespace Block

/-! ### Places of a tree -/

/-- The block at a place. -/
def at? : Block → List Nat → Option Block
  | b, [] => some b
  | b, i :: place => b.children[i]?.bind fun d => at? d place

/-- The block at a place runs the node. -/
def OwnsAt (b : Block) (place : List Nat) (id : String) : Prop :=
  ∃ d, b.at? place = some d ∧ d.owner? = some id

/-- The block at a place refers to the node as one that another block runs. -/
def RefersAt (b : Block) (place : List Nat) (id : String) : Prop :=
  b.at? place = some (.visited id)

variable {b : Block} {i : Nat} {place : List Nat} {id : String}

@[simp] theorem ownsAt_nil : b.OwnsAt [] id ↔ b.owner? = some id := by
  simp [OwnsAt, at?]

@[simp] theorem ownsAt_cons :
    b.OwnsAt (i :: place) id ↔ ∃ d, b.children[i]? = some d ∧ d.OwnsAt place id := by
  simp only [OwnsAt, at?, Option.bind_eq_some_iff]
  grind

@[simp] theorem refersAt_nil : b.RefersAt [] id ↔ b = .visited id := by
  simp [RefersAt, at?]

@[simp] theorem refersAt_cons :
    b.RefersAt (i :: place) id ↔ ∃ d, b.children[i]? = some d ∧ d.RefersAt place id :=
  Option.bind_eq_some_iff

/-- Something is found at a place if it is found at the root or at a place of a block inside. -/
theorem exists_place_iff {P : Block → List Nat → Prop}
    (hcons : ∀ b i place, P b (i :: place) ↔ ∃ d, b.children[i]? = some d ∧ P d place) (b : Block) :
    (∃ place, P b place) ↔ P b [] ∨ ∃ d ∈ b.children, ∃ place, P d place := by
  constructor
  · rintro ⟨_ | ⟨i, place⟩, h⟩
    · exact .inl h
    · obtain ⟨d, hd, h⟩ := (hcons b i place).mp h
      exact .inr ⟨d, List.mem_of_getElem? hd, place, h⟩
  · rintro (h | ⟨d, hd, place, h⟩)
    · exact ⟨[], h⟩
    · obtain ⟨i, hi⟩ := List.mem_iff_getElem?.mp hd
      exact ⟨i :: place, (hcons b i place).mpr ⟨d, hi, h⟩⟩

theorem mem_owned_iff_ownsAt (b : Block) : id ∈ b.owned ↔ ∃ place, b.OwnsAt place id := by
  induction b using holds_of_children with
  | h b ih =>
    rw [mem_owned_iff, exists_place_iff (P := fun b place => b.OwnsAt place id)
      fun _ _ _ => ownsAt_cons, ownsAt_nil]
    exact or_congr_right (exists_congr fun d => and_congr_right fun hd => ih d hd)

theorem mem_revisited_iff_children {b : Block} {id : String} :
    id ∈ b.revisited ↔ b = .visited id ∨ ∃ d ∈ b.children, id ∈ d.revisited := by
  cases b <;> simp [revisited, children, revisitedArms_eq, revisitedList_eq, eq_comm]

theorem mem_revisited_iff (b : Block) : id ∈ b.revisited ↔ ∃ place, b.RefersAt place id := by
  induction b using holds_of_children with
  | h b ih =>
    rw [mem_revisited_iff_children, exists_place_iff (P := fun b place => b.RefersAt place id)
      fun _ _ _ => refersAt_cons, refersAt_nil]
    exact or_congr_right (exists_congr fun d => and_congr_right fun hd => ih d hd)

/-- A node is run twice just if two places run it. -/
theorem duplicate_owned_iff (b : Block) : List.Duplicate id b.owned ↔
    ∃ place other, place ≠ other ∧ b.OwnsAt place id ∧ b.OwnsAt other id := by
  induction b using holds_of_children with
  | h b ih =>
    have hroot : ¬List.Duplicate id b.owner?.toList := by
      cases b.owner? <;> simp
    rw [owned_eq, duplicate_append, duplicate_flatMap, Option.mem_toList, List.mem_flatMap,
      or_iff_right hroot]
    constructor
    · rintro ((⟨i, d, hd, hdup⟩ | ⟨i, j, d, e, hne, hd, he, hmem, hmem'⟩) | ⟨howner, d, hd, hmem⟩)
      · obtain ⟨place, other, hne, h, h'⟩ := (ih d (List.mem_of_getElem? hd)).mp hdup
        exact ⟨i :: place, i :: other, by simpa using hne, ownsAt_cons.mpr ⟨d, hd, h⟩,
          ownsAt_cons.mpr ⟨d, hd, h'⟩⟩
      · obtain ⟨place, h⟩ := (mem_owned_iff_ownsAt d).mp hmem
        obtain ⟨other, h'⟩ := (mem_owned_iff_ownsAt e).mp hmem'
        exact ⟨i :: place, j :: other, by simp [hne], ownsAt_cons.mpr ⟨d, hd, h⟩,
          ownsAt_cons.mpr ⟨e, he, h'⟩⟩
      · obtain ⟨i, hi⟩ := List.mem_iff_getElem?.mp hd
        obtain ⟨other, h⟩ := (mem_owned_iff_ownsAt d).mp hmem
        exact ⟨[], i :: other, by simp, ownsAt_nil.mpr howner, ownsAt_cons.mpr ⟨d, hi, h⟩⟩
    · have hinside : ∀ {i place}, b.OwnsAt (i :: place) id → ∃ d ∈ b.children, id ∈ d.owned := by
        intro i place h
        obtain ⟨d, hd, h⟩ := ownsAt_cons.mp h
        exact ⟨d, List.mem_of_getElem? hd, (mem_owned_iff_ownsAt d).mpr ⟨place, h⟩⟩
      rintro ⟨_ | ⟨i, place⟩, _ | ⟨j, other⟩, hne, h, h'⟩
      · exact absurd rfl hne
      · exact .inr ⟨ownsAt_nil.mp h, hinside h'⟩
      · exact .inr ⟨ownsAt_nil.mp h', hinside h⟩
      · obtain ⟨d, hd, h⟩ := ownsAt_cons.mp h
        obtain ⟨e, he, h'⟩ := ownsAt_cons.mp h'
        by_cases hij : i = j
        · subst hij
          obtain rfl : d = e := Option.some.inj (hd.symm.trans he)
          have hmany := (ih d (List.mem_of_getElem? hd)).mpr
            ⟨place, other, by simpa using hne, h, h'⟩
          exact .inl (.inl ⟨i, d, hd, hmany⟩)
        · exact .inl (.inr ⟨i, j, d, e, hij, hd, he, (mem_owned_iff_ownsAt d).mpr ⟨place, h⟩,
            (mem_owned_iff_ownsAt e).mpr ⟨other, h'⟩⟩)

/-! ### The three kinds of faults -/

theorem mem_repeated_iff (b : Block) : id ∈ sortedSet (repetitions [] b.owned) ↔
    ∃ place other, place ≠ other ∧ b.OwnsAt place id ∧ b.OwnsAt other id := by
  rw [mem_sortedSet, mem_repetitions, b.duplicate_owned_iff]
  simp

theorem mem_unowned_iff (b : Block) {l : List String} :
    id ∈ (sortedSet l).filter (fun id => !b.owned.contains id) ↔
      id ∈ l ∧ ¬∃ place, b.OwnsAt place id := by
  rw [List.mem_filter, mem_sortedSet, ← b.mem_owned_iff_ownsAt]
  simp

theorem mem_dangling_iff (b : Block) :
    id ∈ (sortedSet b.revisited).filter (fun id => !b.owned.contains id) ↔
      (∃ place, b.RefersAt place id) ∧ ¬∃ place, b.OwnsAt place id := by
  rw [mem_unowned_iff, mem_revisited_iff]

end Block

/-- A tree has no faults just if no two places run the same node, every given node is run, and so is
every node that is referred to.  Otherwise the nodes that two places run are reported, then the given
ones that no place runs, then those that are referred to and not run: each of them once, and in
increasing order. -/
theorem faults_by_place (b : Block) (ids : List String) :
    (b.faults ids = [] ↔
      (∀ id place other, b.OwnsAt place id → b.OwnsAt other id → place = other) ∧
      (∀ id ∈ ids, ∃ place, b.OwnsAt place id) ∧
      ∀ id place, b.RefersAt place id → ∃ other, b.OwnsAt other id) ∧
    ∃ repeated lost dangling : List String,
      b.faults ids = repeated.map .repeated ++ lost.map .lost ++ dangling.map .dangling ∧
      (b.faults ids).map (fun f => (f.toDiagnostic.code, f.toDiagnostic.nodeId)) =
        repeated.map (fun id => ("E001", some id)) ++ lost.map (fun id => ("E002", some id)) ++
          dangling.map (fun id => ("E003", some id)) ∧
      (repeated.Pairwise (· < ·) ∧ ∀ id, id ∈ repeated ↔
        ∃ place other, place ≠ other ∧ b.OwnsAt place id ∧ b.OwnsAt other id) ∧
      (lost.Pairwise (· < ·) ∧ ∀ id, id ∈ lost ↔ id ∈ ids ∧ ¬∃ place, b.OwnsAt place id) ∧
      dangling.Pairwise (· < ·) ∧ ∀ id, id ∈ dangling ↔
        (∃ place, b.RefersAt place id) ∧ ¬∃ place, b.OwnsAt place id := by
  refine ⟨?_, _, _, _, rfl, ?_, ⟨sortedSet_increasing _, fun _ => b.mem_repeated_iff⟩,
    ⟨(sortedSet_increasing _).filter _, fun _ => b.mem_unowned_iff⟩,
    (sortedSet_increasing _).filter _, fun _ => b.mem_dangling_iff⟩
  · -- no fault of any kind
    rw [Block.faults, List.append_eq_nil_iff, List.append_eq_nil_iff, List.map_eq_nil_iff,
      List.map_eq_nil_iff, List.map_eq_nil_iff, List.eq_nil_iff_forall_not_mem,
      List.eq_nil_iff_forall_not_mem, List.eq_nil_iff_forall_not_mem, and_assoc]
    simp only [b.mem_repeated_iff, b.mem_unowned_iff, b.mem_revisited_iff, not_and, not_not]
    refine and_congr (forall_congr' fun id => ?_) (and_congr_right' (forall_congr' fun id => ?_))
    · constructor
      · intro h place other hplace hother
        by_contra hne
        exact h ⟨place, other, hne, hplace, hother⟩
      · rintro h ⟨place, other, hne, hplace, hother⟩
        exact hne (h place other hplace hother)
    · exact forall_exists_index
  · rw [Block.faults, List.map_append, List.map_append, List.map_map, List.map_map, List.map_map]
    rfl

end Flowscript
