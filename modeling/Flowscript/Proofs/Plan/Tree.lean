/-
Trees of blocks.

A block holds blocks in lists, alone or under the names of slots.  `holds_of_parts` is induction
over a tree as a whole; what a tree collects from its arms is collected from the arms one by one
(`ownedArms_eq` and the like), and the names of slots play no part in it (`ownedArms_zip`).
-/
import Flowscript.Plan.Block
import Mathlib.Data.List.Basic

namespace Flowscript

namespace Block

/-! ### Trees by induction -/

/-- What holds of a block when it holds of the blocks inside holds of every block. -/
theorem holds_of_parts {P : Block → Prop} (seq : ∀ node next, P next → P (.seq node next))
    (branch : ∀ node onTrue onFalse next, P onTrue → P onFalse → P next →
      P (.branch node onTrue onFalse next))
    (fan : ∀ node arms merge next, (∀ b ∈ arms.map Prod.snd, P b) → P next →
      P (.fan node arms merge next))
    (loop : ∀ node body maxIterations stopCondition next, P body → P next →
      P (.loop node body maxIterations stopCondition next))
    (fork : ∀ arms next, (∀ b ∈ arms, P b) → P next → P (.fork arms next))
    (visited : ∀ node, P (.visited node)) (done : P .done) (b : Block) : P b := by
  refine @Block.rec P (fun arms => ∀ b ∈ arms.map Prod.snd, P b) (fun bs => ∀ b ∈ bs, P b)
    (fun arm => P arm.2) seq branch fan loop fork visited done ?_ ?_ ?_ ?_ ?_ b
  · simp
  · exact fun arm arms harm harms => List.forall_mem_cons.mpr ⟨harm, harms⟩
  · simp
  · exact fun b bs hb hbs => List.forall_mem_cons.mpr ⟨hb, hbs⟩
  · exact fun name b hb => hb

/-! ### Arms one by one -/

theorem list_eq_flatMap {β : Type} {f : Block → List β} {g : List Block → List β} (hnil : g [] = [])
    (hcons : ∀ b bs, g (b :: bs) = f b ++ g bs) (bs : List Block) : g bs = bs.flatMap f := by
  induction bs with
  | nil => exact hnil
  | cons b bs ih => rw [hcons, ih, List.flatMap_cons]

theorem arms_eq_flatMap {β : Type} {f : Block → List β} {g : List (String × Block) → List β}
    (hnil : g [] = []) (hcons : ∀ name b arms, g ((name, b) :: arms) = f b ++ g arms)
    (arms : List (String × Block)) : g arms = (arms.map Prod.snd).flatMap f := by
  induction arms with
  | nil => exact hnil
  | cons arm arms ih => rw [hcons, ih, List.map_cons, List.flatMap_cons]

theorem ownedList_eq : ∀ bs, ownedList bs = bs.flatMap owned :=
  list_eq_flatMap rfl fun _ _ => rfl

theorem ownedArms_eq : ∀ arms, ownedArms arms = (arms.map Prod.snd).flatMap owned :=
  arms_eq_flatMap rfl fun _ _ _ => rfl

theorem revisitedList_eq : ∀ bs, revisitedList bs = bs.flatMap revisited :=
  list_eq_flatMap rfl fun _ _ => rfl

theorem revisitedArms_eq : ∀ arms, revisitedArms arms = (arms.map Prod.snd).flatMap revisited :=
  arms_eq_flatMap rfl fun _ _ _ => rfl

theorem ownedArms_zip {names : List String} {bs : List Block} (h : bs.length ≤ names.length) :
    ownedArms (names.zip bs) = ownedList bs := by
  rw [ownedArms_eq, ownedList_eq, List.map_snd_zip h]

theorem revisitedArms_zip {names : List String} {bs : List Block} (h : bs.length ≤ names.length) :
    revisitedArms (names.zip bs) = revisitedList bs := by
  rw [revisitedArms_eq, revisitedList_eq, List.map_snd_zip h]

end Block

end Flowscript
