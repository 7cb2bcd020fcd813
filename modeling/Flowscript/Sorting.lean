/-
Lists without repetition and in order.

`sortBy le` sorts by insertion.  Members that are equal under `le` keep their
places relative to each other, because a member goes in front of the first one
that it may precede.
-/

namespace Flowscript

/-- The members of a list, each at its first place. -/
def distinct {α : Type} [DecidableEq α] : List α → List α
  | [] => []
  | a :: as => a :: (distinct as).filter (· ≠ a)

/-- The members that stood in the list before, in order of appearance. -/
def repetitions {α : Type} [DecidableEq α] : List α → List α → List α
  | _, [] => []
  | seen, a :: as =>
    if a ∈ seen then a :: repetitions seen as else repetitions (a :: seen) as

/-- Puts a member in front of the first one that it may precede. -/
def insertBy {α : Type} (le : α → α → Bool) (a : α) : List α → List α
  | [] => [a]
  | b :: bs => if le a b then a :: b :: bs else b :: insertBy le a bs

/-- Sorts a list; equal members keep their order. -/
def sortBy {α : Type} (le : α → α → Bool) : List α → List α
  | [] => []
  | a :: as => insertBy le a (sortBy le as)

theorem insertBy_perm {α : Type} (le : α → α → Bool) (a : α) (l : List α) :
    (insertBy le a l).Perm (a :: l) := by
  induction l with
  | nil => exact .refl _
  | cons b bs ih =>
    rw [insertBy]
    split
    · exact .refl _
    · exact (ih.cons b).trans (.swap a b bs)

theorem sortBy_perm {α : Type} (le : α → α → Bool) (l : List α) : (sortBy le l).Perm l := by
  induction l with
  | nil => exact .refl _
  | cons a as ih => exact (insertBy_perm le a _).trans (ih.cons a)

/-- Texts are ordered by their code points. -/
def compareText (a b : String) : Ordering :=
  if a < b then .lt else if b < a then .gt else .eq

/-- Sorts texts; equal ones stay. -/
def sortTexts (l : List String) : List String := sortBy (fun a b => compareText a b != .gt) l

/-- The texts of a list in order, each once. -/
def sortedSet (l : List String) : List String := sortTexts (distinct l)

end Flowscript
