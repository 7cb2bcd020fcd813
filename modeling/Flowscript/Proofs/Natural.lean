/-
Natural loops.

`Loop.Natural` says that the cycle of a loop consists of its entry and of all that leads to one of
some tails past the entry, and that no way from the root comes to the cycle past the entry.  Two
such loops are apart or nested:

* `Natural.enters` — from outside a cycle is entered at its entry;
* `Natural.meets` — of two cycles with a common vertex one has the entry of the other;
* `Natural.inside` — a cycle that has the entry of another one has all of it.
-/
import Flowscript.Proofs.Loop

open Relation

namespace Flowscript

/-- A loop with the sources of the links back to its entry, in a graph entered at `root`. -/
structure Loop.Natural (g : Graph) (root : String) (L : Loop) (tails : List String) : Prop where
  has_iff : ∀ v, L.Has v ↔ v = L.entry ∨ ∃ u ∈ tails, ReflTransGen (g.Past L.entry) v u
  tail_next : ∀ u ∈ tails, g.Next u L.entry
  dominated : ∀ v, L.Has v → ¬ReflTransGen (g.Past L.entry) root v
  root_ne : root ≠ L.entry

namespace Loop.Natural

variable {g : Graph} {root : String} {L L' : Loop} {tails tails' : List String}

theorem has_entry (h : L.Natural g root tails) : L.Has L.entry := (h.has_iff _).mpr (.inl rfl)

/-- What leads to a vertex of the cycle other than the entry is on the cycle. -/
theorem has_of_next (h : L.Natural g root tails) {u v : String} (huv : g.Next u v) (hv : L.Has v)
    (hne : v ≠ L.entry) : L.Has u := by
  by_cases hu : u = L.entry
  · exact hu ▸ h.has_entry
  · obtain ⟨x, hx, hvx⟩ := ((h.has_iff v).mp hv).resolve_left hne
    exact (h.has_iff u).mpr (.inr ⟨x, hx, .head ⟨huv, hu, hne⟩ hvx⟩)

theorem enters (h : L.Natural g root tails) {u v : String} (huv : g.Next u v) (hv : L.Has v)
    (hu : ¬L.Has u) : v = L.entry :=
  not_not.mp fun hne => hu (h.has_of_next huv hv hne)

theorem ne_root (h : L.Natural g root tails) {v : String} (hv : L.Has v) : v ≠ root := by
  rintro rfl
  exact h.dominated v hv .refl

theorem has_of_past (h : L.Natural g root tails) {u v : String}
    (huv : ReflTransGen (g.Past L.entry) u v) (hv : L.Has v) (hne : v ≠ L.entry) : L.Has u := by
  obtain ⟨x, hx, hvx⟩ := ((h.has_iff v).mp hv).resolve_left hne
  exact (h.has_iff u).mpr (.inr ⟨x, hx, huv.trans hvx⟩)

section TwoLoops

variable (h : L.Natural g root tails) (h' : L'.Natural g root tails') (hne : L.entry ≠ L'.entry)
include h h' hne

/-- Two different entries are not each on the cycle of the other. -/
theorem not_has_entry (hreach : ReflTransGen g.Next root L.entry) (hin : L.Has L'.entry) :
    ¬L'.Has L.entry := by
  intro hout
  -- the entry that is visited first is reached past the other, which dominates it
  rcases Graph.first_visit hne h.root_ne h'.root_ne hreach with ⟨hp, -⟩ | hp | hp
  · exact Graph.ne_of_past hp h.root_ne rfl
  · exact h'.dominated _ hout hp
  · exact h.dominated _ hin hp

theorem meets {v : String} (hreach : ReflTransGen g.Next root v) (hv : L.Has v) (hv' : L'.Has v) :
    L.Has L'.entry ∨ L'.Has L.entry := by
  by_cases hve : v = L.entry
  · exact .inr (hve ▸ hv')
  · by_cases hve' : v = L'.entry
    · exact .inl (hve' ▸ hv)
    · rcases Graph.last_visit hne h.root_ne h'.root_ne hreach with ⟨hp, -⟩ | hp | hp
      · exact absurd hp (h.dominated v hv)
      · exact .inl (h.has_of_past hp hv hve)
      · exact .inr (h'.has_of_past hp hv' hve')

theorem inside (hreach : ReflTransGen g.Next root L.entry) (hin : L.Has L'.entry) {v : String}
    (hv : L'.Has v) : L.Has v := by
  have hout := not_has_entry h h' hne hreach hin
  by_cases hve : v = L'.entry
  · exact hve ▸ hin
  · obtain ⟨x, hx, hvx⟩ := ((h'.has_iff v).mp hv).resolve_left hve
    have hxL : x ≠ L.entry := fun hxe => hout (hxe ▸ (h'.has_iff x).mpr (.inr ⟨x, hx, .refl⟩))
    -- the way to the tail and on to the inner entry stays on the inner cycle
    have hpast : ReflTransGen (g.Past L.entry) v x := by
      clear hve hv
      induction hvx using ReflTransGen.head_induction_on with
      | refl => exact .refl
      | @head y z hyz hzx ih =>
        have hy : L'.Has y := (h'.has_iff y).mpr (.inr ⟨x, hx, .head hyz hzx⟩)
        have hz : L'.Has z := (h'.has_iff z).mpr (.inr ⟨x, hx, hzx⟩)
        exact .head ⟨hyz.1, fun hye => hout (hye ▸ hy), fun hze => hout (hze ▸ hz)⟩ ih
    exact h.has_of_past (hpast.tail ⟨h'.tail_next x hx, hxL, hne.symm⟩) hin hne.symm

end TwoLoops

end Loop.Natural

end Flowscript
