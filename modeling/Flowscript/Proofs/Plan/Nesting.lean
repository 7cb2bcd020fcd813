/-
Forward links in and out of loops.

Forward links lead up in a numbering, and a loop is entered at its entry only.  So a way of forward
links that leaves a loop does not come back:

* `led_of_has` — the entry leads to every node of its loop;
* `has_between` — a way between two nodes of a loop stays in the loop;
* `body_between` — and in its body, if both ends are there.
-/
import Flowscript.Proofs.Plan.Reach

open Relation

namespace Flowscript

namespace Plan

variable {a : Accepted} {s : Scope}

/-- A way that a walk follows. -/
abbrev Led (a : Accepted) (s : Scope) : String → String → Prop := ReflTransGen (Leads a s)

theorem led_of_forward {u v : String} (h : ReflTransGen a.Forward u v) : Led a {} u v :=
  ReflTransGen.mono (fun _ _ hxy => ⟨List.not_mem_nil, hxy⟩) _ _ h

/-- What is followed with more nodes to stop at is followed with fewer. -/
theorem Led.mono {s' : Scope} (hss' : s.reserved ⊆ s'.reserved) {u v : String} (h : Led a s' u v) :
    Led a s u v :=
  ReflTransGen.mono (fun _ _ hxy => ⟨fun hx => hxy.1 (hss' hx), hxy.2⟩) _ _ h

variable (hs : a.Sound)
include hs

theorem forward_antisymm {u v : String} (huv : ReflTransGen a.Forward u v)
    (hvu : ReflTransGen a.Forward v u) : u = v := by
  obtain ⟨rank, hrank⟩ := hs.rank
  have hle : ∀ {x y}, ReflTransGen a.Forward x y → x = y ∨ rank x < rank y := by
    intro x y h
    induction h with
    | refl => exact .inl rfl
    | tail _ hyz ih =>
      have := hrank _ _ hyz
      rcases ih with rfl | hlt
      · exact .inr this
      · exact .inr (Nat.lt_trans hlt this)
  rcases hle huv with heq | hlt
  · exact heq
  · rcases hle hvu with heq | hlt'
    · exact heq.symm
    · exact absurd hlt' (Nat.lt_asymm hlt)

variable {L : Loop} (hL : L ∈ a.loops.loops)
include hL

/-- The entry of a loop leads to every node of it. -/
theorem led_of_has (hfree : ∀ v, L.Has v → v ∉ s.reserved) {v : String} (hv : L.Has v) :
    Led a s L.entry v := by
  obtain ⟨rank, hrank⟩ := hs.rank
  obtain ⟨t, -, -, -, hloop, hpred⟩ := hs.trigger
  induction hn : rank v using Nat.strongRecOn generalizing v with
  | _ n ih =>
    by_cases hentry : v = L.entry
    · exact hentry ▸ .refl
    · -- what leads to a node other than the entry comes from inside
      have hne : v ≠ t.id := fun h => hloop L hL (h ▸ hv)
      obtain ⟨u, l, hl, hback, rfl, rfl⟩ := hpred v (hs.has_mem L hL v hv) hne
      have hu : L.Has l.source := by
        by_contra hu
        exact hentry (hs.enters L hL l hl hv hu)
      have hforward : a.Forward l.source l.target := ⟨l, hl, hback, rfl, rfl⟩
      exact (ih _ (hn ▸ hrank _ _ hforward) hu rfl).tail ⟨hfree _ hu, hforward⟩

theorem forward_of_has {v : String} (hv : L.Has v) : ReflTransGen a.Forward L.entry v :=
  forward_of_leads (led_of_has (s := {}) hs hL (fun _ _ => List.not_mem_nil) hv)

theorem has_between {u v x : String} (hu : L.Has u) (hv : L.Has v)
    (hux : ReflTransGen a.Forward u x) (hxv : ReflTransGen a.Forward x v) : L.Has x := by
  by_contra hx
  have hentry := forward_of_leads
    (leads_entry hs hL (fun h => absurd h hx) hv (led_of_forward hxv)).1
  have := forward_antisymm hs ((forward_of_has hs hL hu).trans hux) hentry
  exact hx (this ▸ hs.has_entry L hL)

/-- The head of a loop that is entered elsewhere leads to no node of the body. -/
theorem head_not_forward (hne : L.head ≠ L.entry) {v : String} (hv : v ∈ L.body) :
    ¬ReflTransGen a.Forward L.head v := by
  intro hway
  rcases hway.cases_head with heq | ⟨x, ⟨l, hl, hback, hsource, rfl⟩, hxv⟩
  · exact hs.head_notMem L hL (heq ▸ hv)
  · have hforward : a.Forward L.head l.target := ⟨l, hl, hback, hsource, rfl⟩
    rcases has_between hs hL (.inl rfl) (.inr hv) (.single hforward) hxv with hhead | hbody
    · exact hs.link_ne l hl (hsource.trans hhead.symm)
    · -- inside the body it leads to the entry only, and that is a link back
      have htarget := hs.bodyEntry_unique L hL l hl hsource hbody
      rw [hs.bodyEntry_eq L hL hne] at htarget
      have := (hs.isBack_iff l hl).mpr ⟨L, hL, htarget, .inl hsource⟩
      simp [this] at hback

theorem body_between {u v x : String} (hu : u ∈ L.body) (hv : v ∈ L.body)
    (hux : ReflTransGen a.Forward u x) (hxv : ReflTransGen a.Forward x v) : x ∈ L.body := by
  rcases has_between hs hL (.inr hu) (.inr hv) hux hxv with rfl | hbody
  · by_cases heq : L.head = L.entry
    · have := forward_antisymm hs hux (heq ▸ forward_of_has hs hL (.inr hu))
      exact absurd (this ▸ hu) (hs.head_notMem L hL)
    · exact absurd hxv (head_not_forward hs hL heq hv)
  · exact hbody

end Plan

end Flowscript
