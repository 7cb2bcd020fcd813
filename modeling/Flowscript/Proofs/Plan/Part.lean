/-
The blocks inside a tree.

`Block.parts` are all blocks of a tree, itself included.  What is said of single blocks of a plan is
proved where the planner makes them:

* `mem_parts_iff`, `mem_owned_iff` — a tree is its root with the parts of its children;
* `Step.shape` — a step makes a block without children, a block that runs the node it is called at,
  or a loop;
* `Step.made_children` — what the blocks inside a block are that a step returns;
* `plan_parts_of_arms`, `plan_parts` — what holds of every block that a step returns holds of every
  part of the plan.
-/
import Flowscript.Proofs.Plan.Rule

namespace Flowscript

namespace Block

mutual

/-- All blocks of a tree, each before the blocks inside it. -/
def parts : Block → List Block
  | .seq node next => .seq node next :: parts next
  | .branch node onTrue onFalse next =>
    .branch node onTrue onFalse next :: (parts onTrue ++ parts onFalse ++ parts next)
  | .fan node arms merge next => .fan node arms merge next :: (partsArms arms ++ parts next)
  | .loop node body maxIterations stopCondition next =>
    .loop node body maxIterations stopCondition next :: (parts body ++ parts next)
  | .fork arms next => .fork arms next :: (partsList arms ++ parts next)
  | .visited node => [.visited node]
  | .done => [.done]

def partsArms : List (String × Block) → List Block
  | [] => []
  | (_, b) :: rest => parts b ++ partsArms rest

def partsList : List Block → List Block
  | [] => []
  | b :: rest => parts b ++ partsList rest

end

theorem partsList_eq : ∀ bs, partsList bs = bs.flatMap parts :=
  list_eq_flatMap rfl fun _ _ => rfl

theorem partsArms_eq : ∀ arms, partsArms arms = (arms.map Prod.snd).flatMap parts :=
  arms_eq_flatMap rfl fun _ _ _ => rfl

/-! ### Roots and children -/

theorem parts_eq (b : Block) : b.parts = b :: b.children.flatMap parts := by
  cases b <;> simp [parts, children, partsArms_eq, partsList_eq]

theorem owned_eq (b : Block) : b.owned = b.owner?.toList ++ b.children.flatMap owned := by
  cases b <;> simp [owned, owner?, children, ownedArms_eq, ownedList_eq]

theorem mem_parts_iff {b c : Block} : c ∈ b.parts ↔ c = b ∨ ∃ d ∈ b.children, c ∈ d.parts := by
  rw [parts_eq, List.mem_cons, List.mem_flatMap]

theorem mem_owned_iff {b : Block} {v : String} :
    v ∈ b.owned ↔ b.owner? = some v ∨ ∃ d ∈ b.children, v ∈ d.owned := by
  rw [owned_eq, List.mem_append, Option.mem_toList, List.mem_flatMap]

theorem mem_parts_self (b : Block) : b ∈ b.parts := mem_parts_iff.mpr (.inl rfl)

/-- Induction over a tree by its children. -/
theorem holds_of_children {P : Block → Prop} (h : ∀ b, (∀ d ∈ b.children, P d) → P b) (b : Block) :
    P b := by
  induction b using holds_of_parts with
  | seq node next ih => exact h _ (by simpa [children] using ih)
  | branch node onTrue onFalse next ihTrue ihFalse ihNext =>
    exact h _ (by simpa [children] using ⟨ihTrue, ihFalse, ihNext⟩)
  | fan node arms merge next ihArms ihNext =>
    refine h _ fun d hd => ?_
    rcases List.mem_append.mp hd with hd | hd
    · exact ihArms d hd
    · exact List.mem_singleton.mp hd ▸ ihNext
  | loop node body _ _ next ihBody ihNext =>
    exact h _ (by simpa [children] using ⟨ihBody, ihNext⟩)
  | fork arms next ihArms ihNext =>
    refine h _ fun d hd => ?_
    rcases List.mem_append.mp hd with hd | hd
    · exact ihArms d hd
    · exact List.mem_singleton.mp hd ▸ ihNext
  | visited node => exact h _ (by simp [children])
  | done => exact h _ (by simp [children])

theorem child_sublist {b d : Block} (hd : d ∈ b.children) : d.owned.Sublist b.owned := by
  rw [owned_eq b]
  exact (List.sublist_flatten_of_mem (List.mem_map_of_mem hd)).trans (List.sublist_append_right _ _)

theorem part_sublist {c : Block} (b : Block) : c ∈ b.parts → c.owned.Sublist b.owned := by
  induction b using holds_of_children with
  | h b ih =>
    intro hc
    rcases mem_parts_iff.mp hc with rfl | ⟨d, hd, hc⟩
    · exact List.Sublist.refl _
    · exact (ih d hd hc).trans (child_sublist hd)

theorem parts_trans {b d e : Block} (hd : d ∈ b.parts) (he : e ∈ d.parts) : e ∈ b.parts := by
  induction b using holds_of_children with
  | h b ih =>
    rcases mem_parts_iff.mp hd with rfl | ⟨child, hchild, hd⟩
    · exact he
    · exact mem_parts_iff.mpr (.inr ⟨child, hchild, ih child hchild hd⟩)

/-- Every owned node is the node of one of the blocks. -/
theorem exists_owner {v : String} (b : Block) : v ∈ b.owned → ∃ c ∈ b.parts, c.owner? = some v := by
  induction b using holds_of_children with
  | h b ih =>
    intro hv
    rcases mem_owned_iff.mp hv with hv | ⟨d, hd, hv⟩
    · exact ⟨b, mem_parts_self b, hv⟩
    · obtain ⟨c, hc, howner⟩ := ih d hd hv
      exact ⟨c, mem_parts_iff.mpr (.inr ⟨d, hd, hc⟩), howner⟩

end Block

namespace Plan

variable {a : Accepted} {A : List Loop} {s : Scope} {p q r : Progress} {id : String} {R : Call}

/-! ### Blocks that a step makes -/

section Made

variable {P : Block → Prop} (hdone : P .done)

theorem Each.made {ids : List String} {bs : List Block} (h : Each R A s ids p bs q)
    (hR : ∀ s id p b q, R A s id p b q → P b) : ∀ b ∈ bs, P b := by
  induction h with
  | nil => simp
  | cons head _ ih => exact List.forall_mem_cons.mpr ⟨hR _ _ _ _ _ head, ih⟩

include hdone

theorem Arms.made {ids : List String} {bs : List Block} {next : Block}
    (h : Arms a R A s ids p bs next q) (hR : ∀ s id p b q, R A s id p b q → P b) :
    (∀ b ∈ bs, P b) ∧ P next := by
  cases h with
  | apart none arms => exact ⟨arms.made hR, hdone⟩
  | meet two some arms rest => exact ⟨arms.made hR, hR _ _ _ _ _ rest⟩

theorem Behind.made {ids : List String} {b : Block} (h : Behind a R A s ids p b q)
    (hfork : ∀ bs next, (∀ b ∈ bs, P b) → P next → P (.fork bs next))
    (hR : ∀ s id p b q, R A s id p b q → P b) : P b := by
  cases h with
  | nothing none => exact hdone
  | one only call => exact hR _ _ _ _ _ call
  | several nodup all arms =>
    obtain ⟨harms, hnext⟩ := arms.made hdone hR
    exact hfork _ _ harms hnext

end Made

theorem map_snd_slots {bs : List Block} (h : bs.length = (outBySlot a id).length) :
    (((outBySlot a id).map fun l => l.edge.slot.getD "").zip bs).map Prod.snd = bs :=
  List.map_snd_zip (by simp [h])

/-- What a step returns: a block that owns nothing, a block that runs the node and is made of the
blocks that the calls return, or a loop. -/
theorem Step.shape {b : Block} (h : Step a R A s id p b q) (hready : Ready a A s id p) :
    b.owner? = none ∧ b.children = [] ∨
    (Plain a A s p id ∧ b.owner? = some id ∧ ∀ P : Block → Prop, P .done →
      (∀ bs next, (∀ b ∈ bs, P b) → P next → P (.fork bs next)) →
      (∀ s id p b q, R A s id p b q → P b) → ∀ d ∈ b.children, P d) ∨
    ∃ L c, Starts a A s p L ∧ L.entry = id ∧ a.config? L.head = some (.feedbackLoop c) ∧
      Round a R A s L c (p.mark L.head) b q := by
  cases h with
  | reserved stop => exact .inl ⟨rfl, rfl⟩
  | outside free beyond => exact .inl ⟨rfl, rfl⟩
  | again free within old => exact .inl ⟨rfl, rfl⟩
  | early free within fresh wait => exact .inl ⟨rfl, rfl⟩
  | loop opens mem entry head round config =>
    exact .inr (.inr ⟨_, _, ⟨mem, entry ▸ hready, entry ▸ opens, head⟩, entry, config, round⟩)
  | seq opens plain behind =>
    refine .inr (.inl ⟨⟨hready, opens, plain⟩, rfl, fun P hdone hfork hR d hd => ?_⟩)
    exact List.mem_singleton.mp hd ▸ behind.made hdone hfork hR
  | branch opens plain kind links labels arms =>
    refine .inr (.inl ⟨⟨hready, opens, plain⟩, rfl, fun P hdone hfork hR => ?_⟩)
    obtain ⟨harms, hnext⟩ := arms.made hdone hR
    simpa [Block.children, and_assoc, hnext] using harms
  | @fan c bs mid next r opens plain kind arms behind =>
    refine .inr (.inl ⟨⟨hready, opens, plain⟩, rfl, fun P hdone hfork hR d hd => ?_⟩)
    rw [Block.children, map_snd_slots (by simpa using arms.length_eq)] at hd
    rcases List.mem_append.mp hd with hd | hd
    · exact arms.made hR d hd
    · exact List.mem_singleton.mp hd ▸ behind.made hdone hfork hR

/-- A block inside another one: nothing, what a call returned, or arms of different nodes. -/
inductive Made (a : Accepted) (R : Call) : Block → Prop
  | done : Made a R .done
  | call {A s id p b q} (call : R A s id p b q) : Made a R b
  | fork {A s ts p bs next q} (nodup : ts.Nodup) (arms : Arms a R A s ts p bs next q) :
    Made a R (.fork bs next)

theorem Arms.made_children {ids : List String} {bs : List Block} {next : Block}
    (h : Arms a R A s ids p bs next q) : (∀ b ∈ bs, Made a R b) ∧ Made a R next :=
  h.made .done fun _ _ _ _ _ hcall => .call hcall

theorem Behind.made_block {ids : List String} {b : Block} (h : Behind a R A s ids p b q) :
    Made a R b := by
  cases h with
  | nothing none => exact .done
  | one only call => exact .call call
  | several nodup all arms => exact .fork nodup arms

theorem Step.made_children {b : Block} (h : Step a R A s id p b q) :
    ∀ d ∈ b.children, Made a R d := by
  cases h with
  | loop opens mem entry head round config =>
    cases round with
    | mk round behind => simpa [Block.children] using ⟨.call round, behind.made_block⟩
  | seq opens plain behind => simpa [Block.children] using behind.made_block
  | branch opens plain kind links labels arms =>
    obtain ⟨harms, hnext⟩ := arms.made_children
    simpa [Block.children, and_assoc, hnext] using harms
  | @fan c bs mid next r opens plain kind arms behind =>
    intro d hd
    rw [Block.children, map_snd_slots (by simpa using arms.length_eq)] at hd
    rcases List.mem_append.mp hd with hd | hd
    · exact arms.made (fun _ _ _ _ _ hcall => .call hcall) d hd
    · exact List.mem_singleton.mp hd ▸ behind.made_block
  | _ => simp [Block.children]

/-- What holds of every block that a step returns, and of all arms of different nodes with what
comes behind them, holds of every part of the plan. -/
theorem plan_parts_of_arms (hs : a.Sound) (Φ : Call) (P : Block → Prop)
    (hΦ : ∀ A s id p b q, Ready a A s id p → Ended a A s id p b q →
      Step a (Keeps a Φ) A s id p b q → Φ A s id p b q)
    (hP : ∀ A s id p b q, Ready a A s id p → Ended a A s id p b q →
      Step a (Keeps a Φ) A s id p b q → P b)
    (hdone : P .done) (hfork : ∀ A s ts p bs next q, ts.Nodup →
      Arms a (Keeps a Φ) A s ts p bs next q → P (.fork bs next)) :
    ∀ c ∈ a.plan.block.parts, P c := by
  have hmany : ∀ b : Block, P b → (∀ d ∈ b.children, ∀ c ∈ d.parts, P c) → ∀ c ∈ b.parts, P c := by
    intro b hself hchildren c hc
    rcases Block.mem_parts_iff.mp hc with rfl | ⟨d, hd, hc⟩
    · exact hself
    · exact hchildren d hd c hc
  have hnone : ∀ c ∈ Block.done.parts, P c := hmany _ hdone (by simp [Block.children])
  obtain ⟨t, q, -, -, ⟨-, hparts⟩, -⟩ := plan_rule hs
    (fun A s id p b q => Φ A s id p b q ∧ ∀ c ∈ b.parts, P c)
    fun A s id p b q hready hend hstep => by
      have hless : ∀ A s id p b q,
          Keeps a (fun A s id p b q => Φ A s id p b q ∧ ∀ c ∈ b.parts, P c) A s id p b q →
            Keeps a Φ A s id p b q := fun _ _ _ _ _ _ hcall => ⟨hcall.1, hcall.2.1, hcall.2.2.1⟩
      have hstep' := hstep.mono hless
      refine ⟨hΦ A s id p b q hready hend hstep', hmany b (hP A s id p b q hready hend hstep') ?_⟩
      intro d hd
      cases hstep.made_children d hd with
      | done => exact hnone
      | call call => exact call.2.2.2
      | fork nodup arms =>
        obtain ⟨hbs, hnext⟩ := arms.made hnone fun _ _ _ _ _ hcall => hcall.2.2.2
        refine hmany _ (hfork _ _ _ _ _ _ _ nodup (arms.mono hless)) fun d hd => ?_
        rcases List.mem_append.mp hd with hd | hd
        · exact hbs d hd
        · exact List.mem_singleton.mp hd ▸ hnext
  exact hparts

/-- What holds of every block that a step returns holds of every part of the plan but the forks. -/
theorem plan_parts (hs : a.Sound) (Φ : Call) (P : Block → Prop)
    (hΦ : ∀ A s id p b q, Ready a A s id p → Ended a A s id p b q →
      Step a (Keeps a Φ) A s id p b q → Φ A s id p b q)
    (hP : ∀ A s id p b q, Ready a A s id p → Ended a A s id p b q →
      Step a (Keeps a Φ) A s id p b q → P b)
    (hdone : P .done) (hfork : ∀ bs next, P (.fork bs next)) :
    ∀ c ∈ a.plan.block.parts, P c :=
  plan_parts_of_arms hs Φ P hΦ hP hdone fun _ _ _ _ bs next _ _ _ => hfork bs next

end Plan

end Flowscript
