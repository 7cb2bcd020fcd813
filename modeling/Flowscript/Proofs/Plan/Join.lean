/-
Nodes that run are live, joins apart.

What a block runs is led to by the node before it, except for the joins: a node behind the arms of
a condition, of a parallel node or of a fork is run whichever way the arms have ended.  A join is
certain if the trigger leads to it whatever the outcomes of the conditions that its guards leave
open (`Certain`, computed from the end of the workflow backwards).  In the plan of a workflow without
feedback loops only live nodes are run, whatever the outcomes, exactly if all joins are certain
(`run_live_iff_certain`).

* Left to right, the conditions on the way to a join that is not certain can come out so that the
  trigger does not lead to it and still all its guards are met (`exists_not_live`).
* Right to left, what is run inside a construct is live with its start (`live_of_run`), because every
  node but the joins is entered by a link that is taken (`plan_wired`).
-/
import Flowscript.Proofs.Plan.Live
import Flowscript.Proofs.Plan.Part

namespace Flowscript

namespace Block

mutual

/-- The nodes with which a block starts. -/
def starts : Block → List String
  | .seq node _ => [node]
  | .branch node _ _ _ => [node]
  | .fan node _ _ _ => [node]
  | .loop node _ _ _ _ => [node]
  | .fork arms _ => startsList arms
  | .visited _ => []
  | .done => []

def startsList : List Block → List String
  | [] => []
  | b :: rest => starts b ++ startsList rest

end

/-- The nodes that a block runs behind its arms. -/
def rejoined : Block → List String
  | .branch _ _ _ next => next.starts
  | .fan _ _ _ next => next.starts
  | .fork _ next => next.starts
  | _ => []

/-- The nodes of a tree that are run behind arms. -/
def joins (b : Block) : List String := b.parts.flatMap rejoined

theorem startsList_eq : ∀ bs, startsList bs = bs.flatMap starts :=
  list_eq_flatMap rfl fun _ _ => rfl

theorem mem_startsList {bs : List Block} {v : String} :
    v ∈ startsList bs ↔ ∃ b ∈ bs, v ∈ b.starts := by
  rw [startsList_eq, List.mem_flatMap]

/-- The blocks below a block that are run with it. -/
def active (val : String → Bool) : Block → List Block
  | .branch node onTrue onFalse next => [if val node then onTrue else onFalse, next]
  | b => b.children

theorem active_subset (val : String → Bool) (b : Block) : b.active val ⊆ b.children := by
  cases b with
  | branch node onTrue onFalse next =>
    intro d hd
    simp only [active, List.mem_cons, List.not_mem_nil, or_false] at hd
    rcases hd with rfl | rfl
    · split <;> simp [children]
    · simp [children]
  | _ => exact List.Subset.refl _

theorem run_eq (val : String → Bool) (b : Block) :
    b.run val = b.owner?.toList ++ (b.active val).flatMap (run val) := by
  cases b with
  | branch node onTrue onFalse next => cases hval : val node <;> simp [run, owner?, active, hval]
  | _ => simp [run, owner?, active, children, runArms_eq, runList_eq]

theorem mem_run_of_active {val : String → Bool} {b : Block} {v : String} :
    v ∈ b.run val ↔ b.owner? = some v ∨ ∃ d ∈ b.active val, v ∈ d.run val := by
  rw [run_eq, List.mem_append, Option.mem_toList, List.mem_flatMap]

theorem starts_subset_run (val : String → Bool) (b : Block) : b.starts ⊆ b.run val := by
  induction b using holds_of_parts with
  | fork arms next ihArms ihNext =>
    intro v hv
    obtain ⟨b, hb, hv⟩ := mem_startsList.mp hv
    exact mem_run_of_active.mpr (.inr ⟨b, List.mem_append_left _ hb, ihArms b hb hv⟩)
  | _ => simp [starts, run]

theorem starts_subset_owned (b : Block) : b.starts ⊆ b.owned := by
  induction b using holds_of_parts with
  | fork arms next ihArms ihNext =>
    intro v hv
    obtain ⟨b, hb, hv⟩ := mem_startsList.mp hv
    exact mem_owned_iff.mpr (.inr ⟨b, List.mem_append_left _ hb, ihArms b hb hv⟩)
  | _ => simp [starts, owned]

theorem owner_mem_starts {b : Block} {v : String} (h : b.owner? = some v) : v ∈ b.starts := by
  cases b <;> simp_all [owner?, starts]

theorem joins_subset_owned (b : Block) : b.joins ⊆ b.owned := by
  intro v hv
  obtain ⟨c, hc, hv⟩ := List.mem_flatMap.mp hv
  have hnext : ∀ next ∈ c.children, v ∈ next.starts → v ∈ b.owned := fun next hnext hv =>
    (part_sublist b hc).subset ((child_sublist hnext).subset (starts_subset_owned next hv))
  cases c with
  | branch node onTrue onFalse next => exact hnext next (by simp [children]) hv
  | fan node arms merge next => exact hnext next (by simp [children]) hv
  | fork arms next => exact hnext next (by simp [children]) hv
  | _ => simp [rejoined] at hv

theorem joins_of_child {b d : Block} (hd : d ∈ b.children) : d.joins ⊆ b.joins := by
  intro v hv
  obtain ⟨c, hc, hv⟩ := List.mem_flatMap.mp hv
  exact List.mem_flatMap.mpr ⟨c, mem_parts_iff.mpr (.inr ⟨d, hd, hc⟩), hv⟩

theorem rejoined_subset_joins (b : Block) : b.rejoined ⊆ b.joins := fun _ hv =>
  List.mem_flatMap.mpr ⟨b, mem_parts_self b, hv⟩

/-- What an arm of a condition runs is run when the condition selects the arm. -/
theorem exists_outcome {v node : String} {arm : Block} (outcome : Bool) (hnodup : arm.owned.Nodup)
    (hnode : node ∉ arm.owned) {val : String → Bool} (hv : v ∈ arm.run val) :
    ∃ val', val' node = outcome ∧ v ∈ arm.run val' := by
  refine ⟨Function.update val node outcome, Function.update_self .., ?_⟩
  obtain ⟨hown, hmet⟩ := (mem_run_iff hnodup).mp hv
  refine (mem_run_iff hnodup).mpr ⟨hown, fun g hg hgv => ?_⟩
  rw [Function.update_of_ne, hmet g hg hgv]
  rintro rfl
  exact hnode (mem_owned_of_guard hg).1

/-- Every node of a tree is run for some outcomes. -/
theorem exists_run {v : String} (b : Block) :
    b.owned.Nodup → v ∈ b.owned → ∃ val, v ∈ b.run val := by
  induction b using holds_of_children with
  | h b ih =>
    intro hnodup hv
    rcases mem_owned_iff.mp hv with howner | ⟨d, hd, hv⟩
    · exact ⟨fun _ => true, mem_run_of_active.mpr (.inl howner)⟩
    · have hd' := (child_sublist hd).nodup hnodup
      obtain ⟨val, hrun⟩ := ih d hd hd' hv
      suffices h : ∃ val, d ∈ b.active val ∧ v ∈ d.run val by
        obtain ⟨val, hactive, hrun⟩ := h
        exact ⟨val, mem_run_of_active.mpr (.inr ⟨d, hactive, hrun⟩)⟩
      cases b with
      | branch node onTrue onFalse next =>
        -- the condition is in neither arm, so its outcome is free
        have hnode : node ∉ onTrue.owned ∧ node ∉ onFalse.owned := by
          simp only [owned, List.nodup_cons, List.mem_append, not_or] at hnodup
          exact hnodup.1.1
        simp only [children, List.mem_cons, List.not_mem_nil, or_false] at hd
        rcases hd with rfl | rfl | rfl
        · obtain ⟨val', hval, hrun⟩ := exists_outcome true hd' hnode.1 hrun
          exact ⟨val', by simp [active, hval], hrun⟩
        · obtain ⟨val', hval, hrun⟩ := exists_outcome false hd' hnode.2 hrun
          exact ⟨val', by simp [active, hval], hrun⟩
        · exact ⟨val, by simp [active], hrun⟩
      | _ => exact ⟨val, hd, hrun⟩

end Block

namespace Plan

variable {a : Accepted} {A : List Loop} {s : Scope} {p q : Progress} {id : String}
  {val : String → Bool}

/-! ### Links that are taken -/

/-- The node has a link that is taken to each of the others. -/
def TakesTo (a : Accepted) (val : String → Bool) (node : String) (vs : List String) : Prop :=
  ∀ v ∈ vs, ∃ l ∈ a.graph.links, l.source = node ∧ l.target = v ∧ a.Taken val l

/-- What a block runs behind its node and not behind its arms is led to by the node. -/
def Wired (a : Accepted) (val : String → Bool) : Block → Prop
  | .seq node next => TakesTo a val node next.starts
  | .branch node onTrue onFalse _ =>
    TakesTo a val node (if val node then onTrue.starts else onFalse.starts)
  | .fan node arms _ _ => ∀ arm ∈ arms.map Prod.snd, TakesTo a val node arm.starts
  | .loop _ _ _ _ _ => False
  | _ => True

theorem TakesTo.live {node : String} {vs : List String} (h : TakesTo a val node vs)
    (hlive : a.Live val node) : ∀ v ∈ vs, a.Live val v := by
  intro v hv
  obtain ⟨l, hl, rfl, rfl, htaken⟩ := h v hv
  exact .link hlive hl htaken

/-- What is run below a block starts with joins, or is led to by its node. -/
theorem Wired.live_starts {b d : Block} (h : Wired a val b) (hd : d ∈ b.active val)
    (hstarts : ∀ v ∈ b.starts, a.Live val v) : ∀ v ∈ d.starts, v ∈ b.rejoined ∨ a.Live val v := by
  intro v hv
  cases b with
  | seq node next =>
    obtain rfl := List.mem_singleton.mp hd
    exact .inr (h.live (hstarts node (by simp [Block.starts])) v hv)
  | branch node onTrue onFalse next =>
    simp only [Block.active, List.mem_cons, List.not_mem_nil, or_false] at hd
    rcases hd with rfl | rfl
    · rw [apply_ite Block.starts] at hv
      exact .inr (h.live (hstarts node (by simp [Block.starts])) v hv)
    · exact .inl hv
  | fan node arms merge next =>
    rcases List.mem_append.mp hd with hd | hd
    · exact .inr ((h d hd).live (hstarts node (by simp [Block.starts])) v hv)
    · exact .inl (List.mem_singleton.mp hd ▸ hv)
  | loop node body maxIterations stopCondition next => exact h.elim
  | fork arms next =>
    rcases List.mem_append.mp hd with hd | hd
    · exact .inr (hstarts v (Block.mem_startsList.mpr ⟨d, hd, hv⟩))
    · exact .inl (List.mem_singleton.mp hd ▸ hv)
  | visited node => simp [Block.active, Block.children] at hd
  | done => simp [Block.active, Block.children] at hd

/-- What a block runs is live if the nodes are with which it starts, and its joins. -/
theorem live_of_run (b : Block) : (∀ c ∈ b.parts, Wired a val c) →
    (∀ v ∈ b.starts, a.Live val v) → (∀ m ∈ b.joins, m ∈ b.run val → a.Live val m) →
    ∀ v ∈ b.run val, a.Live val v := by
  induction b using Block.holds_of_children with
  | h b ih =>
    intro hwired hstarts hjoins v hv
    rcases Block.mem_run_of_active.mp hv with howner | ⟨d, hactive, hv⟩
    · exact hstarts v (Block.owner_mem_starts howner)
    · have hd := Block.active_subset val b hactive
      have hsub : d.run val ⊆ b.run val := fun u hu =>
        Block.mem_run_of_active.mpr (.inr ⟨d, hactive, hu⟩)
      refine ih d hd (fun c hc => hwired c (Block.mem_parts_iff.mpr (.inr ⟨d, hd, hc⟩)))
        (fun u hu => ?_) (fun m hm hrun => hjoins m (Block.joins_of_child hd hm) (hsub hrun)) v hv
      rcases (hwired b (Block.mem_parts_self b)).live_starts hactive hstarts u hu with hjoin | hlive
      · exact hjoins u (Block.rejoined_subset_joins b hjoin) (hsub (Block.starts_subset_run val d hu))
      · exact hlive

/-! ### Blocks start where they are called -/

/-- A block starts with the node that was called. -/
def StartsAt : Call := fun _ _ id _ b _ => ∀ v ∈ b.starts, v = id

theorem Each.starts {ids : List String} {bs : List Block} (h : Each (Keeps a StartsAt) A s ids p bs q) :
    ∀ b ∈ bs, ∀ v ∈ b.starts, v ∈ ids := by
  induction h with
  | nil => simp
  | cons head _ ih =>
    refine List.forall_mem_cons.mpr ⟨fun v hv => ?_, fun b hb v hv => ?_⟩
    · exact List.mem_cons.mpr (.inl (head.2.2 v hv))
    · exact List.mem_cons_of_mem _ (ih b hb v hv)

theorem Behind.starts {ids : List String} {b : Block} (h : Behind a (Keeps a StartsAt) A s ids p b q) :
    ∀ v ∈ b.starts, v ∈ ids := by
  cases h with
  | nothing none => simp [Block.starts]
  | one only call => exact fun v hv => (only v).mpr (call.2.2 v hv)
  | several nodup all arms =>
    intro v hv
    obtain ⟨b, hb, hb'⟩ := Block.mem_startsList.mp hv
    cases arms with
    | apart none arms => exact (all v).mp (arms.starts b hb v hb')
    | meet two some arms rest => exact (all v).mp (arms.starts b hb v hb')

section Loopless

variable (hs : a.Sound) (hloops : a.loops.loops = [])
include hloops

theorem Step.starts {b : Block} (h : Step a (Keeps a StartsAt) A s id p b q) :
    StartsAt A s id p b q := by
  cases h with
  | loop opens mem => simp [hloops] at mem
  | _ => simp [StartsAt, Block.starts]

theorem Step.wired {b : Block} (h : Step a (Keeps a StartsAt) A s id p b q) : Wired a val b := by
  cases h with
  | loop opens mem => simp [hloops] at mem
  | seq opens plain behind kind =>
    intro v hv
    obtain ⟨l, hl, rfl⟩ := List.mem_map.mp (behind.starts v hv)
    obtain ⟨hlinks, hsource⟩ := mem_outByTarget.mp hl
    refine ⟨l, hlinks, hsource, rfl, fun hkind => ?_⟩
    rw [hsource] at hkind
    exact absurd hkind (fun h => kind (by simp [h]))
  | @branch c t f onTrue onFalse next q opens plain kind links labels arms =>
    have hlink : ∀ l, l = t ∨ l = f → l ∈ a.graph.links ∧ l.source = id := fun l hl =>
      Graph.mem_outgoing.mp ((links l).mpr hl)
    have hboth : (∀ v ∈ onTrue.starts, v = t.target) ∧ ∀ v ∈ onFalse.starts, v = f.target := by
      cases arms with
      | apart none arms =>
        cases arms with
        | cons head tail =>
          cases tail with
          | cons head' tail => exact ⟨head.2.2, head'.2.2⟩
      | meet two some arms rest =>
        cases arms with
        | cons head tail =>
          cases tail with
          | cons head' tail => exact ⟨head.2.2, head'.2.2⟩
    intro v hv
    split at hv
    · rename_i hval
      refine ⟨t, (hlink t (.inl rfl)).1, (hlink t (.inl rfl)).2, (hboth.1 v hv).symm, fun _ => ?_⟩
      rw [labels.1, (hlink t (.inl rfl)).2, hval]
    · rename_i hval
      refine ⟨f, (hlink f (.inr rfl)).1, (hlink f (.inr rfl)).2, (hboth.2 v hv).symm, fun _ => ?_⟩
      rw [labels.2, (hlink f (.inr rfl)).2, Bool.eq_false_iff.mpr hval]
  | @fan c bs mid next r opens plain kind arms behind =>
    rw [Wired, map_snd_slots (by simpa using arms.length_eq)]
    intro arm harm v hv
    obtain ⟨l, hl, rfl⟩ := List.mem_map.mp (arms.starts arm harm v hv)
    obtain ⟨hlinks, hsource⟩ := mem_outBySlot.mp hl
    refine ⟨l, hlinks, hsource, rfl, fun hkind => ?_⟩
    rw [hsource, kind] at hkind
    simp [Config.kind] at hkind
  | _ => trivial

include hs

/-- In the plan of a workflow without loops every node but the joins is entered by a link that is
taken. -/
theorem plan_wired : ∀ c ∈ a.plan.block.parts, Wired a val c :=
  plan_parts hs StartsAt (Wired a val) (fun _ _ _ _ _ _ _ _ hstep => hstep.starts hloops)
    (fun _ _ _ _ _ _ _ _ hstep => hstep.wired hloops) trivial fun _ _ => trivial

/-- What the plan runs is live if the joins are. -/
theorem live_of_joins
    (hjoins : ∀ m ∈ a.plan.block.joins, m ∈ a.plan.block.run val → a.Live val m) :
    ∀ v ∈ a.plan.block.run val, a.Live val v := by
  obtain ⟨t, q, ht, -, hstarts, -⟩ := plan_rule hs StartsAt
    fun _ _ _ _ _ _ _ _ hstep => hstep.starts hloops
  refine live_of_run _ (plan_wired hs hloops) (fun v hv => ?_) hjoins
  exact hstarts v hv ▸ .trigger ht

end Loopless

/-! ### Joins that are certain -/

/-- The guards of `m` leave the outcome open that the link belongs to. -/
def Leaves (gs : List Guard) (m : String) (l : Link) : Prop :=
  ∀ g ∈ gs, g.node = m → g.condition = l.source → l.edge.branch = some g.outcome

instance (gs : List Guard) (m : String) (l : Link) : Decidable (Leaves gs m l) :=
  inferInstanceAs (Decidable (∀ g ∈ gs, _ → _ → _))

/-- From the node one comes to the given nodes, if the guards of `m` are met: by any link of a
condition that they leave open, by some link of any other node. -/
def Forces (a : Accepted) (gs : List Guard) (m : String) (sure : List String) (u : String) : Prop :=
  if (a.config? u).map Config.kind = some .condition then
    ∀ l ∈ a.graph.outgoing u, Leaves gs m l → l.target ∈ sure
  else ∃ l ∈ a.graph.outgoing u, l.target ∈ sure

instance (a : Accepted) (gs : List Guard) (m : String) (sure : List String) (u : String) :
    Decidable (Forces a gs m sure u) :=
  inferInstanceAs (Decidable (if (a.config? u).map Config.kind = some .condition then
    ∀ l ∈ a.graph.outgoing u, Leaves gs m l → l.target ∈ sure
    else ∃ l ∈ a.graph.outgoing u, l.target ∈ sure))

/-- The nodes of a list from which one comes to `m` for certain, the nodes behind them in the list
being known. -/
def sureOf (a : Accepted) (gs : List Guard) (m : String) (nodes : List String) : List String :=
  nodes.foldr (fun u sure => if u = m ∨ Forces a gs m sure u then u :: sure else sure) []

/-- The trigger leads to the node if its guards are met, whatever the other outcomes. -/
def Certain (a : Accepted) (gs : List Guard) (m : String) : Prop :=
  ∀ t ∈ a.workflow.trigger?, t.id ∈ sureOf a gs m a.order

instance (a : Accepted) (gs : List Guard) (m : String) : Decidable (Certain a gs m) :=
  inferInstanceAs (Decidable (∀ t ∈ a.workflow.trigger?, _))

variable {gs : List Guard} {m : String}

theorem mem_sureOf_cons {u v : String} {nodes : List String} :
    v ∈ sureOf a gs m (u :: nodes) ↔
      v ∈ sureOf a gs m nodes ∨ v = u ∧ (u = m ∨ Forces a gs m (sureOf a gs m nodes) u) := by
  rw [sureOf, List.foldr_cons, ← sureOf]
  split
  · rename_i h
    simp [h, or_comm]
  · rename_i h
    simp [h]

/-- What comes before a part of the list has no say about the nodes of the part. -/
theorem mem_sureOf_append {v : String} {earlier later : List String} (hv : v ∉ earlier) :
    v ∈ sureOf a gs m (earlier ++ later) ↔ v ∈ sureOf a gs m later := by
  induction earlier with
  | nil => exact Iff.rfl
  | cons u earlier ih =>
    rw [List.mem_cons, not_or] at hv
    rw [List.cons_append, mem_sureOf_cons, ih hv.2]
    simp [hv.1]

section Sure

variable (hs : a.Sound)
include hs

theorem exists_taken {u : String} (hkind : (a.config? u).map Config.kind = some .condition)
    (val : String → Bool) : ∃ l ∈ a.graph.outgoing u, l.edge.branch = some (val u) := by
  obtain ⟨t, f, hout, hlabels⟩ := hs.outcomes hkind
  rw [hout]
  rcases hval : val u <;> rcases hlabels with ⟨ht, hf⟩ | ⟨ht, hf⟩ <;> simp [ht, hf]

/-- From a live node that leads to `m` for certain the links that are taken lead to `m`. -/
theorem live_of_mem_sureOf (hmet : Block.Met val gs m) (nodes : List String) {u : String} :
    u ∈ sureOf a gs m nodes → a.Live val u → a.Live val m := by
  induction nodes generalizing u with
  | nil => exact fun hu => absurd hu (by simp [sureOf])
  | cons v nodes ih =>
    intro hu hlive
    rcases mem_sureOf_cons.mp hu with hu | ⟨rfl, rfl | hforces⟩
    · exact ih hu hlive
    · exact hlive
    · rw [Forces] at hforces
      split at hforces
      · rename_i hkind
        obtain ⟨l, hl, hlabel⟩ := exists_taken hs hkind val
        obtain ⟨hlinks, rfl⟩ := Graph.mem_outgoing.mp hl
        have hopen : Leaves gs m l := fun g hg hnode hcondition => by
          rw [hlabel, ← hcondition, hmet g hg hnode]
        exact ih (hforces l hl hopen) (.link hlive hlinks fun _ => hlabel)
      · rename_i hkind
        obtain ⟨l, hl, hsure⟩ := hforces
        obtain ⟨hlinks, rfl⟩ := Graph.mem_outgoing.mp hl
        exact ih hsure (.link hlive hlinks fun h => absurd h hkind)

/-- A condition has one link for each outcome. -/
theorem link_eq {u : String} (hkind : (a.config? u).map Config.kind = some .condition) {l l' : Link}
    (hl : l ∈ a.graph.outgoing u) (hl' : l' ∈ a.graph.outgoing u)
    (hlabel : l.edge.branch = l'.edge.branch) : l = l' := by
  obtain ⟨t, f, hout, hlabels⟩ := hs.outcomes hkind
  rw [hout, List.mem_cons, List.mem_singleton] at hl hl'
  rcases hlabels with ⟨ht, hf⟩ | ⟨ht, hf⟩ <;> rcases hl with rfl | rfl <;>
    rcases hl' with rfl | rfl <;> simp_all

section Loopless

variable (hloops : a.loops.loops = [])
include hloops

theorem target_mem_later {l : Link} (hl : l ∈ a.graph.links) {earlier later : List String}
    (horder : a.order = earlier ++ l.source :: later) : l.target ∈ later := by
  have hforward := forward_of_link hloops hl
  have hnodup : (earlier ++ l.source :: later).Nodup := horder ▸ hs.nodup_order
  have hmem : l.target ∈ earlier ++ l.source :: later :=
    horder ▸ hs.mem_order.mpr (hs.link_mem l hl).2
  rcases List.mem_append.mp hmem with hmem | hmem
  · -- the source would stand before itself
    obtain ⟨first, second, rfl⟩ := List.append_of_mem hmem
    rw [List.append_assoc, List.cons_append] at horder
    have hfirst := hs.mem_of_order horder hforward
    exact absurd (List.mem_append_left _ hfirst) (Order.notMem_of_nodup hnodup)
  · exact (List.mem_cons.mp hmem).resolve_left (hs.link_ne l hl).symm

/-- Whatever leads to nodes that lead to `m` for certain does so itself. -/
theorem mem_sureOf_order {u : String} (hu : u ∈ a.graph.ids)
    (h : u = m ∨ Forces a gs m (sureOf a gs m a.order) u) : u ∈ sureOf a gs m a.order := by
  obtain ⟨earlier, later, horder⟩ := List.append_of_mem (hs.mem_order.mpr hu)
  have hnodup : (earlier ++ u :: later).Nodup := horder ▸ hs.nodup_order
  have hfirst : u ∉ earlier := Order.notMem_of_nodup hnodup
  have htarget : ∀ l ∈ a.graph.outgoing u,
      (l.target ∈ sureOf a gs m a.order ↔ l.target ∈ sureOf a gs m later) := by
    intro l hl
    obtain ⟨hlinks, rfl⟩ := Graph.mem_outgoing.mp hl
    have hlater := target_mem_later hs hloops hlinks horder
    rw [horder, ← List.singleton_append, ← List.append_assoc, mem_sureOf_append]
    rw [← List.singleton_append, ← List.append_assoc] at hnodup
    exact fun hmem => (List.nodup_append.mp hnodup).2.2 _ hmem _ hlater rfl
  rw [horder, mem_sureOf_append hfirst, mem_sureOf_cons]
  refine .inr ⟨rfl, h.imp_right fun hforces => ?_⟩
  rw [Forces] at hforces ⊢
  split
  · rename_i hkind
    rw [if_pos hkind] at hforces
    exact fun l hl hleaves => (htarget l hl).mp (hforces l hl hleaves)
  · rename_i hkind
    rw [if_neg hkind] at hforces
    obtain ⟨l, hl, hsure⟩ := hforces
    exact ⟨l, hl, (htarget l hl).mp hsure⟩

/-- A condition that does not lead to `m` for certain has an outcome, allowed by the guards of `m`,
whose link does not either. -/
theorem exists_escape (hmet : Block.Met val gs m) (u : String) : ∃ outcome : Bool,
    (∀ g ∈ gs, g.node = m → g.condition = u → outcome = g.outcome) ∧
    (u ∉ sureOf a gs m a.order → (a.config? u).map Config.kind = some .condition →
      ∀ l ∈ a.graph.outgoing u, l.edge.branch = some outcome → l.target ∉ sureOf a gs m a.order) := by
  by_cases hesc : (a.config? u).map Config.kind = some .condition ∧ ∃ l ∈ a.graph.outgoing u,
      Leaves gs m l ∧ l.target ∉ sureOf a gs m a.order
  · obtain ⟨hkind, l, hl, hleaves, htarget⟩ := hesc
    obtain ⟨outcome, hlabel⟩ : ∃ outcome, l.edge.branch = some outcome := by
      obtain ⟨t, f, hout, hlabels⟩ := hs.outcomes hkind
      rw [hout, List.mem_cons, List.mem_singleton] at hl
      rcases hlabels with ⟨ht, hf⟩ | ⟨ht, hf⟩ <;> rcases hl with rfl | rfl <;> simp [ht, hf]
    refine ⟨outcome, fun g hg hnode hcondition => ?_, fun _ _ l' hl' hlabel' => ?_⟩
    · have hsource := (Graph.mem_outgoing.mp hl).2
      have := hleaves g hg hnode (hcondition.trans hsource.symm)
      exact Option.some.inj (hlabel.symm.trans this)
    · exact link_eq hs hkind hl hl' (hlabel.trans hlabel'.symm) ▸ htarget
  · refine ⟨val u, fun g hg hnode hcondition => hcondition ▸ hmet g hg hnode,
      fun hnot hkind l hl _ => ?_⟩
    -- then all links of the condition that are left open lead to `m`, and so does the condition
    refine absurd (mem_sureOf_order hs hloops ?_ (.inr ?_)) hnot
    · obtain ⟨hlinks, rfl⟩ := Graph.mem_outgoing.mp hl
      exact (hs.link_mem l hlinks).1
    · rw [Forces, if_pos hkind]
      intro l hl hleaves
      by_contra htarget
      exact hesc ⟨hkind, l, hl, hleaves, htarget⟩

/-- The conditions can come out so that a join which is not certain is not live. -/
theorem exists_not_live (hcertain : ¬Certain a gs m) (hm : m ∈ a.graph.ids)
    (hmet : Block.Met val gs m) : ∃ val', Block.Met val' gs m ∧ ¬a.Live val' m := by
  choose val' hguards hescape using exists_escape hs hloops hmet
  refine ⟨val', fun g hg hnode => hguards g.condition g hg hnode rfl, fun hlive => ?_⟩
  have hout : ∀ v, a.Live val' v → v ∉ sureOf a gs m a.order := by
    intro v hlive
    induction hlive with
    | @trigger t first =>
      refine fun ht => hcertain fun t' ht' => ?_
      rwa [← Option.some.inj (first.symm.trans ht')]
    | @link l live mem taken ih =>
      have hl : l ∈ a.graph.outgoing l.source := Graph.mem_outgoing.mpr ⟨mem, rfl⟩
      by_cases hkind : (a.config? l.source).map Config.kind = some .condition
      · exact hescape l.source ih hkind l hl (taken hkind)
      · refine fun htarget => ih (mem_sureOf_order hs hloops (hs.link_mem l mem).1 (.inr ?_))
        rw [Forces, if_neg hkind]
        exact ⟨l, hl, htarget⟩
  exact hout m hlive (mem_sureOf_order hs hloops hm (.inl rfl))

end Loopless

end Sure

end Plan

/-- The plan of a workflow without feedback loops runs only live nodes, whatever the outcomes of the
conditions, exactly if every join is certain. -/
theorem run_live_iff_certain {w : Workflow} {a : Accepted} (h : check w = .ok a)
    (hloopless : ∀ n ∈ w.nodes, n.kind ≠ .feedbackLoop) :
    (∀ val, ∀ v ∈ a.plan.block.run val, a.Live val v) ↔
      ∀ m ∈ a.plan.block.joins, Plan.Certain a a.plan.block.guards m := by
  have hs := Check.sound_of_check h
  have hloops := loops_eq_nil h hloopless
  have hnodup := Plan.owned_nodup hs
  constructor
  · intro hlive m hm
    by_contra hcertain
    have hown := Block.joins_subset_owned _ hm
    obtain ⟨val, hrun⟩ := Block.exists_run _ hnodup hown
    obtain ⟨val', hmet, hnot⟩ := Plan.exists_not_live hs hloops hcertain
      (Plan.owned_subset hs m hown) ((Block.mem_run_iff hnodup).mp hrun).2
    exact hnot (hlive val' m ((Block.mem_run_iff hnodup).mpr ⟨hown, hmet⟩))
  · intro hcertain val
    refine Plan.live_of_joins hs hloops fun m hm hrun => ?_
    obtain ⟨t, ht, -⟩ := hs.trigger
    exact Plan.live_of_mem_sureOf hs ((Block.mem_run_iff hnodup).mp hrun).2 a.order
      (hcertain m hm t ht) (.trigger ht)

/-- A large order that looks risky is put on hold, every other order is shipped.  An order on hold
goes on to the given nodes. -/
def orderFlow (released : List String) : Workflow where
  nodes :=
    [ { id := "start", config := .trigger {} },
      { id := "large", config := .condition { expression := "total > 1000" } },
      { id := "risky", config := .condition { expression := "score > 7" } },
      { id := "hold", config := .agent { prompt := "hold" } },
      { id := "ship", config := .agent { prompt := "ship" } } ]
  edges :=
    [ { id := "e1", source := "start", target := "large" },
      { id := "e2", source := "large", target := "risky", branch := some true },
      { id := "e3", source := "large", target := "ship", branch := some false },
      { id := "e4", source := "risky", target := "hold", branch := some true },
      { id := "e5", source := "risky", target := "ship", branch := some false } ] ++
    released.map fun id => { id := "release-" ++ id, source := "hold", target := id }

/-- If an order on hold is shipped in the end, the shipping is certain. -/
theorem run_live_orderFlow : ∃ a, check (orderFlow ["ship"]) = .ok a ∧
    (∀ n ∈ (orderFlow ["ship"]).nodes, n.kind ≠ .feedbackLoop) ∧
    a.plan.block.joins = ["ship"] ∧
    (∀ val, ∀ v ∈ a.plan.block.run val, a.Live val v) ∧
    a.plan.block.run (fun _ => true) = ["start", "large", "risky", "hold", "ship"] := by
  obtain ⟨a, ha, hjoins, hcertain, hrun⟩ : ∃ a, check (orderFlow ["ship"]) = .ok a ∧
      a.plan.block.joins = ["ship"] ∧
      (∀ m ∈ a.plan.block.joins, Plan.Certain a a.plan.block.guards m) ∧
      a.plan.block.run (fun _ => true) = ["start", "large", "risky", "hold", "ship"] :=
    exists_check_ok (by decide +kernel)
  have hloopless : ∀ n ∈ (orderFlow ["ship"]).nodes, n.kind ≠ .feedbackLoop := by decide
  exact ⟨a, ha, hloopless, hjoins, (run_live_iff_certain ha hloopless).mpr hcertain, hrun⟩

/-- If an order on hold goes nowhere, it is shipped nevertheless: the shipping is planned behind the
arms of the first condition, in one of which the second condition may lead away from it. -/
theorem ship_run_not_live : ∃ a, check (orderFlow []) = .ok a ∧
    (∀ n ∈ (orderFlow []).nodes, n.kind ≠ .feedbackLoop) ∧
    (∀ d ∈ a.plan.diagnostics, d.code ≠ "L001") ∧
    ("ship" ∈ a.plan.block.run fun _ => true) ∧ ¬a.Live (fun _ => true) "ship" := by
  obtain ⟨a, ha, hsilent, hrun, htrigger, hclosed⟩ : ∃ a, check (orderFlow []) = .ok a ∧
      (∀ d ∈ a.plan.diagnostics, d.code ≠ "L001") ∧
      ("ship" ∈ a.plan.block.run fun _ => true) ∧
      (∀ t ∈ a.workflow.trigger?, t.id ≠ "ship") ∧
      (∀ l ∈ a.graph.links, a.Taken (fun _ => true) l → l.target ≠ "ship") :=
    exists_check_ok (by decide +kernel)
  refine ⟨a, ha, by decide, hsilent, hrun, fun hlive => ?_⟩
  generalize hship : "ship" = v at hlive
  cases hlive with
  | trigger first => exact htrigger _ first hship.symm
  | link live mem taken => exact hclosed _ mem taken hship.symm

end Flowscript
