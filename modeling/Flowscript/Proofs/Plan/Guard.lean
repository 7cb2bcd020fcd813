/-
What a tree of blocks runs.

Given an outcome for every condition, `Block.run` are the nodes that a tree runs.  A node inside an
arm of a condition runs only if the condition comes out that way; `Block.guards` lists these
requirements, and `mem_run_iff` says that nothing else is required.  `Block.fans` are the parallel
nodes of a tree, each with what its arms own and with what comes behind them.
-/
import Flowscript.Proofs.Plan.Tree
import Mathlib.Data.List.Nodup
import Mathlib.Data.List.Pairwise

namespace Flowscript

/-- The node runs only if the condition has the outcome. -/
structure Guard where
  condition : String
  outcome : Bool
  node : String
  deriving DecidableEq, Repr

/-- A parallel node with the nodes inside its arms and the block behind them. -/
structure Fan where
  node : String
  inner : List String
  next : Block

namespace Block

mutual

/-- The nodes that are run when the conditions come out as given.  A loop counts as one round. -/
def run (val : String → Bool) : Block → List String
  | .seq node next => node :: run val next
  | .branch node onTrue onFalse next =>
    node :: ((if val node then run val onTrue else run val onFalse) ++ run val next)
  | .fan node arms _ next => node :: (runArms val arms ++ run val next)
  | .loop node body _ _ next => node :: (run val body ++ run val next)
  | .fork arms next => runList val arms ++ run val next
  | .visited _ => []
  | .done => []

def runArms (val : String → Bool) : List (String × Block) → List String
  | [] => []
  | (_, b) :: rest => run val b ++ runArms val rest

def runList (val : String → Bool) : List Block → List String
  | [] => []
  | b :: rest => run val b ++ runList val rest

end

mutual

/-- The outcomes that the nodes inside the arms of conditions require. -/
def guards : Block → List Guard
  | .seq _ next => guards next
  | .branch node onTrue onFalse next =>
    (owned onTrue).map (⟨node, true, ·⟩) ++ (owned onFalse).map (⟨node, false, ·⟩) ++
      (guards onTrue ++ guards onFalse ++ guards next)
  | .fan _ arms _ next => guardsArms arms ++ guards next
  | .loop _ body _ _ next => guards body ++ guards next
  | .fork arms next => guardsList arms ++ guards next
  | .visited _ => []
  | .done => []

def guardsArms : List (String × Block) → List Guard
  | [] => []
  | (_, b) :: rest => guards b ++ guardsArms rest

def guardsList : List Block → List Guard
  | [] => []
  | b :: rest => guards b ++ guardsList rest

end

mutual

/-- The parallel nodes of a tree. -/
def fans : Block → List Fan
  | .seq _ next => fans next
  | .branch _ onTrue onFalse next => fans onTrue ++ fans onFalse ++ fans next
  | .fan node arms _ next => ⟨node, ownedArms arms, next⟩ :: (fansArms arms ++ fans next)
  | .loop _ body _ _ next => fans body ++ fans next
  | .fork arms next => fansList arms ++ fans next
  | .visited _ => []
  | .done => []

def fansArms : List (String × Block) → List Fan
  | [] => []
  | (_, b) :: rest => fans b ++ fansArms rest

def fansList : List Block → List Fan
  | [] => []
  | b :: rest => fans b ++ fansList rest

end

/-! ### Arms one by one -/

theorem runList_eq (val : String → Bool) : ∀ bs, runList val bs = bs.flatMap (run val) :=
  list_eq_flatMap rfl fun _ _ => rfl

theorem runArms_eq (val : String → Bool) :
    ∀ arms, runArms val arms = (arms.map Prod.snd).flatMap (run val) :=
  arms_eq_flatMap rfl fun _ _ _ => rfl

theorem guardsList_eq : ∀ bs, guardsList bs = bs.flatMap guards :=
  list_eq_flatMap rfl fun _ _ => rfl

theorem guardsArms_eq : ∀ arms, guardsArms arms = (arms.map Prod.snd).flatMap guards :=
  arms_eq_flatMap rfl fun _ _ _ => rfl

theorem fansList_eq : ∀ bs, fansList bs = bs.flatMap fans :=
  list_eq_flatMap rfl fun _ _ => rfl

theorem fansArms_eq : ∀ arms, fansArms arms = (arms.map Prod.snd).flatMap fans :=
  arms_eq_flatMap rfl fun _ _ _ => rfl

/-- What an arm owns in this order the arms own in this order. -/
theorem sublist_flatMap_owned {β : Type} {f : Block → List β} {x : β} {vs : List String}
    {bs : List Block} (h : ∀ b ∈ bs, x ∈ f b → vs.Sublist b.owned) (hx : x ∈ bs.flatMap f) :
    vs.Sublist (bs.flatMap owned) := by
  obtain ⟨b, hb, hx⟩ := List.mem_flatMap.mp hx
  exact (h b hb hx).trans (List.sublist_flatten_of_mem (List.mem_map_of_mem hb))

/-! ### Guards -/

/-- A condition stands before the nodes inside its arms. -/
theorem guard_sublist {g : Guard} (b : Block) :
    g ∈ b.guards → [g.condition, g.node].Sublist b.owned := by
  induction b using holds_of_parts with
  | seq node next ih => exact fun hg => (ih hg).trans (List.sublist_cons_self _ _)
  | branch node onTrue onFalse next ihTrue ihFalse ihNext =>
    intro hg
    simp only [guards, List.mem_append, List.mem_map] at hg
    have hown : ∀ v, v ∈ onTrue.owned ++ onFalse.owned ++ next.owned →
        [node, v].Sublist (Block.branch node onTrue onFalse next).owned :=
      fun v hv => (List.singleton_sublist.mpr hv).cons_cons _
    rw [owned]
    rcases hg with (⟨v, hv, rfl⟩ | ⟨v, hv, rfl⟩) | (hg | hg) | hg
    · exact hown v (by simp [hv])
    · exact hown v (by simp [hv])
    · exact ((ihTrue hg).trans (by simp)).cons _
    · exact ((ihFalse hg).trans (by simp)).cons _
    · exact ((ihNext hg).trans (by simp)).cons _
  | fan node arms merge next ihArms ihNext =>
    intro hg
    rw [guards, guardsArms_eq] at hg
    rw [owned, ownedArms_eq]
    refine List.Sublist.cons _ ?_
    rcases List.mem_append.mp hg with hg | hg
    · exact (sublist_flatMap_owned ihArms hg).trans (List.sublist_append_left _ _)
    · exact (ihNext hg).trans (List.sublist_append_right _ _)
  | loop node body _ _ next ihBody ihNext =>
    intro hg
    rw [guards] at hg
    rw [owned]
    refine List.Sublist.cons _ ?_
    rcases List.mem_append.mp hg with hg | hg
    · exact (ihBody hg).trans (List.sublist_append_left _ _)
    · exact (ihNext hg).trans (List.sublist_append_right _ _)
  | fork arms next ihArms ihNext =>
    intro hg
    rw [guards, guardsList_eq] at hg
    rw [owned, ownedList_eq]
    rcases List.mem_append.mp hg with hg | hg
    · exact (sublist_flatMap_owned ihArms hg).trans (List.sublist_append_left _ _)
    · exact (ihNext hg).trans (List.sublist_append_right _ _)
  | visited node => simp [guards]
  | done => simp [guards]

theorem mem_owned_of_guard {b : Block} {g : Guard} (hg : g ∈ b.guards) :
    g.condition ∈ b.owned ∧ g.node ∈ b.owned := by
  have hsub := (guard_sublist b hg).subset
  exact ⟨hsub (by simp), hsub (by simp)⟩

/-! ### Parallel nodes -/

/-- A parallel node and its arms stand before what comes behind them. -/
theorem fan_sublist {f : Fan} (b : Block) :
    f ∈ b.fans → (f.node :: (f.inner ++ f.next.owned)).Sublist b.owned := by
  induction b using holds_of_parts with
  | seq node next ih => exact fun hf => (ih hf).trans (List.sublist_cons_self _ _)
  | branch node onTrue onFalse next ihTrue ihFalse ihNext =>
    intro hf
    simp only [fans, List.mem_append] at hf
    rw [owned]
    refine List.Sublist.cons _ ?_
    rcases hf with (hf | hf) | hf
    · exact (ihTrue hf).trans (by simp)
    · exact (ihFalse hf).trans (by simp)
    · exact (ihNext hf).trans (by simp)
  | fan node arms merge next ihArms ihNext =>
    intro hf
    rw [fans, fansArms_eq] at hf
    rcases List.mem_cons.mp hf with rfl | hf
    · exact List.Sublist.refl _
    · rw [owned, ownedArms_eq]
      refine List.Sublist.cons _ ?_
      rcases List.mem_append.mp hf with hf | hf
      · exact (sublist_flatMap_owned ihArms hf).trans (List.sublist_append_left _ _)
      · exact (ihNext hf).trans (List.sublist_append_right _ _)
  | loop node body _ _ next ihBody ihNext =>
    intro hf
    rw [fans] at hf
    rw [owned]
    refine List.Sublist.cons _ ?_
    rcases List.mem_append.mp hf with hf | hf
    · exact (ihBody hf).trans (List.sublist_append_left _ _)
    · exact (ihNext hf).trans (List.sublist_append_right _ _)
  | fork arms next ihArms ihNext =>
    intro hf
    rw [fans, fansList_eq] at hf
    rw [owned, ownedList_eq]
    rcases List.mem_append.mp hf with hf | hf
    · exact (sublist_flatMap_owned ihArms hf).trans (List.sublist_append_left _ _)
    · exact (ihNext hf).trans (List.sublist_append_right _ _)
  | visited node => simp [fans]
  | done => simp [fans]

/-- The guards behind a parallel node are guards of the tree. -/
theorem fan_guards {f : Fan} {g : Guard} (hg : g ∈ f.next.guards) (b : Block) :
    f ∈ b.fans → g ∈ b.guards := by
  induction b using holds_of_parts with
  | seq node next ih => exact ih
  | branch node onTrue onFalse next ihTrue ihFalse ihNext =>
    intro hf
    simp only [fans, List.mem_append] at hf
    simp only [guards, List.mem_append]
    exact .inr (hf.imp (Or.imp ihTrue ihFalse) ihNext)
  | fan node arms merge next ihArms ihNext =>
    intro hf
    rw [fans, fansArms_eq] at hf
    rw [guards, guardsArms_eq]
    rcases List.mem_cons.mp hf with rfl | hf
    · exact List.mem_append_right _ hg
    · rcases List.mem_append.mp hf with hf | hf
      · obtain ⟨b, hb, hf⟩ := List.mem_flatMap.mp hf
        exact List.mem_append_left _ (List.mem_flatMap.mpr ⟨b, hb, ihArms b hb hf⟩)
      · exact List.mem_append_right _ (ihNext hf)
  | loop node body _ _ next ihBody ihNext =>
    intro hf
    exact List.mem_append.mpr ((List.mem_append.mp hf).imp ihBody ihNext)
  | fork arms next ihArms ihNext =>
    intro hf
    rw [fans, fansList_eq] at hf
    rw [guards, guardsList_eq]
    rcases List.mem_append.mp hf with hf | hf
    · obtain ⟨b, hb, hf⟩ := List.mem_flatMap.mp hf
      exact List.mem_append_left _ (List.mem_flatMap.mpr ⟨b, hb, ihArms b hb hf⟩)
    · exact List.mem_append_right _ (ihNext hf)
  | visited node => simp [fans]
  | done => simp [fans]

/-! ### Runs -/

variable {val : String → Bool} {v : String}

/-- The outcomes that the guards of a node require. -/
def Met (val : String → Bool) (gs : List Guard) (v : String) : Prop :=
  ∀ g ∈ gs, g.node = v → val g.condition = g.outcome

theorem met_append {gs hs : List Guard} : Met val (gs ++ hs) v ↔ Met val gs v ∧ Met val hs v := by
  simp only [Met, List.mem_append, or_imp, forall_and]

theorem met_map {vs : List String} {c : String} {o : Bool} :
    Met val (vs.map (⟨c, o, ·⟩)) v ↔ (v ∈ vs → val c = o) := by
  simp only [Met, List.mem_map, forall_exists_index, and_imp, forall_apply_eq_imp_iff₂]
  exact ⟨fun h hv => h v hv rfl, fun h u hu huv => h (huv ▸ hu)⟩

/-- Of the nodes `own` exactly those run whose guards are met. -/
structure Runs (val : String → Bool) (v : String) (ran own : List String) (gs : List Guard) :
    Prop where
  iff : v ∈ ran ↔ v ∈ own ∧ Met val gs v
  free : v ∉ own → Met val gs v

theorem Runs.node (node : String) : Runs val v [node] [node] [] :=
  ⟨by simp [Met], by simp [Met]⟩

theorem Runs.append {ran ran' own own' : List String} {gs gs' : List Guard}
    (h : Runs val v ran own gs) (h' : Runs val v ran' own' gs') (hnodup : (own ++ own').Nodup) :
    Runs val v (ran ++ ran') (own ++ own') (gs ++ gs') := by
  -- no node is in both parts, so the guards of one part leave those of the other alone
  have hdisjoint : v ∈ own → v ∉ own' := fun hv hv' =>
    (List.nodup_append.mp hnodup).2.2 v hv v hv' rfl
  constructor
  · rw [List.mem_append, List.mem_append, met_append, h.iff, h'.iff]
    constructor
    · rintro (⟨hv, hmet⟩ | ⟨hv, hmet⟩)
      · exact ⟨.inl hv, hmet, h'.free (hdisjoint hv)⟩
      · exact ⟨.inr hv, h.free fun hown => hdisjoint hown hv, hmet⟩
    · rintro ⟨hv | hv, hmet, hmet'⟩
      · exact .inl ⟨hv, hmet⟩
      · exact .inr ⟨hv, hmet'⟩
  · intro hv
    rw [List.mem_append, not_or] at hv
    exact met_append.mpr ⟨h.free hv.1, h'.free hv.2⟩

theorem Runs.flatMap {bs : List Block}
    (h : ∀ b ∈ bs, b.owned.Nodup → Runs val v (b.run val) b.owned b.guards)
    (hnodup : (bs.flatMap owned).Nodup) :
    Runs val v (bs.flatMap (run val)) (bs.flatMap owned) (bs.flatMap guards) := by
  induction bs with
  | nil => exact ⟨by simp, by simp [Met]⟩
  | cons b bs ih =>
    rw [List.flatMap_cons] at hnodup
    obtain ⟨hb, hbs, -⟩ := List.nodup_append.mp hnodup
    exact (h b List.mem_cons_self hb).append
      (ih (fun c hc => h c (List.mem_cons_of_mem _ hc)) hbs) hnodup

/-- Of the two arms of a condition the one that its outcome selects runs. -/
theorem Runs.arms (node : String) {onTrue onFalse : Block}
    (hTrue : Runs val v (onTrue.run val) onTrue.owned onTrue.guards)
    (hFalse : Runs val v (onFalse.run val) onFalse.owned onFalse.guards)
    (hnodup : (onTrue.owned ++ onFalse.owned).Nodup) :
    Runs val v (if val node then onTrue.run val else onFalse.run val)
      (onTrue.owned ++ onFalse.owned)
      ((onTrue.owned.map (⟨node, true, ·⟩) ++ onFalse.owned.map (⟨node, false, ·⟩)) ++
        (onTrue.guards ++ onFalse.guards)) := by
  have hdisjoint : v ∈ onTrue.owned → v ∉ onFalse.owned := fun hv hv' =>
    (List.nodup_append.mp hnodup).2.2 v hv v hv' rfl
  constructor
  · rw [List.mem_append, met_append, met_append, met_append, met_map, met_map]
    split
    · rename_i hval
      rw [hTrue.iff]
      constructor
      · rintro ⟨hv, hmet⟩
        exact ⟨.inl hv, ⟨fun _ => hval, fun hv' => absurd hv' (hdisjoint hv)⟩, hmet,
          hFalse.free (hdisjoint hv)⟩
      · rintro ⟨hv, ⟨-, hfalse⟩, hmet, -⟩
        refine ⟨hv.resolve_right fun hv' => ?_, hmet⟩
        exact absurd (hval.symm.trans (hfalse hv')) (by decide)
    · rename_i hval
      rw [Bool.not_eq_true] at hval
      rw [hFalse.iff]
      constructor
      · rintro ⟨hv, hmet⟩
        exact ⟨.inr hv, ⟨fun hv' => absurd hv (hdisjoint hv'), fun _ => hval⟩,
          hTrue.free fun hv' => hdisjoint hv' hv, hmet⟩
      · rintro ⟨hv, ⟨htrue, -⟩, -, hmet⟩
        refine ⟨hv.resolve_left fun hv' => ?_, hmet⟩
        exact absurd (hval.symm.trans (htrue hv')) (by decide)
  · intro hv
    rw [List.mem_append, not_or] at hv
    rw [met_append, met_append, met_append, met_map, met_map]
    exact ⟨⟨fun h => absurd h hv.1, fun h => absurd h hv.2⟩, hTrue.free hv.1, hFalse.free hv.2⟩

theorem runs_of_nodup (b : Block) :
    b.owned.Nodup → Runs val v (b.run val) b.owned b.guards := by
  have hcons : ∀ {node : String} {ran own : List String} {gs : List Guard},
      Runs val v ran own gs → (node :: own).Nodup → Runs val v (node :: ran) (node :: own) gs :=
    fun h hnodup => (Runs.node _).append h hnodup
  induction b using holds_of_parts with
  | seq node next ih =>
    intro hnodup
    exact hcons (ih (List.nodup_cons.mp hnodup).2) hnodup
  | branch node onTrue onFalse next ihTrue ihFalse ihNext =>
    intro hnodup
    rw [owned] at hnodup ⊢
    obtain ⟨harms, hnext, -⟩ := List.nodup_append.mp (List.nodup_cons.mp hnodup).2
    obtain ⟨htrue, hfalse, -⟩ := List.nodup_append.mp harms
    refine hcons ?_ hnodup
    rw [guards, ← List.append_assoc]
    exact (Runs.arms node (ihTrue htrue) (ihFalse hfalse) harms).append (ihNext hnext)
      (List.nodup_cons.mp hnodup).2
  | fan node arms merge next ihArms ihNext =>
    intro hnodup
    rw [run, owned, guards, runArms_eq, ownedArms_eq, guardsArms_eq]
    rw [owned, ownedArms_eq] at hnodup
    obtain ⟨harms, hnext, -⟩ := List.nodup_append.mp (List.nodup_cons.mp hnodup).2
    exact hcons ((Runs.flatMap ihArms harms).append (ihNext hnext) (List.nodup_cons.mp hnodup).2)
      hnodup
  | loop node body _ _ next ihBody ihNext =>
    intro hnodup
    rw [owned] at hnodup
    obtain ⟨hbody, hnext, -⟩ := List.nodup_append.mp (List.nodup_cons.mp hnodup).2
    exact hcons ((ihBody hbody).append (ihNext hnext) (List.nodup_cons.mp hnodup).2) hnodup
  | fork arms next ihArms ihNext =>
    intro hnodup
    rw [run, owned, guards, runList_eq, ownedList_eq, guardsList_eq]
    rw [owned, ownedList_eq] at hnodup
    obtain ⟨harms, hnext, -⟩ := List.nodup_append.mp hnodup
    exact (Runs.flatMap ihArms harms).append (ihNext hnext) hnodup
  | visited node => exact fun _ => ⟨by simp [run, owned], by simp [Met, guards]⟩
  | done => exact fun _ => ⟨by simp [run, owned], by simp [Met, guards]⟩

/-- A node of a tree that owns no node twice runs exactly if its guards are met. -/
theorem mem_run_iff {b : Block} (hnodup : b.owned.Nodup) :
    v ∈ b.run val ↔ v ∈ b.owned ∧ Met val b.guards v := (runs_of_nodup b hnodup).iff

end Block

end Flowscript
