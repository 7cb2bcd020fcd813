/-
Arms of conditions are entered from their conditions only.

Planning has at each moment some links from planned nodes to nodes that are not planned yet.
`Owed` says where the targets of these are planned: at a reserved node, at a node that is called
now, or elsewhere as a relation `X` says.  If `X` keeps off the arms of conditions, then every link
into an arm comes from the arm or is the link of the condition that starts it (`Entered`).

The one construct that owes a link to a node which may come to stand in an arm is the parallel
node: a node that two arms lead to is planned somewhere behind the arms.  `FansOpen` asks that it
is not planned in an arm of a condition there.

* `Each.entered_branch` — the two arms of one condition;
* `Step.entered` — one step, given its calls;
* `plan_entered` — the plan of an accepted workflow without loops.
-/
import Flowscript.Proofs.Plan.Guard
import Flowscript.Proofs.Plan.Sealed

namespace Flowscript

namespace Plan

variable {a : Accepted} {A : List Loop} {s : Scope} {p q r : Progress} {id : String}

/-- The link leaves a condition and has the outcome of the condition as its label. -/
def Selects (a : Accepted) (id : String) (outcome : Bool) (l : Link) : Prop :=
  (a.config? id).map Config.kind = some .condition ∧ l.source = id ∧
    l.edge.branch = some outcome

/-- A link to a guarded node comes from a node with the same guard, or from the condition with the
outcome that the guard asks for. -/
def Entered (a : Accepted) (gs : List Guard) : Prop :=
  ∀ g ∈ gs, ∀ l ∈ a.graph.links, l.target = g.node →
    ⟨g.condition, g.outcome, l.source⟩ ∈ gs ∨ Selects a g.condition g.outcome l

/-- No link from a parallel node or from inside its arms leads to a node that stands in an arm of a
condition behind them. -/
def FansOpen (a : Accepted) (b : Block) : Prop :=
  ∀ f ∈ b.fans, ∀ l ∈ a.graph.links, l.source ∈ f.node :: f.inner →
    ∀ g ∈ f.next.guards, g.node ≠ l.target

instance (a : Accepted) (b : Block) : Decidable (FansOpen a b) :=
  inferInstanceAs (Decidable (∀ f ∈ b.fans, ∀ l ∈ a.graph.links, l.source ∈ f.node :: f.inner →
    ∀ g ∈ f.next.guards, g.node ≠ l.target))

/-- Where the targets of links from planned nodes are planned. -/
def Owed (a : Accepted) (s : Scope) (p : Progress) (ids : List String)
    (X : String → String → Prop) : Prop :=
  ∀ u ∈ p.planned, ∀ v, a.Forward u v → v ∉ p.planned → v ∈ s.reserved ∨ v ∈ ids ∨ X u v

/-- The links that `X` speaks of lead to no guarded node. -/
def Spares (a : Accepted) (X : String → String → Prop) (gs : List Guard) : Prop :=
  ∀ u v, X u v → a.Forward u v → ∀ g ∈ gs, g.node ≠ v

/-! ### Small steps -/

theorem Entered.append {gs hs : List Guard} (h : Entered a gs) (h' : Entered a hs) :
    Entered a (gs ++ hs) := by
  intro g hg l hl htarget
  rcases List.mem_append.mp hg with hg | hg
  · exact (h g hg l hl htarget).imp_left (List.mem_append_left _)
  · exact (h' g hg l hl htarget).imp_left (List.mem_append_right _)

theorem Entered.flatMap {bs : List Block} (h : ∀ b ∈ bs, Entered a b.guards) :
    Entered a (bs.flatMap Block.guards) := by
  intro g hg l hl htarget
  obtain ⟨b, hb, hg⟩ := List.mem_flatMap.mp hg
  exact (h b hb g hg l hl htarget).imp_left fun hmem => List.mem_flatMap.mpr ⟨b, hb, hmem⟩

theorem Entered.map {c : String} {o : Bool} {vs : List String}
    (h : ∀ l ∈ a.graph.links, l.target ∈ vs → l.source ∈ vs ∨ Selects a c o l) :
    Entered a (vs.map (⟨c, o, ·⟩)) := by
  intro g hg l hl htarget
  obtain ⟨v, hv, rfl⟩ := List.mem_map.mp hg
  exact (h l hl (htarget ▸ hv)).imp_left List.mem_map_of_mem

theorem Spares.subset {X : String → String → Prop} {gs hs : List Guard} (h : Spares a X gs)
    (hsub : hs ⊆ gs) : Spares a X hs :=
  fun u v hX huv g hg => h u v hX huv g (hsub hg)

theorem FansOpen.subset {b c : Block} (h : FansOpen a b) (hsub : c.fans ⊆ b.fans) : FansOpen a c :=
  fun f hf => h f (hsub hf)

/-- The nodes that were called are owed no longer, and no new link is owed. -/
theorem Owed.after {X : String → String → Prop} {xs ys zs : List String}
    (h : Owed a s p xs X) (hsealed : Sealed a s ys p q) (hsub : p.planned ⊆ q.planned)
    (hxs : ∀ v ∈ xs, v ∈ ys ∨ v ∈ zs) : Owed a s q zs X := by
  intro u hu v huv hv
  by_cases hold : u ∈ p.planned
  · rcases h u hold v huv fun hmem => hv (hsub hmem) with hres | hmem | hX
    · exact .inl hres
    · rcases hxs v hmem with hmem | hmem
      · exact .inl ((hsealed.called v hmem).resolve_right hv)
      · exact .inr (.inl hmem)
    · exact .inr (.inr hX)
  · exact .inl ((hsealed.closed u hu hold v huv).resolve_right hv)

theorem Owed.mark {X : String → String → Prop} {ids : List String} (h : Owed a s p [id] X)
    (hids : ∀ l ∈ a.graph.links, l.source = id → l.target ∈ ids) : Owed a s (p.mark id) ids X := by
  intro u hu v huv hv
  obtain ⟨hid, hv⟩ := not_or.mp (fun h => hv (List.mem_cons.mpr h))
  rcases List.mem_cons.mp hu with rfl | hu
  · obtain ⟨l, hl, -, hsource, rfl⟩ := huv
    exact .inr (.inl (hids l hl hsource))
  · refine (h u hu v huv hv).imp_right (Or.imp_left fun hmem => ?_)
    exact absurd (List.mem_singleton.mp hmem) hid

theorem Owed.stopAt {X : String → String → Prop} {ids more : List String} (h : Owed a s p ids X) :
    Owed a (s.stopAt more) p ids X :=
  fun u hu v huv hv => (h u hu v huv hv).imp_left (List.mem_append_left _)

/-- Nodes at which a part stopped are called behind it. -/
theorem Owed.of_stopAt {X : String → String → Prop} {more : List String}
    (h : Owed a (s.stopAt more) p [] X) : Owed a s p more X := by
  intro u hu v huv hv
  rcases h u hu v huv hv with hres | hmem | hX
  · rcases List.mem_append.mp hres with hres | hres
    · exact .inl hres
    · exact .inr (.inl hres)
  · simp at hmem
  · exact .inr (.inr hX)

/-- A link to a node at which only the arms of a parallel node stopped starts at the parallel node
or in an arm. -/
theorem Owed.behind_arms {X : String → String → Prop} {s' : Scope} {more inner : List String}
    (h : Owed a s p [id] X) (hstop : Owed a (s.stopAt more) q [] X)
    (hgrown : Grown a A s' (p.mark id) inner q) (ids : List String) :
    Owed a s q ids fun u v => X u v ∨ u ∈ id :: inner ∧ v ∈ more := by
  intro u hu v huv hv
  obtain ⟨hid, hnew⟩ := List.ne_and_not_mem_of_not_mem_cons fun hold =>
    hv (hgrown.planned_subset hold)
  by_cases hold : u ∈ p.planned
  · rcases h u hold v huv hnew with hres | hmem | hX
    · exact .inl hres
    · exact absurd (List.mem_singleton.mp hmem) hid
    · exact .inr (.inr (.inl hX))
  · have hinner : u ∈ id :: inner := by
      rcases hgrown.mem_planned.mp hu with hu | hu
      · exact List.mem_cons_of_mem _ hu
      · exact List.mem_cons.mpr (.inl ((List.mem_cons.mp hu).resolve_right hold))
    rcases hstop u hu v huv hv with hres | hmem | hX
    · exact (List.mem_append.mp hres).imp_right fun hmem => .inr (.inr ⟨hinner, hmem⟩)
    · simp at hmem
    · exact .inr (.inr (.inl hX))

/-- A node that is called later is not planned now. -/
theorem notMem_owned_of_later {ids : List String} {new : List String} (hgrown : Grown a A s p new q)
    (hlater : Sealed a s ids q r) {v : String} (hv : v ∈ ids) : v ∉ new := by
  intro hnew
  rcases hlater.fresh v hv with hres | hfresh
  · exact hgrown.free v hnew hres
  · exact hfresh (hgrown.mem_planned.mpr (.inl hnew))

/-! ### Runs of calls -/

/-- A call of a plan without loops that says nothing. -/
def Enters (a : Accepted) : Call := fun _ s id p b q => Silent q → Sealed a s [id] p q ∧
  ∀ X, Owed a s p [id] X → Spares a X b.guards → FansOpen a b → Entered a b.guards

theorem Enters.sealed : ∀ A s id p b q, Enters a A s id p b q → Silent q → Sealed a s [id] p q :=
  fun _ _ _ _ _ _ h hq => (h hq).1

theorem Each.entered {X : String → String → Prop} {ids : List String} {bs : List Block}
    (h : Each (Keeps a (Enters a)) A s ids p bs q) (hp : p.Fits a A) (hq : Silent q)
    (howed : Owed a s p ids X) (hspares : ∀ b ∈ bs, Spares a X b.guards)
    (hfans : ∀ b ∈ bs, FansOpen a b) : ∀ b ∈ bs, Entered a b.guards := by
  induction h with
  | nil => simp
  | @cons id ids p b mid bs q head tail ih =>
    obtain ⟨-, hend, hcall⟩ := head
    have htail := tail.grown hend.grown.fits
    have hlater := tail.sealed Enters.sealed hend.grown.fits hq
    obtain ⟨hsealed, henters⟩ := hcall (hq.of_subset htail.notes)
    refine List.forall_mem_cons.mpr ⟨?_, ih hend.grown.fits hq ?_
      (fun c hc => hspares c (List.mem_cons_of_mem _ hc))
      fun c hc => hfans c (List.mem_cons_of_mem _ hc)⟩
    · -- the arms that are called later are owed elsewhere
      refine henters (fun u v => X u v ∨ v ∈ ids) (fun u hu v huv hv => ?_) ?_
        (hfans b List.mem_cons_self)
      · rcases howed u hu v huv hv with hres | hmem | hX
        · exact .inl hres
        · rcases List.mem_cons.mp hmem with rfl | hmem
          · exact .inr (.inl List.mem_cons_self)
          · exact .inr (.inr (.inr hmem))
        · exact .inr (.inr (.inl hX))
      · rintro u v (hX | hmem) huv g hg
        · exact hspares b List.mem_cons_self u v hX huv g hg
        · rintro rfl
          exact notMem_owned_of_later hend.grown hlater hmem (Block.mem_owned_of_guard hg).2
    · exact howed.after hsealed hend.grown.planned_subset fun v hv => by simpa using hv

theorem Arms.entered {X : String → String → Prop} {ids : List String} {bs : List Block}
    {next : Block} (h : Arms a (Keeps a (Enters a)) A s ids p bs next q) (hp : p.Fits a A)
    (hq : Silent q) (howed : Owed a s p ids X) (hspares : ∀ b ∈ next :: bs, Spares a X b.guards)
    (hfans : ∀ b ∈ next :: bs, FansOpen a b) : ∀ b ∈ next :: bs, Entered a b.guards := by
  rw [List.forall_mem_cons] at hspares hfans ⊢
  cases h with
  | apart none arms =>
    exact ⟨fun g hg => by simp [Block.guards] at hg,
      arms.entered hp hq howed hspares.2 hfans.2⟩
  | @meet m bs mid next q two some arms rest =>
    obtain ⟨-, hend, hcall⟩ := rest
    have hmid : Silent mid := hq.of_subset hend.grown.notes
    have harms := arms.sealed Enters.sealed hp hmid
    -- behind the arms only the meeting node is called, at which all of them stopped
    have hrest : Owed a s mid [m] X :=
      .of_stopAt (howed.stopAt.after harms (arms.grown hp).planned_subset fun v hv => .inl hv)
    exact ⟨(hcall hq).2 X hrest hspares.1 hfans.1,
      arms.entered hp hmid howed.stopAt hspares.2 hfans.2⟩

/-- The run of the arms of a condition, wherever it stops. -/
theorem Arms.each {Φ : Call} {ids : List String} {bs : List Block} {next : Block}
    (h : Arms a (Keeps a Φ) A s ids p bs next q) (hq : Silent q) : ∃ s' mid,
      s.reserved ⊆ s'.reserved ∧ Silent mid ∧ Each (Keeps a Φ) A s' ids p bs mid := by
  cases h with
  | apart none arms => exact ⟨s, q, List.Subset.refl _, hq, arms⟩
  | meet two some arms rest =>
    exact ⟨_, _, List.subset_append_left _ _, hq.of_subset rest.2.1.grown.notes, arms⟩

theorem Behind.entered {X : String → String → Prop} {ids : List String} {b : Block}
    (h : Behind a (Keeps a (Enters a)) A s ids p b q) (hp : p.Fits a A) (hq : Silent q)
    (howed : Owed a s p ids X) (hspares : Spares a X b.guards) (hfans : FansOpen a b) :
    Entered a b.guards := by
  cases h with
  | nothing none => exact fun g hg => by simp [Block.guards] at hg
  | one only call =>
    refine (call.2.2 hq).2 X (fun u hu v huv hv => ?_) hspares hfans
    exact (howed u hu v huv hv).imp_right (Or.imp_left fun hmem => by simp [(only v).mp hmem])
  | @several ts bs next q nodup all arms =>
    have howed : Owed a s p ts X := fun u hu v huv hv =>
      (howed u hu v huv hv).imp_right (Or.imp_left (all v).mpr)
    rw [Block.guards, Block.guardsList_eq] at hspares ⊢
    have hentered := arms.entered hp hq howed
      (List.forall_mem_cons.mpr ⟨hspares.subset (List.subset_append_right _ _), fun b hb =>
        hspares.subset fun g hg => List.mem_append_left _ (List.mem_flatMap.mpr ⟨b, hb, hg⟩)⟩)
      (List.forall_mem_cons.mpr ⟨?_, fun b hb => ?_⟩)
    · rw [List.forall_mem_cons] at hentered
      exact (Entered.flatMap hentered.2).append hentered.1
    · exact hfans.subset (by rw [Block.fans]; exact List.subset_append_right _ _)
    · refine hfans.subset fun f hf => ?_
      rw [Block.fans, Block.fansList_eq]
      exact List.mem_append_left _ (List.mem_flatMap.mpr ⟨b, hb, hf⟩)

/-! ### Steps -/

section Loopless

variable (hloops : a.loops.loops = []) {X : String → String → Prop}
include hloops

theorem forward_of_link {l : Link} (hl : l ∈ a.graph.links) : a.Forward l.source l.target :=
  ⟨l, hl, isBack_eq_false hloops l, rfl, rfl⟩

/-- What leads into a part of the plan is in the part or planned before it. -/
theorem mem_owned_or_planned {new : List String} (h : Grown a A s p new q) {u v : String}
    (hv : v ∈ new) (huv : a.Forward u v) : u ∈ new ∨ u ∈ p.planned :=
  h.mem_planned.mp (h.fits.due hloops (h.mem_planned.mpr (.inl hv)) huv)

/-- The arms of a condition are entered from the condition, each with its outcome. -/
theorem Each.entered_branch {t f : Link} {onTrue onFalse : Block} {s' : Scope}
    (hscope : s.reserved ⊆ s'.reserved) (hkind : (a.config? id).map Config.kind = some .condition)
    (hlinks : ∀ l, l ∈ a.graph.outgoing id ↔ l = t ∨ l = f)
    (hlabels : t.edge.branch = some true ∧ f.edge.branch = some false)
    (h : Each (Keeps a (Enters a)) A s' [t.target, f.target] (p.mark id) [onTrue, onFalse] q)
    (hq : Silent q) (howed : Owed a s p [id] X)
    (hspares : ∀ v ∈ onTrue.owned ++ onFalse.owned, ∀ u, a.Forward u v → ¬X u v) :
    Entered a (onTrue.owned.map (⟨id, true, ·⟩) ++ onFalse.owned.map (⟨id, false, ·⟩)) := by
  obtain _ | ⟨⟨-, hend, hcall⟩, tail⟩ := h
  have hlater := tail.sealed Enters.sealed hend.grown.fits hq
  obtain _ | ⟨⟨-, hend', -⟩, _ | _⟩ := tail
  obtain ⟨hfirst, -⟩ := hcall (hq.of_subset hend'.grown.notes)
  have hgrown := hend.grown
  have hgrown' := hend'.grown
  -- no link from a node planned before the condition leads into an arm
  have hbefore : ∀ v ∈ onTrue.owned ++ onFalse.owned, ∀ u, a.Forward u v → u ∉ p.planned := by
    intro v hv u huv hu
    have hfresh : v ∉ (p.mark id).planned := (List.mem_append.mp hv).elim hgrown.fresh
      fun hv hold => hgrown'.fresh hv (hgrown.planned_subset hold)
    obtain ⟨hid, hnew⟩ := List.ne_and_not_mem_of_not_mem_cons hfresh
    rcases howed u hu v huv hnew with hres | hmem | hX
    · exact (List.mem_append.mp hv).elim (fun hv => hgrown.free v hv (hscope hres))
        fun hv => hgrown'.free v hv (hscope hres)
    · exact hid (List.mem_singleton.mp hmem)
    · exact hspares v hv u huv hX
  have hlink : ∀ l ∈ a.graph.links, l.source = id → l = t ∨ l = f := fun l hl hsource =>
    (hlinks l).mp (Graph.mem_outgoing.mpr ⟨hl, hsource⟩)
  refine (Entered.map fun l hl hv => ?_).append (Entered.map fun l hl hv => ?_)
  · have huv := forward_of_link hloops hl
    refine (mem_owned_or_planned hloops hgrown hv huv).imp_right fun hold => ?_
    have hsource := (List.mem_cons.mp hold).resolve_right
      (hbefore _ (List.mem_append_left _ hv) _ huv)
    rcases hlink l hl hsource with rfl | rfl
    · exact ⟨hkind, hsource, hlabels.1⟩
    · exact absurd hv (notMem_owned_of_later hgrown hlater List.mem_cons_self)
  · have huv := forward_of_link hloops hl
    have hmid : l.target ∉ s'.reserved ∧ _ := ⟨hgrown'.free _ hv, hgrown'.fresh hv⟩
    refine (mem_owned_or_planned hloops hgrown' hv huv).imp_right fun hold => ?_
    rcases hgrown.mem_planned.mp hold with harm | hold'
    · -- what the first arm leads to is planned with it
      exact absurd (hfirst.closed _ hold (hgrown.fresh harm) _ huv) (not_or.mpr hmid)
    · have hsource := (List.mem_cons.mp hold').resolve_right
        (hbefore _ (List.mem_append_right _ hv) _ huv)
      rcases hlink l hl hsource with rfl | rfl
      · exact absurd (hfirst.called _ List.mem_cons_self) (not_or.mpr hmid)
      · exact ⟨hkind, hsource, hlabels.2⟩

theorem Step.entered {b : Block} (hready : Ready a A s id p)
    (h : Step a (Keeps a (Enters a)) A s id p b q) (hq : Silent q) (howed : Owed a s p [id] X)
    (hspares : Spares a X b.guards) (hfans : FansOpen a b) : Entered a b.guards := by
  have hnil : Entered a [] := fun g hg => absurd hg (by simp)
  cases h with
  | reserved stop => exact hnil
  | outside free beyond => exact hnil
  | again free within old => exact hnil
  | early free within fresh wait => exact hnil
  | loop opens mem entry head round => simp [hloops] at mem
  | seq opens plain behind =>
    have hplain : Plain a A s p id := ⟨hready, opens, plain⟩
    refine behind.entered hplain.mark_fits hq (howed.mark fun l hl hsource => ?_) hspares hfans
    exact List.mem_map_of_mem (mem_outByTarget.mpr ⟨hl, hsource⟩)
  | @branch c t f onTrue onFalse next _ opens plain kind links labels arms =>
    have hplain : Plain a A s p id := ⟨hready, opens, plain⟩
    have hmark : Owed a s (p.mark id) [t.target, f.target] X := howed.mark fun l hl hsource => by
      rcases (links l).mp (Graph.mem_outgoing.mpr ⟨hl, hsource⟩) with rfl | rfl <;> simp
    have hsub : ∀ b ∈ [next, onTrue, onFalse],
        b.guards ⊆ (Block.branch id onTrue onFalse next).guards ∧
        b.fans ⊆ (Block.branch id onTrue onFalse next).fans := by
      intro b hb
      simp only [List.mem_cons, List.not_mem_nil, or_false] at hb
      rcases hb with rfl | rfl | rfl <;>
        exact ⟨fun g hg => by simp [Block.guards, hg], fun g hg => by simp [Block.fans, hg]⟩
    have hparts := arms.entered hplain.mark_fits hq hmark
      (fun b hb => hspares.subset (hsub b hb).1) fun b hb => hfans.subset (hsub b hb).2
    simp only [List.forall_mem_cons] at hparts
    obtain ⟨hnext, htrue, hfalse, -⟩ := hparts
    obtain ⟨s', mid, hscope, hmid, heach⟩ := arms.each hq
    have hkind : (a.config? id).map Config.kind = some .condition := by simp [kind, Config.kind]
    refine (heach.entered_branch hloops hscope hkind links labels hmid howed ?_).append
      ((htrue.append hfalse).append hnext)
    intro v hv u huv hX
    rcases List.mem_append.mp hv with hv | hv
    · exact hspares u v hX huv ⟨id, true, v⟩ (by simp [Block.guards, hv]) rfl
    · exact hspares u v hX huv ⟨id, false, v⟩ (by simp [Block.guards, hv]) rfl
  | @fan c bs mid next _ opens plain kind arms behind =>
    have hplain : Plain a A s p id := ⟨hready, opens, plain⟩
    have hgrown := arms.grown hplain.mark_fits
    have hnext := behind.grown (hgrown.fits.tell _)
    have hmid : Silent mid := hq.of_subset fun n hn => hnext.notes (List.mem_append_left _ hn)
    have hmark : Owed a s (p.mark id) ((outBySlot a id).map Link.target) X :=
      howed.mark fun l hl hsource => List.mem_map_of_mem (mem_outBySlot.mpr ⟨hl, hsource⟩)
    have hlength : bs.length ≤ ((outBySlot a id).map fun l => l.edge.slot.getD "").length := by
      simp [arms.length_eq]
    rw [Block.guards, Block.guardsArms_eq, List.map_snd_zip hlength] at hspares ⊢
    rw [FansOpen, Block.fans, List.forall_mem_cons, Block.fansArms_eq, Block.ownedArms_eq,
      List.map_snd_zip hlength] at hfans
    obtain ⟨hopen, hfans⟩ := hfans
    have harms : Owed a (s.stopAt (shared a s id)) mid [] X :=
      hmark.stopAt.after (arms.sealed Enters.sealed hplain.mark_fits hmid) hgrown.planned_subset
        fun v hv => .inl hv
    have hbehind := howed.behind_arms harms hgrown (earliest a (shared a s id))
    refine (Entered.flatMap (arms.entered hplain.mark_fits hmid hmark.stopAt ?_ ?_)).append
      (behind.entered (hgrown.fits.tell _) hq hbehind ?_ ?_)
    · exact fun b hb => hspares.subset fun g hg =>
        List.mem_append_left _ (List.mem_flatMap.mpr ⟨b, hb, hg⟩)
    · exact fun b hb f hf => hfans f (List.mem_append_left _ (List.mem_flatMap.mpr ⟨b, hb, hf⟩))
    · rintro u v (hX | ⟨hu, hv⟩) huv g hg
      · exact hspares u v hX huv g (List.mem_append_right _ hg)
      · obtain ⟨l, hl, -, rfl, rfl⟩ := huv
        rw [Block.ownedList_eq] at hu
        exact hopen l hl hu g hg
    · exact fun f hf => hfans f (List.mem_append_right _ hf)

/-- The arms of the conditions of a plan are entered from their conditions. -/
theorem plan_entered (hs : a.Sound) (hsilent : ∀ d ∈ a.plan.diagnostics, d.code ≠ "L001")
    (hfans : FansOpen a a.plan.block) : Entered a a.plan.block.guards := by
  obtain ⟨t, q, -, -, henters, hdiag⟩ := plan_rule hs (Enters a)
    fun A s id p b q hready _ hstep hq => ⟨hstep.sealed hloops hs Enters.sealed hready hq,
      fun X howed hspares hfans => hstep.entered hloops hready hq howed hspares hfans⟩
  have hq : Silent q := by
    intro n hn
    have hmem := List.mem_append_left ((a.plan.block.faults a.graph.ids).map PlanFault.toDiagnostic)
      (List.mem_map_of_mem (f := PlanNote.toDiagnostic) hn)
    rw [← hdiag] at hmem
    exact hsilent _ hmem
  -- nothing is planned before, so nothing is owed
  exact (henters hq).2 (fun _ _ => False) (fun u hu => absurd hu (by simp)) (fun _ _ h => h.elim)
    hfans

end Loopless

end Plan

end Flowscript
