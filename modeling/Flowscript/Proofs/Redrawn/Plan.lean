/-
The plan of a workflow drawn in another order.

`a.Alike a'` says what two accepted workflows have in common if one is the other redrawn: the
nodes, the edges and the loops, up to order.  Whatever the planner takes from an accepted workflow
is either a question about membership or a list that is sorted first, so it comes out the same:

* `Accepted.Alike.order_eq` — the order of dependence, in which only the set of vertices that wait
  for nothing matters;
* `Accepted.Alike.edges_outByTarget`, `edges_outBySlot` — the successors of a node, sorted;
* `Plan.blockFrom_alike` — by induction on the depth, all that is planned;
* `check_redrawn` — a redrawn workflow is accepted with the same loops, order and plan.
-/
import Flowscript.Proofs.Plan.Reach
import Flowscript.Proofs.Redrawn.Loop

open Relation

namespace Flowscript

/-! ### Placing vertices -/

namespace Order

theorem smallest?_congr {vs vs' : List String} (h : ∀ v, v ∈ vs' ↔ v ∈ vs) :
    smallest? vs' = smallest? vs := by
  rcases smallest?_cases vs with ⟨hnone, rfl⟩ | ⟨v, hv, hsome, hleast⟩
  · have : vs' = [] := List.eq_nil_iff_forall_not_mem.mpr fun v hv => by simpa using (h v).mp hv
    rw [this]
  · rcases smallest?_cases vs' with ⟨-, rfl⟩ | ⟨v', hv', hsome', hleast'⟩
    · exact absurd ((h v).mpr hv) List.not_mem_nil
    · rw [hsome, hsome', String.le_antisymm (hleast' v ((h v).mpr hv)) (hleast v' ((h v').mp hv'))]

section Place

variable {ids ids' : List String} {deps deps' next next' : String → List String}
  (hdual : ∀ u v, (next u).count v = (deps v).count u) (hnext : ∀ u, ∀ v ∈ next u, v ∈ ids)
  (hdual' : ∀ u v, (next' u).count v = (deps' v).count u) (hnext' : ∀ u, ∀ v ∈ next' u, v ∈ ids')
include hdual hnext hdual' hnext'

/-- Vertices are placed in the same order in two graphs with the same vertices and the same
dependences. -/
theorem placed_congr (hids : ∀ v, v ∈ ids' ↔ v ∈ ids) (hdeps : ∀ v u, u ∈ deps' v ↔ u ∈ deps v) :
    ∀ (steps : Nat) {s s' : Stage}, s.Good ids deps [] → s'.Good ids' deps' [] →
      s'.placed = s.placed → (place next' steps s').placed = (place next steps s).placed := by
  intro steps
  induction steps with
  | zero => exact fun _ _ hsame => hsame
  | succ steps ih =>
    intro s s' hs hs' hsame
    have hready : ∀ v, v ∈ s'.ready ↔ v ∈ s.ready := by
      intro v
      rw [hs.mem_ready, hs'.mem_ready, hsame, hids]
      simp only [hdeps]
    rw [place, place, smallest?_congr hready]
    rcases smallest?_cases s.ready with ⟨hnone, -⟩ | ⟨v, hv, hsome, -⟩
    · rw [hnone]
      exact hsame
    · rw [hsome]
      refine ih (foldl_release_good (hnext v) (move_good hdual hv hs))
        (foldl_release_good (hnext' v) (move_good hdual' ((hready v).mpr hv) hs')) ?_
      simp only [foldl_release_placed, hsame]

end Place

end Order

/-! ### Alike workflows -/

theorem exists_loop_of_alike {ls ls' : List Loop} (h : List.Forall₂ Loop.Alike ls ls')
    {u v : String} :
    (∃ L ∈ ls', v = L.entry ∧ L.Has u) ↔ ∃ L ∈ ls, v = L.entry ∧ L.Has u := by
  induction h with
  | nil => rfl
  | cons hL _ ih =>
    rw [List.exists_mem_cons_iff, List.exists_mem_cons_iff, hL.entry, hL.has_iff, ih]

/-- Looking for a loop by what is common to alike loops finds alike loops. -/
theorem find?_of_alike {ls ls' : List Loop} (h : List.Forall₂ Loop.Alike ls ls')
    {p : Loop → Bool} (hp : ∀ L L', L.Alike L' → p L' = p L) :
    Option.Rel Loop.Alike (ls.find? p) (ls'.find? p) := by
  induction h with
  | nil => exact .none
  | @cons L L' ls ls' hL _ ih =>
    rw [List.find?_cons, List.find?_cons, hp L L' hL]
    cases p L with
    | true => exact .some hL
    | false => exact ih

namespace Accepted

/-- What planning reads of two accepted workflows is the same, up to the order of nodes and
edges. -/
structure Alike (a a' : Accepted) : Prop where
  sound : a.Sound
  sound' : a'.Sound
  trigger : a'.workflow.trigger? = a.workflow.trigger?
  node : ∀ id, a'.node? id = a.node? id
  ids : a'.graph.ids.Perm a.graph.ids
  links : (a'.graph.links.map Link.edge).Perm (a.graph.links.map Link.edge)
  nodup_edges : ((a.graph.links.map Link.edge).map Edge.id).Nodup
  loops : List.Forall₂ Loop.Alike a.loops.loops a'.loops.loops

theorem Sound.forward_iff {a : Accepted} (hs : a.Sound) {u v : String} :
    a.Forward u v ↔ (∃ e ∈ a.graph.links.map Link.edge, e.source = u ∧ e.target = v) ∧
      ¬∃ L ∈ a.loops.loops, v = L.entry ∧ L.Has u := by
  constructor
  · rintro ⟨l, hl, hback, rfl, rfl⟩
    refine ⟨⟨l.edge, List.mem_map_of_mem hl, rfl, rfl⟩, fun hloop => ?_⟩
    rw [(hs.isBack_iff l hl).mpr hloop] at hback
    exact absurd hback (by simp)
  · rintro ⟨⟨e, he, rfl, rfl⟩, hloop⟩
    obtain ⟨l, hl, rfl⟩ := List.mem_map.mp he
    exact ⟨l, hl, Bool.eq_false_iff.mpr fun hback => hloop ((hs.isBack_iff l hl).mp hback), rfl, rfl⟩

namespace Alike

variable {a a' : Accepted} (h : a.Alike a')
include h

theorem forward_eq : a'.Forward = a.Forward := by
  funext u v
  refine propext ?_
  rw [h.sound'.forward_iff, h.sound.forward_iff, exists_loop_of_alike h.loops]
  simp only [h.links.mem_iff]

theorem outgoing_perm (id : String) :
    ((a'.graph.outgoing id).map Link.edge).Perm ((a.graph.outgoing id).map Link.edge) :=
  perm_filter h.links fun e => e.source == id

/-- The links that leave a node stand for the same edges once they are sorted. -/
theorem edges_sorted {cmp : Edge → Edge → Ordering} (htrans : Std.TransCmp cmp)
    (hcmp : ∀ e f, cmp e f = .eq → e.id = f.id) (id : String) :
    (sortBy (fun l m => cmp l.edge m.edge != .gt) (a'.graph.outgoing id)).map Link.edge =
      (sortBy (fun l m => cmp l.edge m.edge != .gt) (a.graph.outgoing id)).map Link.edge := by
  have hmem : ∀ e ∈ (a'.graph.outgoing id).map Link.edge, e ∈ a.graph.links.map Link.edge := by
    intro e he
    obtain ⟨l, hl, rfl⟩ := List.mem_map.mp he
    exact h.links.mem_iff.mp (List.mem_map_of_mem (Graph.mem_outgoing.mp hl).1)
  have hsort : ∀ ls : List Link, (sortBy (fun l m => cmp l.edge m.edge != .gt) ls).map Link.edge =
      sortBy (fun e f => cmp e f != .gt) (ls.map Link.edge) := sortBy_map Link.edge fun _ _ => rfl
  rw [hsort, hsort]
  refine sortBy_eq_of_perm (h.outgoing_perm id) fun e he f hf heq => ?_
  exact List.inj_on_of_nodup_map h.nodup_edges (hmem e he) (hmem f hf) (hcmp e f heq)

theorem edges_outByTarget (id : String) :
    (Plan.outByTarget a' id).map Link.edge = (Plan.outByTarget a id).map Link.edge := by
  refine h.edges_sorted (transCmp_then (transCmp_on compareText Edge.target)
    (transCmp_on compareText Edge.id)) (fun e f heq => ?_) id
  exact compareText_eq.mp (Ordering.then_eq_eq.mp heq).2

theorem edges_outBySlot (id : String) :
    (Plan.outBySlot a' id).map Link.edge = (Plan.outBySlot a id).map Link.edge := by
  refine h.edges_sorted (transCmp_then (transCmp_then
    (transCmp_on compareText fun e : Edge => e.slot.getD "") (transCmp_on compareText Edge.id))
    (transCmp_on compareText Edge.target)) (fun e f heq => ?_) id
  exact compareText_eq.mp (Ordering.then_eq_eq.mp (Ordering.then_eq_eq.mp heq).1).2

/-- The order of dependence is the same. -/
theorem order_eq : a'.order = a.order := by
  have hdeps : ∀ v u, u ∈ (a'.forwardIn v).map Link.source ↔
      u ∈ (a.forwardIn v).map Link.source := by
    intro v u
    rw [mem_sources, mem_sources, h.forward_eq]
  rw [h.sound'.order_eq, h.sound.order_eq, Accepted.lastStage, Accepted.lastStage,
    h.ids.length_eq]
  exact Order.placed_congr count_forward h.sound.next_mem count_forward h.sound'.next_mem
    (fun v => h.ids.mem_iff) hdeps _ h.sound.start_good h.sound'.start_good rfl

end Alike

end Accepted

/-! ### What is planned -/

namespace Plan

variable {a a' : Accepted} (h : a.Alike a')
include h

theorem contains_forwardReach_alike (s : Scope) (t v : String) :
    (forwardReach a' s t).contains v = (forwardReach a s t).contains v := by
  rw [Bool.eq_iff_iff, List.contains_iff_mem, List.contains_iff_mem, mem_forwardReach,
    mem_forwardReach]
  have hleads : Leads a' s = Leads a s := by
    funext u v
    rw [Leads, Leads, h.forward_eq]
  rw [hleads]

theorem meeting?_alike (order : List String) (s : Scope) (arms : List String) :
    meeting? a' order s arms = meeting? a order s arms := by
  simp only [meeting?, List.all_map, Function.comp_def, contains_forwardReach_alike h]

theorem common_alike (order : List String) (s : Scope) (arms : List String) :
    common a' order s arms = common a order s arms := by
  simp only [common, List.countP_map, Function.comp_def, contains_forwardReach_alike h]

theorem earliest_alike (nodes : List String) : earliest a' nodes = earliest a nodes := by
  refine List.filter_congr fun v _ => Bool.eq_iff_iff.mpr ?_
  have hfree : ∀ b : Accepted, (!(b.forwardIn v).any fun l => nodes.contains l.source) = true ↔
      ∀ u, b.Forward u v → u ∉ nodes := by
    intro b
    simp only [Bool.not_eq_true', List.any_eq_false, List.contains_iff_mem, ← Accepted.mem_sources,
      List.forall_mem_map]
  rw [hfree, hfree, h.forward_eq]

theorem isDue_alike (p : Progress) (id : String) : isDue a' p id = isDue a p id := by
  rw [Bool.eq_iff_iff, isDue_iff, isDue_iff, Due, Due, h.forward_eq]

theorem armsFrom_alike (order : List String) (walk : Walk) (s : Scope) (arms : List String)
    (p : Progress) : armsFrom a' order walk s arms p = armsFrom a order walk s arms p := by
  rw [armsFrom, armsFrom, meeting?_alike h]

theorem behind_alike (order : List String) (walk : Walk) (s : Scope) (targets : List String)
    (p : Progress) : behind a' order walk s targets p = behind a order walk s targets p := by
  simp only [behind, armsFrom_alike h]

theorem branchAt_alike (order : List String) (walk : Walk) (s : Scope) {id : String}
    {c : Condition} (hc : a.config? id = some (.condition c)) (p : Progress) :
    branchAt a' order walk s id p = branchAt a order walk s id p := by
  have hbyEdge : ∀ (b : Accepted) (outcome : Bool),
      ((b.graph.outgoing id).find? fun l => l.edge.branch == some outcome).map Link.target =
        (((b.graph.outgoing id).map Link.edge).find? fun e =>
          e.branch == some outcome).map Edge.target := by
    intro b outcome
    rw [List.find?_map, Option.map_map]
    rfl
  have htarget : ∀ outcome : Bool,
      ((a'.graph.outgoing id).find? fun l => l.edge.branch == some outcome).map Link.target =
        ((a.graph.outgoing id).find? fun l => l.edge.branch == some outcome).map Link.target := by
    intro outcome
    rw [hbyEdge, hbyEdge]
    refine congrArg _ (List.find?_eq_find?_of_perm (h.outgoing_perm id) ?_)
    -- each outcome has one edge
    obtain ⟨t, f, hout, hlabels⟩ := h.sound.condition id c hc
    have hne : t.edge.branch ≠ f.edge.branch := by
      rcases hlabels with ⟨ht, hf⟩ | ⟨ht, hf⟩ <;> simp [ht, hf]
    rintro d ⟨hd, hdb⟩ e ⟨he, heb⟩
    rw [(h.outgoing_perm id).mem_iff, hout, List.map_cons, List.map_cons, List.map_nil,
      List.mem_pair] at hd he
    have hsame : d.branch = e.branch := (beq_iff_eq.mp hdb).trans (beq_iff_eq.mp heb).symm
    rcases hd with rfl | rfl <;> rcases he with rfl | rfl
    · rfl
    · exact absurd hsame hne
    · exact absurd hsame.symm hne
    · rfl
  simp only [branchAt, htarget, armsFrom_alike h]

omit h in
/-- Of the links to the arms only the edges matter. -/
theorem fanNotes_eq (fan : String) (merge : Merge) (shared : List String)
    (arms : List (Link × Block)) : fanNotes a fan merge shared arms =
      ((arms.map (Prod.map Link.edge id)).filter fun r => r.2.owned.isEmpty).map
          (fun r => .emptyArm (r.1.slot.getD "") fan r.1.target) ++
        if merge = .first ∧ 1 < ((arms.map (Prod.map Link.edge id)).filter fun r =>
            !r.2.owned.isEmpty).length then
          (shared.filter fun node => (a.graph.incoming node).any fun l =>
            (((arms.map (Prod.map Link.edge id)).filter fun r =>
              !r.2.owned.isEmpty).flatMap fun r => r.2.owned).contains l.source).map
            fun node => .race node fan
        else [] := by
  simp only [fanNotes, List.partition_eq_filter_filter, List.filter_map, List.map_map,
    List.length_map, List.flatMap_map]
  rfl

theorem fanNotes_alike (fan : String) (merge : Merge) (shared : List String) {ls ls' : List Link}
    (hls : ls'.map Link.edge = ls.map Link.edge) (bs : List Block) :
    fanNotes a' fan merge shared (ls'.zip bs) = fanNotes a fan merge shared (ls.zip bs) := by
  have hany : ∀ (node : String) (nodes : List String),
      ((a'.graph.incoming node).any fun l => nodes.contains l.source) =
        (a.graph.incoming node).any fun l => nodes.contains l.source := by
    intro node nodes
    have := (perm_filter h.links fun e => e.target == node).any_eq
      (f := fun e => nodes.contains e.source)
    rw [List.any_map, List.any_map] at this
    exact this
  rw [fanNotes_eq, fanNotes_eq, ← List.zip_map_left, ← List.zip_map_left, hls]
  simp only [hany]

omit h in
theorem map_of_edges {β : Type} {ls ls' : List Link} (hls : ls'.map Link.edge = ls.map Link.edge)
    (f : Edge → β) : (ls'.map fun l => f l.edge) = ls.map fun l => f l.edge := by
  have := congrArg (List.map f) hls
  rw [List.map_map, List.map_map] at this
  exact this

theorem fanAt_alike (order : List String) (walk : Walk) (s : Scope) (id : String) (merge : Merge)
    (p : Progress) : fanAt a' order walk s id merge p = fanAt a order walk s id merge p := by
  have hls := h.edges_outBySlot id
  have htargets : (outBySlot a' id).map Link.target = (outBySlot a id).map Link.target :=
    map_of_edges hls Edge.target
  have hslots : ((outBySlot a' id).map fun l => l.edge.slot.getD "") =
      (outBySlot a id).map fun l => l.edge.slot.getD "" :=
    map_of_edges hls fun e => e.slot.getD ""
  simp only [fanAt, htargets, hslots, common_alike h, earliest_alike h, behind_alike h,
    fanNotes_alike h id merge _ hls]

theorem targets_alike (id : String) :
    (outByTarget a' id).map Link.target = (outByTarget a id).map Link.target :=
  map_of_edges (h.edges_outByTarget id) Edge.target

theorem get?_alike (id : String) :
    Option.Rel Loop.Alike (a.loops.get? id) (a'.loops.get? id) :=
  find?_of_alike h.loops fun L L' hL => by rw [hL.head]

theorem loopAt_alike (order : List String) (walk : Walk) (s : Scope) (id : String)
    (config : FeedbackLoop) (p : Progress) :
    loopAt a' order walk s id config p = loopAt a order walk s id config p := by
  have hget := get?_alike h id
  rw [loopAt, loopAt]
  generalize a.loops.get? id = found at hget ⊢
  generalize a'.loops.get? id = found' at hget ⊢
  cases hget with
  | none => rfl
  | some hL => simp only [hL.body, hL.bodyEntry, targets_alike h, behind_alike h]

theorem loopAhead?_alike (s : Scope) (id : String) : loopAhead? a' s id = loopAhead? a s id := by
  have hentered : Option.Rel Loop.Alike (a.loops.entered? id) (a'.loops.entered? id) :=
    find?_of_alike h.loops fun L L' hL => by rw [hL.head, hL.entry]
  rw [loopAhead?, loopAhead?]
  generalize a.loops.entered? id = found at hentered ⊢
  generalize a'.loops.entered? id = found' at hentered ⊢
  cases hentered with
  | none => rfl
  | some hL => simp only [hL.head, h.node]

theorem blockAt_alike (order : List String) (walk : Walk) (s : Scope) (id : String)
    (p : Progress) : blockAt a' order walk s id p = blockAt a order walk s id p := by
  have hentry : ((a'.loops.get? id).any fun l => l.entry == id) =
      (a.loops.get? id).any fun l => l.entry == id := by
    have hget := get?_alike h id
    generalize a.loops.get? id = found at hget ⊢
    generalize a'.loops.get? id = found' at hget ⊢
    cases hget with
    | none => rfl
    | some hL => simp only [Option.any_some, hL.entry]
  simp only [blockAt, h.node, targets_alike h, behind_alike h, fanAt_alike h, loopAt_alike h,
    hentry]
  split
  · rename_i c hc
    exact branchAt_alike h order walk s hc p
  · rfl
  · rfl
  · rfl

/-- All that is planned from a node on is the same. -/
theorem blockFrom_alike (order : List String) (depth : Nat) :
    blockFrom a' order depth = blockFrom a order depth := by
  induction depth with
  | zero => rfl
  | succ depth ih =>
    funext s id p
    simp only [blockFrom, ih, isDue_alike h, loopAhead?_alike h, loopAt_alike h, blockAt_alike h]

end Plan

theorem Accepted.Alike.plan_eq {a a' : Accepted} (h : a.Alike a') : a'.plan = a.plan := by
  have hfaults : ∀ b : Block, b.faults a'.graph.ids = b.faults a.graph.ids := by
    intro b
    have hids : sortedSet a'.graph.ids = sortedSet a.graph.ids :=
      sortedSet_congr fun v => h.ids.mem_iff
    simp only [Block.faults, hids]
  simp only [Accepted.plan, h.trigger, h.ids.length_eq, h.order_eq, Plan.blockFrom_alike h, hfaults]

theorem alike_of_redrawn {w w' : Workflow} {a a' : Accepted} (ha : check w = .ok a)
    (ha' : check w' = .ok a') (hr : w.Redrawn w')
    (hloops : List.Forall₂ Loop.Alike a.loops.loops a'.loops.loops) : a.Alike a' := by
  obtain ⟨hw, hgraph, -, -, hshape⟩ := check_ok ha
  obtain ⟨hw', hgraph', -⟩ := check_ok ha'
  refine ⟨Check.sound_of_check ha, Check.sound_of_check ha', ?_, fun id => ?_, ?_, ?_, ?_, hloops⟩
  · rw [hw, hw']
    exact hshape.trigger?_eq hr
  · rw [Accepted.node?, Accepted.node?, hw, hw']
    exact hshape.node?_eq hr id
  · rw [hgraph, hgraph']
    exact hr.perm_ids
  · rw [hgraph, hgraph']
    exact hshape.perm_links hr
  · rw [hgraph, Graph.edges_of_links hshape.endpoints]
    exact hshape.nodup_edges

/-- A workflow whose nodes and edges are drawn in another order is accepted if it was before.  It has
the same loops, with the same links back, the same order of dependence and the same plan. -/
theorem check_redrawn {w w' : Workflow} {a : Accepted} (h : check w = .ok a) (hr : w.Redrawn w') :
    ∃ a', check w' = .ok a' ∧ List.Forall₂ Loop.Alike a.loops.loops a'.loops.loops ∧
      a'.order = a.order ∧ a'.plan.block = a.plan.block ∧
      a'.plan.diagnostics = a.plan.diagnostics := by
  obtain ⟨a', ha', hloops⟩ := Check.exists_check_redrawn h hr
  have halike := alike_of_redrawn h ha' hr hloops
  exact ⟨a', ha', hloops, halike.order_eq, by rw [halike.plan_eq], by rw [halike.plan_eq]⟩

/-- With both lists reversed the search meets the links of the nested loops in the opposite order,
and finds the same loops. -/
theorem check_redrawn_essayFlow : ∃ a a', check essayFlow = .ok a ∧
    check ⟨essayFlow.nodes.reverse, essayFlow.edges.reverse⟩ = .ok a' ∧
    a.graph.nextNewest "refine" = ["accept", "polish"] ∧
    a'.graph.nextNewest "refine" = ["polish", "accept"] ∧
    a.loops.loops.map Loop.head = ["accept", "refine"] ∧
    List.Forall₂ Loop.Alike a.loops.loops a'.loops.loops ∧
    a'.order = ["start", "outline", "refine", "accept", "polish", "publish"] ∧
    a'.plan.block = a.plan.block ∧ a'.plan.diagnostics = a.plan.diagnostics := by
  obtain ⟨a, ha, hnext, hheads, horder⟩ : ∃ a, check essayFlow = .ok a ∧
      a.graph.nextNewest "refine" = ["accept", "polish"] ∧
      a.loops.loops.map Loop.head = ["accept", "refine"] ∧
      a.order = ["start", "outline", "refine", "accept", "polish", "publish"] :=
    exists_check_ok (by decide +kernel)
  have hr : essayFlow.Redrawn ⟨essayFlow.nodes.reverse, essayFlow.edges.reverse⟩ :=
    ⟨List.reverse_perm _, List.reverse_perm _⟩
  obtain ⟨a', ha', hloops, horder', hblock, hdiagnostics⟩ := check_redrawn ha hr
  refine ⟨a, a', ha, ha', hnext, ?_, hheads, hloops, horder'.trans horder, hblock, hdiagnostics⟩
  rw [(check_ok ha').2.1]
  decide +kernel

end Flowscript
