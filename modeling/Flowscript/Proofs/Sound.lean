/-
The graph and the loops of an accepted workflow.

`Accepted.Sound` collects all that later proofs use of acceptance: forward links lead up in a
numbering of the vertices, every vertex but the trigger has one that enters it, exactly the links
from a cycle to its entry go back, cycles are apart or nested, and the feedback loops are exactly
the heads.  `sound_of_check` derives it from the rules and the loop analysis.
-/
import Flowscript.Proofs.Cycle
import Flowscript.Proofs.Natural

open Relation

namespace Flowscript

namespace Accepted

/-- A link that does not go back to the entry of a loop leads from `u` to `v`. -/
def Forward (a : Accepted) (u v : String) : Prop :=
  ∃ l ∈ a.graph.links, a.loops.isBack l = false ∧ l.source = u ∧ l.target = v

/-- The kind of a node and its configuration. -/
def config? (a : Accepted) (id : String) : Option Config := (a.node? id).map Node.config

/-- What the planner relies on in an accepted workflow.  Forward links lead from the trigger to every
node and make no cycle; conditions have an outcome each way; and the loops have one entry each, are
nested, and are headed by the feedback loops, one by one.  All of it follows from acceptance
(`Check.sound_of_check`). -/
structure Sound (a : Accepted) : Prop where
  nodup_ids : a.graph.ids.Nodup
  link_mem : ∀ l ∈ a.graph.links, l.source ∈ a.graph.ids ∧ l.target ∈ a.graph.ids
  link_ne : ∀ l ∈ a.graph.links, l.source ≠ l.target
  trigger : ∃ t, a.workflow.trigger? = some t ∧ t.id ∈ a.graph.ids ∧
    (∀ l ∈ a.graph.links, l.target ≠ t.id) ∧ (∀ L ∈ a.loops.loops, ¬L.Has t.id) ∧
    ∀ v ∈ a.graph.ids, v ≠ t.id → ∃ u, a.Forward u v
  /-- Forward links make no cycle. -/
  rank : ∃ rank : String → Nat, ∀ u v, a.Forward u v → rank u < rank v
  condition : ∀ id c, a.config? id = some (.condition c) → ∃ t f, a.graph.outgoing id = [t, f] ∧
    (t.edge.branch = some true ∧ f.edge.branch = some false ∨
      t.edge.branch = some false ∧ f.edge.branch = some true)
  isBack_iff : ∀ l ∈ a.graph.links,
    a.loops.isBack l = true ↔ ∃ L ∈ a.loops.loops, l.target = L.entry ∧ L.Has l.source
  has_mem : ∀ L ∈ a.loops.loops, ∀ v, L.Has v → v ∈ a.graph.ids
  has_entry : ∀ L ∈ a.loops.loops, L.Has L.entry
  head_notMem : ∀ L ∈ a.loops.loops, L.head ∉ L.body
  entry_inj : ∀ L ∈ a.loops.loops, ∀ L' ∈ a.loops.loops, L.entry = L'.entry → L = L'
  head_inj : ∀ L ∈ a.loops.loops, ∀ L' ∈ a.loops.loops, L.head = L'.head → L = L'
  /-- A loop is entered at its entry only. -/
  enters : ∀ L ∈ a.loops.loops, ∀ l ∈ a.graph.links, L.Has l.target → ¬L.Has l.source →
    l.target = L.entry
  /-- Of two loops with a node in common one has the entry of the other. -/
  meets : ∀ L ∈ a.loops.loops, ∀ L' ∈ a.loops.loops, ∀ v, L.Has v → L'.Has v →
    L.Has L'.entry ∨ L'.Has L.entry
  /-- A loop whose entry is in another loop is in its body as a whole. -/
  inside : ∀ L ∈ a.loops.loops, ∀ L' ∈ a.loops.loops, L ≠ L' → L.Has L'.entry →
    ∀ v, L'.Has v → v ∈ L.body
  head_config : ∀ L ∈ a.loops.loops, ∃ c, a.config? L.head = some (.feedbackLoop c)
  head_of_config : ∀ id c, a.config? id = some (.feedbackLoop c) → ∃ L ∈ a.loops.loops, L.head = id
  head_eq_entry : ∀ L ∈ a.loops.loops, ∀ c, a.config? L.entry = some (.feedbackLoop c) →
    L.head = L.entry
  bodyEntry_mem : ∀ L ∈ a.loops.loops, L.bodyEntry ∈ L.body
  bodyEntry_unique : ∀ L ∈ a.loops.loops, ∀ l ∈ a.graph.links, l.source = L.head →
    l.target ∈ L.body → l.target = L.bodyEntry
  bodyEntry_next : ∀ L ∈ a.loops.loops, L.head = L.entry →
    ∃ l ∈ a.graph.links, l.source = L.head ∧ l.target = L.bodyEntry
  bodyEntry_eq : ∀ L ∈ a.loops.loops, L.head ≠ L.entry → L.bodyEntry = L.entry

end Accepted

namespace Check

variable {w : Workflow} {a : Accepted} {t : Node}

/-- What the search of the loop analysis finds: all vertices, each finished before the others that
dominate it. -/
theorem trace_of_check (h : check w = .ok a) (ht : w.trigger? = some t) :
    ((Graph.ofWorkflow w).trace (Graph.ofWorkflow w).nextNewest [t.id]).Sorted
        (Graph.ofWorkflow w).nextNewest ((Graph.ofWorkflow w).Dominates t.id) ∧
      ∀ v ∈ (Graph.ofWorkflow w).ids,
        v ∈ ((Graph.ofWorkflow w).trace (Graph.ofWorkflow w).nextNewest [t.id]).finished := by
  obtain ⟨hs, hfin⟩ := Graph.trace_sorted_of_root (fun _ _ => Graph.mem_nextNewest)
    (fun _ _ huv => (Graph.next_mem huv).2) (trigger_mem_ids ht)
  exact ⟨hs, fun v hv => hfin v ((wellShaped_of_check h).reach_of_trigger ht hv)⟩

theorem retreating_of_dominates (h : check w = .ok a) (ht : w.trigger? = some t) {u v : String}
    (huv : (Graph.ofWorkflow w).Next u v) (hdom : (Graph.ofWorkflow w).Dominates t.id v u) :
    (u, v) ∈ ((Graph.ofWorkflow w).trace (Graph.ofWorkflow w).nextNewest [t.id]).retreating := by
  refine Graph.mem_retreating_of_dominates (fun _ _ => Graph.mem_nextNewest)
    (fun _ _ hxy => (Graph.next_mem hxy).2) (trigger_mem_ids ht)
    ((wellShaped_of_check h).reach_of_trigger ht (Graph.next_mem huv).1) huv ?_ hdom
  obtain ⟨l, hl, rfl, rfl⟩ := huv
  exact (wellShaped_of_check h).source_ne_target hl

section Analysed

variable (h : check w = .ok a) (ht : w.trigger? = some t) {c : Cycle}
  (hc : c ∈ cyclesOf
    ((Graph.ofWorkflow w).trace (Graph.ofWorkflow w).nextNewest [t.id]).retreating.reverse)
include h ht hc

/-- A loop is made of every cycle. -/
theorem not_skipped : ¬c.Skipped w (Graph.ofWorkflow w) := by
  have hfound := found_of_search (fun _ _ => Graph.mem_nextNewest) ht hc
  rintro (hnone | ⟨head, -, hnone, hfaults⟩)
  · have := hfound.headOf?_isSome (wellShaped_of_check h)
    rw [hnone] at this
    exact absurd this (by simp)
  · simp only [bodyEntryOf] at hnone hfaults
    split at hnone
    · rename_i hhead
      obtain ⟨v, hv, hve, hway⟩ := hfound.exists_step_into
      obtain ⟨l, hl, hsource, rfl⟩ := hv
      rw [List.head?_eq_none_iff, List.filter_eq_nil_iff] at hnone
      refine hnone l.target ?_ ?_
      · exact List.mem_map_of_mem (Graph.mem_outgoing.mpr ⟨hl, hhead ▸ hsource⟩)
      · rw [List.contains_iff_mem, mem_sortedSet, List.mem_filter]
        exact ⟨hfound.mem_cycle.mpr (.inr hway), by simpa [hhead] using hve⟩
    · rename_i hhead
      rw [if_neg hhead] at hfaults
      split at hnone
      · simp at hnone
      · simp_all

variable {L : Loop} (hm : c.Makes w (Graph.ofWorkflow w) t.id L)
include hm

omit h in
theorem head_cases : isGuard w L.head = true ∧
    L.head ∈ (Graph.ofWorkflow w).cycle c.entry c.tails ∧
    (isGuard w c.entry = true → L.head = c.entry) := by
  have hhead := hm.head
  rw [headOf?] at hhead
  split at hhead
  · rename_i hg
    have hentry : L.head = c.entry := (Option.some.inj hhead).symm
    have hfound := found_of_search (fun _ _ => Graph.mem_nextNewest) ht hc
    exact ⟨hentry ▸ hg, hfound.mem_cycle.mpr (.inl hentry), fun _ => hentry⟩
  · rename_i hg
    obtain ⟨hmem, hguard⟩ := List.mem_filter.mp (mem_sortedSet.mp (List.mem_of_head? hhead))
    exact ⟨hguard, hmem, fun he => absurd he hg⟩

omit h in
theorem has_iff_mem_cycle {v : String} :
    L.Has v ↔ v ∈ (Graph.ofWorkflow w).cycle c.entry c.tails := by
  rw [Loop.Has, hm.body, mem_sortedSet, List.mem_filter]
  constructor
  · rintro (rfl | ⟨hv, -⟩)
    · exact (head_cases ht hc hm).2.1
    · exact hv
  · intro hv
    by_cases hhead : v = L.head
    · exact .inl hhead
    · exact .inr ⟨hv, by simpa using hhead⟩

theorem natural_of_makes : L.Natural (Graph.ofWorkflow w) t.id c.tails := by
  have hw := wellShaped_of_check h
  have hfound := found_of_search (fun _ _ => Graph.mem_nextNewest) ht hc
  have hroot := (hfound.trigger_ne hw ht).1
  -- a tail that is found without passing the entry would be a bypass
  have hnone : ¬∃ u ∈ c.tails, ReflTransGen ((Graph.ofWorkflow w).Past c.entry) t.id u := by
    rw [← hfound.bypassed_iff hw ht]
    rintro ⟨v, hv, hne, hmem⟩
    exact hm.guarded v hv hne hmem
  refine ⟨fun v => ?_, fun u hu => ?_, fun v hv hway => ?_, ?_⟩
  · rw [has_iff_mem_cycle ht hc hm, hfound.mem_cycle, hm.entry]
  · rw [hm.entry]
    exact hfound.next u hu
  · rw [hm.entry] at hway
    obtain ⟨u, hu, hvu⟩ := (hfound.mem_cycle.mp ((has_iff_mem_cycle ht hc hm).mp hv)).resolve_left
      (Graph.ne_of_past hway hroot)
    exact hnone ⟨u, hu, hway.trans hvu⟩
  · rw [hm.entry]
    exact hroot

/-- A link from the cycle to its entry is one of those that the search found to go back. -/
theorem mem_tails {u : String} (hu : L.Has u) (hnext : (Graph.ofWorkflow w).Next u L.entry) :
    u ∈ c.tails := by
  rw [mem_cyclesOf hc, List.mem_reverse, ← hm.entry]
  refine retreating_of_dominates h ht hnext (Graph.dominates_iff.mpr (.inr ?_))
  exact (natural_of_makes h ht hc hm).dominated u hu

theorem bodyEntry_facts : L.bodyEntry ∈ L.body ∧
    (∀ l ∈ (Graph.ofWorkflow w).links, l.source = L.head → l.target ∈ L.body →
      l.target = L.bodyEntry) ∧
    (L.head = L.entry →
      ∃ l ∈ (Graph.ofWorkflow w).links, l.source = L.head ∧ l.target = L.bodyEntry) ∧
    (L.head ≠ L.entry → L.bodyEntry = L.entry) := by
  have hbe := hm.bodyEntry
  have hout : ∀ l ∈ (Graph.ofWorkflow w).links, l.source = L.head → l.target ∈ L.body →
      l.target ∈ (((Graph.ofWorkflow w).outgoing L.head).map Link.target).filter
        fun x => L.body.contains x := by
    intro l hl hsource htarget
    exact List.mem_filter.mpr ⟨List.mem_map_of_mem (Graph.mem_outgoing.mpr ⟨hl, hsource⟩),
      List.contains_iff_mem.mpr htarget⟩
  simp only [bodyEntryOf] at hbe
  split at hbe
  · rename_i hhead
    obtain ⟨hfirst, hfaults⟩ := Prod.mk.inj hbe
    obtain ⟨rest, hlist⟩ := List.head?_eq_some_iff.mp hfirst
    -- two links from the head into the body would be a fault
    have hrest : rest = [] := by
      by_contra hne
      have := List.length_pos_iff.mpr hne
      rw [hlist, if_pos (by rw [List.length_cons]; omega)] at hfaults
      simp at hfaults
    subst hrest
    obtain ⟨hmem, hbody⟩ := List.mem_filter.mp (List.mem_of_head? hfirst)
    obtain ⟨l, hl, htarget⟩ := List.mem_map.mp hmem
    obtain ⟨hlinks, hsource⟩ := Graph.mem_outgoing.mp hl
    refine ⟨List.contains_iff_mem.mp hbody, ?_, fun _ => ⟨l, hlinks, hsource, htarget⟩,
      fun hne => absurd hhead hne⟩
    intro l hl hsource htarget
    have := hout l hl hsource htarget
    rw [hlist] at this
    exact List.mem_singleton.mp this
  · rename_i hhead
    split at hbe
    · rename_i hnone
      obtain ⟨hfirst, -⟩ := Prod.mk.inj hbe
      have hentry : L.bodyEntry = L.entry := (Option.some.inj hfirst).symm
      refine ⟨?_, ?_, fun heq => absurd heq hhead, fun _ => hentry⟩
      · rw [hentry]
        exact ((natural_of_makes h ht hc hm).has_entry).resolve_left fun heq => hhead heq.symm
      · intro l hl hsource htarget
        rw [hentry]
        have := List.filter_eq_nil_iff.mp hnone l.target (hout l hl hsource htarget)
        simpa using this
    · simp at hbe

end Analysed

theorem isGuard_iff {id : String} :
    isGuard w id = true ↔ ∃ c, (w.node? id).map Node.config = some (.feedbackLoop c) := by
  rw [isGuard]
  rcases w.node? id with _ | n
  · simp
  · rcases hn : n.config <;> simp [Node.isFeedbackLoop, Node.kind, Config.kind, hn]

section Loops

variable (h : check w = .ok a) (ht : w.trigger? = some t)
include h ht

theorem makes_of_mem {L : Loop} (hL : L ∈ a.loops.loops) :
    ∃ c ∈ cyclesOf
        ((Graph.ofWorkflow w).trace (Graph.ofWorkflow w).nextNewest [t.id]).retreating.reverse,
      c.Makes w (Graph.ofWorkflow w) t.id L := by
  obtain ⟨-, -, hloops, hfaults, -⟩ := check_ok h
  exact (findLoops_makes ht hfaults).1 L (hloops ▸ hL)

theorem isBack_iff {l : Link} (hl : l ∈ (Graph.ofWorkflow w).links) :
    a.loops.isBack l = true ↔ ∃ L ∈ a.loops.loops, l.target = L.entry ∧ L.Has l.source := by
  simp only [Loops.isBack, List.any_eq_true, beq_iff_eq]
  constructor
  · rintro ⟨L, hL, b, hb, hindex⟩
    obtain ⟨c, hc, hm⟩ := makes_of_mem h ht hL
    rw [hm.backLinks, List.mem_filter, Bool.and_eq_true, List.contains_iff_mem, beq_iff_eq] at hb
    obtain ⟨hb, htail, hentry⟩ := hb
    obtain rfl := Graph.link_eq_of_index hb hl hindex
    refine ⟨L, hL, hentry.trans hm.entry.symm, ?_⟩
    exact ((natural_of_makes h ht hc hm).has_iff _).mpr (.inr ⟨_, htail, .refl⟩)
  · rintro ⟨L, hL, htarget, hsource⟩
    obtain ⟨c, hc, hm⟩ := makes_of_mem h ht hL
    refine ⟨L, hL, l, ?_, rfl⟩
    rw [hm.backLinks, List.mem_filter, Bool.and_eq_true, List.contains_iff_mem, beq_iff_eq]
    exact ⟨hl, mem_tails h ht hc hm hsource ⟨l, hl, rfl, htarget⟩, htarget.trans hm.entry⟩

/-- A link that the search found to go back is one of the links back of a loop. -/
theorem isBack_of_retreating {l : Link} (hl : l ∈ (Graph.ofWorkflow w).links)
    (hret : (l.source, l.target) ∈
      ((Graph.ofWorkflow w).trace (Graph.ofWorkflow w).nextNewest [t.id]).retreating) :
    a.loops.isBack l = true := by
  obtain ⟨-, -, hloops, hfaults, -⟩ := check_ok h
  obtain ⟨c, hc, hentry, htail⟩ := exists_cycle (List.mem_reverse.mpr hret)
  obtain ⟨L, hL, hm⟩ := ((findLoops_makes ht hfaults).2.1 c hc).resolve_left (not_skipped h ht hc)
  refine (isBack_iff h ht hl).mpr ⟨L, hloops ▸ hL, hentry.symm.trans hm.entry.symm, ?_⟩
  exact ((natural_of_makes h ht hc hm).has_iff _).mpr (.inr ⟨_, htail, .refl⟩)

theorem exists_rank : ∃ rank : String → Nat, ∀ u v, a.Forward u v → rank u < rank v := by
  obtain ⟨hsorted, hfin⟩ := trace_of_check h ht
  refine ⟨fun v => ((Graph.ofWorkflow w).trace
    (Graph.ofWorkflow w).nextNewest [t.id]).finished.idxOf v, ?_⟩
  rintro u v ⟨l, hl, hback, rfl, rfl⟩
  rw [(check_ok h).2.1] at hl
  refine hsorted.idxOf_lt (hfin _ (Graph.mem_links hl).2.1)
    (Graph.mem_nextNewest.mpr ⟨l, hl, rfl, rfl⟩) ((wellShaped_of_check h).source_ne_target hl)
    fun hret => ?_
  rw [isBack_of_retreating h ht hl hret] at hback
  exact absurd hback (by simp)

theorem exists_forward {v : String} (hv : v ∈ (Graph.ofWorkflow w).ids) (hne : v ≠ t.id) :
    ∃ u, a.Forward u v := by
  obtain ⟨u, hway, -, l, hl, rfl, rfl⟩ :=
    Graph.exists_last_step ((wellShaped_of_check h).reach_of_trigger ht hv) hne.symm
  refine ⟨l.source, l, (check_ok h).2.1 ▸ hl, Bool.eq_false_iff.mpr fun hback => ?_, rfl, rfl⟩
  obtain ⟨L, hL, htarget, hsource⟩ := (isBack_iff h ht hl).mp hback
  obtain ⟨c, hc, hm⟩ := makes_of_mem h ht hL
  exact (natural_of_makes h ht hc hm).dominated _ hsource (htarget ▸ hway)

theorem loop_inj {L L' : Loop} (hL : L ∈ a.loops.loops) (hL' : L' ∈ a.loops.loops) :
    (L.entry = L'.entry → L = L') ∧ (L.head = L'.head → L = L') := by
  obtain ⟨-, -, hloops, hfaults, -⟩ := check_ok h
  obtain ⟨-, -, hentries, hheads, -⟩ := findLoops_makes ht hfaults
  rw [← hloops] at hentries hheads
  exact ⟨List.inj_on_of_nodup_map hentries hL hL', List.inj_on_of_nodup_map hheads hL hL'⟩

theorem nodup_heads : (a.loops.loops.map Loop.head).Nodup := by
  obtain ⟨-, -, hloops, hfaults, -⟩ := check_ok h
  rw [hloops]
  exact (findLoops_makes ht hfaults).2.2.2.1

/-- Every feedback loop heads a loop. -/
theorem mem_heads {n : Node} (hn : n ∈ w.nodes) (hguard : n.isFeedbackLoop) :
    n.id ∈ a.loops.loops.map Loop.head := by
  obtain ⟨-, -, hloops, hfaults, -⟩ := check_ok h
  obtain ⟨hsorted, hfin⟩ := trace_of_check h ht
  rw [hloops]
  exact (findLoops_makes ht hfaults).2.2.2.2 n hn hguard
    (hsorted.found _ (hfin _ (Graph.mem_ids.mpr ⟨n, hn, rfl⟩)))

/-- The head of an outer loop is not on an inner cycle. -/
theorem mem_body_of_inside {L L' : Loop} (hL : L ∈ a.loops.loops) (hL' : L' ∈ a.loops.loops)
    (hne : L ≠ L') (hin : L.Has L'.entry) {v : String} (hv : L'.Has v) : v ∈ L.body := by
  obtain ⟨c, hc, hm⟩ := makes_of_mem h ht hL
  obtain ⟨c', hc', hm'⟩ := makes_of_mem h ht hL'
  have hnat := natural_of_makes h ht hc hm
  have hnat' := natural_of_makes h ht hc' hm'
  have hentry : L.entry ≠ L'.entry := fun heq => hne ((loop_inj h ht hL hL').1 heq)
  have hreach : ReflTransGen (Graph.ofWorkflow w).Next t.id L.entry := by
    obtain ⟨u, hu⟩ := exists_tail hc
    exact (wellShaped_of_check h).reach_of_trigger ht (Graph.next_mem (hnat.tail_next u hu)).2
  have hout := hnat.not_has_entry hnat' hentry hreach hin
  refine (hnat.inside hnat' hentry hreach hin hv).resolve_left ?_
  rintro rfl
  have hhead : L.head ≠ L.entry := fun heq => hout (heq ▸ hv)
  have hhead' : L.head ≠ L'.entry := by
    intro heq
    have hguard := (head_cases ht hc hm).1
    rw [heq, hm'.entry] at hguard
    have := (head_cases ht hc' hm').2.2 hguard
    exact hne ((loop_inj h ht hL hL').2 (heq.trans (hm'.entry.trans this.symm)))
  -- what follows the head on the inner cycle can only be the outer entry
  obtain ⟨x, hx, hway⟩ := ((hnat'.has_iff _).mp hv).resolve_left hhead'
  obtain ⟨y, hnext, hy⟩ : ∃ y, (Graph.ofWorkflow w).Next L.head y ∧ L'.Has y := by
    rcases hway.cases_head with rfl | ⟨y, hxy, hyx⟩
    · exact ⟨_, hnat'.tail_next _ hx, hnat'.has_entry⟩
    · exact ⟨y, hxy.1, (hnat'.has_iff y).mpr (.inr ⟨x, hx, hyx⟩)⟩
  obtain ⟨-, hunique, -, hback⟩ := bodyEntry_facts h ht hc hm
  obtain ⟨l, hl, hsource, rfl⟩ := hnext
  have hbody : l.target ∈ L.body := (hnat.inside hnat' hentry hreach hin hy).resolve_left
    fun heq => (wellShaped_of_check h).source_ne_target hl (hsource.trans heq.symm)
  have := hunique l hl hsource hbody
  rw [hback hhead] at this
  exact hout (this ▸ hy)

end Loops

theorem sound_of_check (h : check w = .ok a) : a.Sound := by
  obtain ⟨t, ht, htm, htt, -⟩ := trigger_unique h
  obtain ⟨hw, hgraph, hloops, hfaults, -⟩ := check_ok h
  have hmake : ∀ L ∈ a.loops.loops, ∃ c, c ∈ cyclesOf ((Graph.ofWorkflow w).trace
      (Graph.ofWorkflow w).nextNewest [t.id]).retreating.reverse ∧
      c.Makes w (Graph.ofWorkflow w) t.id L ∧ L.Natural (Graph.ofWorkflow w) t.id c.tails := by
    intro L hL
    obtain ⟨c, hc, hm⟩ := makes_of_mem h ht hL
    exact ⟨c, hc, hm, natural_of_makes h ht hc hm⟩
  have hmem : ∀ L ∈ a.loops.loops, ∀ v, L.Has v → v ∈ (Graph.ofWorkflow w).ids := by
    intro L hL v hv
    obtain ⟨c, hc, hm, hnat⟩ := hmake L hL
    rcases (hnat.has_iff v).mp hv with rfl | ⟨u, hu, hway⟩
    · obtain ⟨u, hu⟩ := exists_tail hc
      exact (Graph.next_mem (hnat.tail_next u hu)).2
    · rcases hway.cases_head with rfl | ⟨x, hvx, -⟩
      · exact (Graph.next_mem (hnat.tail_next _ hu)).1
      · exact (Graph.next_mem hvx.1).1
  refine
    { nodup_ids := hgraph ▸ Graph.nodup_ids w
      link_mem := fun l hl => hgraph ▸ (Graph.mem_links (hgraph ▸ hl)).2
      link_ne := fun l hl => (wellShaped_of_check h).source_ne_target (hgraph ▸ hl)
      trigger := ?trigger, rank := exists_rank h ht, condition := ?condition
      isBack_iff := fun l hl => isBack_iff h ht (hgraph ▸ hl)
      has_mem := fun L hL v hv => hgraph ▸ hmem L hL v hv
      has_entry := ?has_entry, head_notMem := ?head_notMem
      entry_inj := fun L hL L' hL' => (loop_inj h ht hL hL').1
      head_inj := fun L hL L' hL' => (loop_inj h ht hL hL').2
      enters := ?enters, meets := ?meets
      inside := fun L hL L' hL' hne hin v hv => mem_body_of_inside h ht hL hL' hne hin hv
      head_config := ?head_config, head_of_config := ?head_of_config
      head_eq_entry := ?head_eq_entry
      bodyEntry_mem := ?bodyEntry_mem, bodyEntry_unique := ?bodyEntry_unique
      bodyEntry_next := ?bodyEntry_next, bodyEntry_eq := ?bodyEntry_eq }
  case trigger =>
    refine ⟨t, hw ▸ ht, hgraph ▸ Graph.mem_ids.mpr ⟨t, htm, rfl⟩, fun l hl htarget => ?_, ?_, ?_⟩
    · exact (wellShaped_of_check h).no_link_to_trigger ht ⟨l, hgraph ▸ hl, rfl, htarget⟩
    · intro L hL hhas
      obtain ⟨c, -, -, hnat⟩ := hmake L hL
      exact hnat.ne_root hhas rfl
    · intro v hv hne
      exact exists_forward h ht (hgraph ▸ hv) hne
  case condition =>
    intro id c hc
    obtain ⟨n, hn, hnc⟩ := Option.map_eq_some_iff.mp hc
    rw [Accepted.node?, hw] at hn
    obtain ⟨hnm, rfl⟩ := Workflow.node?_eq_some hn
    rw [hgraph]
    exact (wellShaped_of_check h).condition_outgoing hnm (by rw [Node.kind, hnc]; rfl)
  case has_entry =>
    intro L hL
    obtain ⟨c, -, -, hnat⟩ := hmake L hL
    exact hnat.has_entry
  case head_notMem =>
    intro L hL hbody
    obtain ⟨c, -, hm, -⟩ := hmake L hL
    rw [hm.body, mem_sortedSet, List.mem_filter] at hbody
    simp at hbody
  case enters =>
    intro L hL l hl htarget hsource
    obtain ⟨c, -, -, hnat⟩ := hmake L hL
    exact hnat.enters ⟨l, hgraph ▸ hl, rfl, rfl⟩ htarget hsource
  case meets =>
    intro L hL L' hL' v hv hv'
    obtain ⟨c, -, -, hnat⟩ := hmake L hL
    obtain ⟨c', -, -, hnat'⟩ := hmake L' hL'
    by_cases heq : L.entry = L'.entry
    · exact .inl (heq ▸ hnat.has_entry)
    · have hreach := (wellShaped_of_check h).reach_of_trigger ht (hmem L hL v hv)
      exact hnat.meets hnat' heq hreach hv hv'
  case head_config =>
    intro L hL
    obtain ⟨c, hc, hm, -⟩ := hmake L hL
    have := isGuard_iff.mp (head_cases ht hc hm).1
    rwa [← hw] at this
  case head_of_config =>
    intro id c hc
    obtain ⟨n, hn, hnc⟩ := Option.map_eq_some_iff.mp hc
    rw [Accepted.node?, hw] at hn
    obtain ⟨hnm, rfl⟩ := Workflow.node?_eq_some hn
    have hhead := mem_heads h ht hnm (by simp [Node.isFeedbackLoop, Node.kind, hnc, Config.kind])
    obtain ⟨L, hL, hhead⟩ := List.mem_map.mp hhead
    exact ⟨L, hL, hhead⟩
  case head_eq_entry =>
    intro L hL c hc
    obtain ⟨d, hd, hm, -⟩ := hmake L hL
    rw [hm.entry] at hc ⊢
    refine (head_cases ht hd hm).2.2 (isGuard_iff.mpr ⟨c, ?_⟩)
    rw [← hw]
    exact hc
  case bodyEntry_mem =>
    intro L hL
    obtain ⟨c, hc, hm, -⟩ := hmake L hL
    exact (bodyEntry_facts h ht hc hm).1
  case bodyEntry_unique =>
    intro L hL l hl
    obtain ⟨c, hc, hm, -⟩ := hmake L hL
    exact (bodyEntry_facts h ht hc hm).2.1 l (hgraph ▸ hl)
  case bodyEntry_next =>
    intro L hL
    obtain ⟨c, hc, hm, -⟩ := hmake L hL
    exact hgraph ▸ (bodyEntry_facts h ht hc hm).2.2.1
  case bodyEntry_eq =>
    intro L hL
    obtain ⟨c, hc, hm, -⟩ := hmake L hL
    exact (bodyEntry_facts h ht hc hm).2.2.2

end Check

end Flowscript
