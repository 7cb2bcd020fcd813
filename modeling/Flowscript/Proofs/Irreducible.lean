/-
Irreducible graphs.

A graph is irreducible from a root if some directed cycle of it has no vertex that dominates the
others.  The loop analysis looks for such cycles with one depth-first search: it reports a vertex
that is on the cycle of a link back and can be reached past the entry.  What it finds depends on the
graph only:

* `irreducible_iff` — a graph is irreducible exactly if a search from the root, in whatever order,
  finds a link to go back whose target does not dominate its source;
* `Cycle.exists_bypass_iff` — such a link is what a reported vertex comes from;
* `bypass_reported_iff_irreducible` — so a vertex of a well-shaped workflow is reported exactly if
  its graph is irreducible from the trigger.
-/
import Flowscript.Proofs.Cycle
import Mathlib.Data.Finset.Max

open Relation

namespace Flowscript

namespace Graph

variable {g : Graph} {root : String}

/-- A directed cycle, as the list of its vertices, each once: the last one leads to the first. -/
def Circuit (g : Graph) (c : List String) : Prop := c.Nodup ∧ ∃ u v, g.Way u v c ∧ g.Next v u

/-- There is a directed cycle none of whose vertices dominates all the others. -/
def Irreducible (g : Graph) (root : String) : Prop :=
  ∃ c, g.Circuit c ∧ ∀ e ∈ c, ∃ v ∈ c, v ≠ e ∧ ¬g.Dominates root e v

theorem dominates_self (v : String) : g.Dominates root v v :=
  fun _ hp => List.mem_of_getLast? hp.last

/-- On a directed cycle each vertex leads to each. -/
theorem Circuit.way {c : List String} (hc : g.Circuit c) {x y : String} (hx : x ∈ c) (hy : y ∈ c) :
    ReflTransGen (fun a b => g.Next a b ∧ a ∈ c) x y := by
  obtain ⟨-, u, v, hway, hvu⟩ := hc
  have hchain : c.IsChain fun a b => g.Next a b ∧ a ∈ c :=
    hway.chain.imp_of_mem_imp fun a b ha _ hab => ⟨hab, ha⟩
  have hv : v ∈ c := List.mem_of_getLast? hway.last
  have hround := (reach_last hchain hway.last hx).tail ⟨hvu, hv⟩
  exact hround.trans (reach_of_first hchain hway.first hy)

section Search

variable {next : String → List String} (hnext : ∀ u v, v ∈ next u ↔ g.Next u v)
  (hids : ∀ u v, g.Next u v → v ∈ g.ids) (hroot : root ∈ g.ids)
include hnext hids hroot

/-- The way down the tree of the search, closed by a link back to a vertex that does not dominate
its source, is a cycle without a dominating vertex. -/
theorem irreducible_of_retreating {u v : String}
    (hret : (u, v) ∈ (g.trace next [root]).retreating) (hdom : ¬g.Dominates root v u) :
    g.Irreducible root := by
  obtain ⟨-, hmem, hne, hway⟩ := (trace_sorted_of_root hnext hids hroot).1.back u v hret
  have hway : ReflTransGen (fun x y => Trace.Descends next (g.Dominates root) x y ∧ True) v u :=
    ReflTransGen.mono (fun _ _ hxy => ⟨hxy, trivial⟩) _ _ hway
  obtain ⟨c, hchain, hnodup, hfirst, hlast, -⟩ := exists_chain trivial hway
  have hlinks : c.IsChain g.Next := hchain.imp fun x y hxy => (hnext x y).mp hxy.1
  refine ⟨c, ⟨hnodup, v, u, ⟨hlinks, hfirst, hlast⟩, (hnext u v).mp hmem⟩, fun e he => ?_⟩
  obtain ⟨before, after, rfl⟩ := List.append_of_mem he
  rcases List.eq_nil_or_concat' before with rfl | ⟨before, x, rfl⟩
  · -- the first vertex does not dominate the last one
    obtain rfl : e = v := Option.some.inj hfirst
    exact ⟨u, List.mem_of_getLast? hlast, hne, hdom⟩
  · -- any other does not dominate the one in front of it
    have hstep : Trace.Descends next (g.Dominates root) x e := by
      rw [List.append_assoc] at hchain
      exact (List.isChain_append_cons_cons.mp hchain).2.1
    have hxe : x ≠ e := by
      rintro rfl
      simp [List.nodup_append] at hnodup
    exact ⟨x, by simp, hxe, hstep.2⟩

/-- If all links back lead to a dominator of their source, a directed cycle is dominated by the one
of its vertices that the search finishes last. -/
theorem exists_dominator (hreach : ∀ u v, g.Next u v → ReflTransGen g.Next root u)
    (hback : ∀ u v, (u, v) ∈ (g.trace next [root]).retreating → g.Dominates root v u)
    {c : List String} (hc : g.Circuit c) : ∃ e ∈ c, ∀ v ∈ c, g.Dominates root e v := by
  obtain ⟨hs, hfin⟩ := trace_sorted_of_root hnext hids hroot
  have hne : c ≠ [] := by
    rintro rfl
    obtain ⟨-, u, v, hway, -⟩ := hc
    exact absurd hway.first (by simp)
  obtain ⟨e, he, hleast⟩ := c.toFinset.exists_min_image
    (fun v => (g.trace next [root]).finished.idxOf v) (List.toFinset_nonempty_iff c |>.mpr hne)
  rw [List.mem_toFinset] at he
  refine ⟨e, he, fun v hv => ?_⟩
  -- against the links, from `e` all the way round
  have hway := hc.way hv he
  clear hv
  induction hway using ReflTransGen.head_induction_on with
  | refl => exact dominates_self e
  | @head x y hxy _ ih =>
    by_cases hye : e = y
    · subst hye
      by_cases hxe : x = e
      · rw [hxe]
        exact dominates_self e
      · refine hback x e (not_not.mp fun hret => ?_)
        have hlt := hs.idxOf_lt (hfin x (hreach x e hxy.1)) ((hnext x e).mpr hxy.1) hxe hret
        have := hleast x (List.mem_toFinset.mpr hxy.2)
        omega
    · exact ih.of_next hxy.1 hye

/-- A graph that can be reached from its root is irreducible exactly if a search from the root finds
a link to go back whose target does not dominate its source. -/
theorem irreducible_iff (hreach : ∀ u v, g.Next u v → ReflTransGen g.Next root u) :
    g.Irreducible root ↔
      ∃ u v, (u, v) ∈ (g.trace next [root]).retreating ∧ ¬g.Dominates root v u := by
  constructor
  · rintro ⟨c, hc, hnone⟩
    by_contra hcon
    have hback : ∀ u v, (u, v) ∈ (g.trace next [root]).retreating → g.Dominates root v u :=
      fun u v huv => not_not.mp fun hdom => hcon ⟨u, v, huv, hdom⟩
    obtain ⟨e, he, hall⟩ := exists_dominator hnext hids hroot hreach hback hc
    obtain ⟨v, hv, -, hdom⟩ := hnone e he
    exact hdom (hall v hv)
  · rintro ⟨u, v, hret, hdom⟩
    exact irreducible_of_retreating hnext hids hroot hret hdom

end Search

end Graph

namespace Check

variable {w : Workflow} {g : Graph} {trigger : String}

/-- The loop analysis by a search that follows the links of a vertex in the order of `next`. -/
def findLoopsBy (next : String → List String) (w : Workflow) (g : Graph) : Loops × List LoopFault :=
  match w.trigger? with
  | none => ({}, [])
  | some trigger =>
    let t := g.trace next [trigger.id]
    let (loops, faults) :=
      (cyclesOf t.retreating.reverse).foldl (addCycle w g trigger.id) ({}, [])
    let idle := w.nodes.filter fun n =>
      n.isFeedbackLoop && t.discovered.contains n.id && (loops.get? n.id).isNone
    (loops, faults ++ idle.map fun n => .noBackLink n.id)

theorem findLoops_eq (w : Workflow) (g : Graph) :
    findLoops w g = findLoopsBy g.nextNewest w g := rfl

/-- A vertex of the cycle that is reported because it can be reached past the entry. -/
def Cycle.Bypass (w : Workflow) (g : Graph) (trigger : String) (c : Cycle) (f : LoopFault) : Prop :=
  ∃ head, headOf? w c.entry (g.cycle c.entry c.tails) = some head ∧
    ∃ v ∈ g.reachWithout trigger c.entry, v ≠ trigger ∧ v ∈ g.cycle c.entry c.tails ∧
      f = .bypass v head c.entry

theorem code_of_bodyEntryOf {head entry : String} {body : List String} {f : LoopFault}
    (hf : f ∈ (bodyEntryOf g head entry body).2) : f.code = "V012" := by
  simp only [bodyEntryOf] at hf
  split at hf
  · split at hf
    · rw [List.mem_singleton.mp hf]
      rfl
    · simp at hf
  · split at hf
    · simp at hf
    · rw [List.mem_singleton.mp hf]
      rfl

/-- Taking in a cycle adds its bypasses to the reports with their code. -/
theorem mem_addCycle {found : Loops × List LoopFault} {c : Cycle} {f : LoopFault}
    (hf : f.code = "V013") : f ∈ (addCycle w g trigger found c).2 ↔
      f ∈ found.2 ∨ c.Bypass w g trigger f := by
  obtain ⟨loops, faults⟩ := found
  have hsecond : ∀ head, f ≠ .secondCycle head := by
    rintro head rfl
    simp [LoopFault.code] at hf
  simp only [addCycle, Cycle.Bypass]
  cases hhead : headOf? w c.entry (g.cycle c.entry c.tails) with
  | none => simp
  | some head =>
    have hmore : f ∉ (bodyEntryOf g head c.entry
        (sortedSet ((g.cycle c.entry c.tails).filter (· ≠ head)))).2 :=
      fun hmem => absurd (hf.symm.trans (code_of_bodyEntryOf hmem)) (by decide)
    have hbypass : f ∈ ((g.reachWithout trigger c.entry).filter fun id =>
        id ≠ trigger && (g.cycle c.entry c.tails).contains id).map
          (fun id => LoopFault.bypass id head c.entry) ↔
        ∃ head', some head = some head' ∧ ∃ v ∈ g.reachWithout trigger c.entry, v ≠ trigger ∧
          v ∈ g.cycle c.entry c.tails ∧ f = .bypass v head' c.entry := by
      simp only [List.mem_map, List.mem_filter, Bool.and_eq_true, List.contains_iff_mem,
        decide_eq_true_eq, Option.some.injEq, exists_eq_left', and_assoc]
      simp only [eq_comm]
    rw [← hbypass]
    -- whatever becomes of the cycle, its bypasses stay reported
    rcases hbe : bodyEntryOf g head c.entry
      (sortedSet ((g.cycle c.entry c.tails).filter (· ≠ head))) with ⟨_ | bodyEntry, more⟩
    · rw [hbe] at hmore
      simp only [hbe, List.mem_append, hmore, or_false]
    · rw [hbe] at hmore
      simp only [hbe]
      split <;> simp only [List.mem_append, List.mem_singleton, hmore, hsecond, or_false]

theorem mem_foldl_addCycle {cs : List Cycle} {f : LoopFault} (hf : f.code = "V013") :
    ∀ {found : Loops × List LoopFault}, f ∈ (cs.foldl (addCycle w g trigger) found).2 ↔
      f ∈ found.2 ∨ ∃ c ∈ cs, c.Bypass w g trigger f := by
  induction cs with
  | nil => simp
  | cons c cs ih =>
    intro found
    rw [List.foldl_cons, ih, mem_addCycle hf, or_assoc]
    simp only [List.mem_cons, exists_eq_or_imp]

/-- The vertices that the analysis reports as reached past an entry. -/
theorem mem_findLoopsBy {next : String → List String} {t : Node} (ht : w.trigger? = some t)
    {f : LoopFault} (hf : f.code = "V013") : f ∈ (findLoopsBy next w g).2 ↔
      ∃ c ∈ cyclesOf (g.trace next [t.id]).retreating.reverse, c.Bypass w g t.id f := by
  have hidle : ∀ ns : List Node, f ∉ ns.map fun n => .noBackLink n.id := by
    intro ns hmem
    obtain ⟨n, -, rfl⟩ := List.mem_map.mp hmem
    simp [LoopFault.code] at hf
  simp only [findLoopsBy, ht, List.mem_append, hidle, or_false, mem_foldl_addCycle hf,
    List.not_mem_nil, false_or]

/-- A cycle of a well-shaped workflow has a vertex reported exactly if its entry does not dominate
all its tails. -/
theorem Cycle.exists_bypass_iff {t : Node} (hw : w.WellShaped) (ht : w.trigger? = some t)
    {c : Cycle} (hc : c.Found (Graph.ofWorkflow w)) :
    (∃ f, c.Bypass w (Graph.ofWorkflow w) t.id f) ↔
      ∃ u ∈ c.tails, ¬(Graph.ofWorkflow w).Dominates t.id c.entry u := by
  obtain ⟨head, hhead⟩ := Option.isSome_iff_exists.mp (hc.headOf?_isSome hw)
  have hroot := (hc.trigger_ne hw ht).1
  simp only [Graph.dominates_iff, not_or, not_not, hroot, not_false_eq_true, true_and]
  rw [← hc.bypassed_iff hw ht]
  constructor
  · rintro ⟨f, head', -, v, hv, hne, hmem, -⟩
    exact ⟨v, hv, hne, hmem⟩
  · rintro ⟨v, hv, hne, hmem⟩
    exact ⟨_, head, hhead, v, hv, hne, hmem, rfl⟩

/-- In whatever order the search follows the links, it has a vertex reported exactly if the graph is
irreducible. -/
theorem reports_bypass_iff {t : Node} (hw : w.WellShaped) (ht : w.trigger? = some t)
    {next : String → List String} (hnext : ∀ u v, v ∈ next u ↔ (Graph.ofWorkflow w).Next u v) :
    (∃ f ∈ (findLoopsBy next w (Graph.ofWorkflow w)).2, f.code = "V013") ↔
      (Graph.ofWorkflow w).Irreducible t.id := by
  rw [Graph.irreducible_iff hnext (fun _ _ huv => (Graph.next_mem huv).2) (trigger_mem_ids ht)
    fun u v huv => hw.reach_of_trigger ht (Graph.next_mem huv).1]
  constructor
  · rintro ⟨f, hf, hcode⟩
    obtain ⟨c, hc, hbypass⟩ := (mem_findLoopsBy ht hcode).mp hf
    obtain ⟨u, hu, hdom⟩ :=
      (Cycle.exists_bypass_iff hw ht (found_of_search hnext ht hc)).mp ⟨f, hbypass⟩
    exact ⟨u, c.entry, List.mem_reverse.mp ((mem_cyclesOf hc).mp hu), hdom⟩
  · rintro ⟨u, v, hret, hdom⟩
    obtain ⟨c, hc, rfl, hu⟩ := exists_cycle (List.mem_reverse.mpr hret)
    obtain ⟨f, hbypass⟩ :=
      (Cycle.exists_bypass_iff hw ht (found_of_search hnext ht hc)).mpr ⟨u, hu, hdom⟩
    have hcode : f.code = "V013" := by
      obtain ⟨head, -, v, -, -, -, rfl⟩ := hbypass
      rfl
    exact ⟨f, (mem_findLoopsBy ht hcode).mpr ⟨c, hc, hbypass⟩, hcode⟩

end Check

/-- In a workflow whose shape is right the loop analysis reports a node with V013 exactly if the
graph is irreducible from the trigger, and in whatever order its search follows the links. -/
theorem bypass_reported_iff_irreducible {w : Workflow}
    (h : hasErrors ((Check.structuralFaults w (Graph.ofWorkflow w)).map ShapeFault.toDiagnostic) =
      false) :
    ∃ t, w.trigger? = some t ∧
      ((∃ d ∈ (Check.findLoops w (Graph.ofWorkflow w)).2.map LoopFault.toDiagnostic,
          d.code = "V013" ∧ d.isError = true) ↔ (Graph.ofWorkflow w).Irreducible t.id) ∧
      ∀ next : String → List String, (∀ u, (next u).Perm ((Graph.ofWorkflow w).nextNewest u)) →
        ((∃ d ∈ (Check.findLoopsBy next w (Graph.ofWorkflow w)).2.map LoopFault.toDiagnostic,
          d.code = "V013" ∧ d.isError = true) ↔ (Graph.ofWorkflow w).Irreducible t.id) := by
  have hw := Check.hasErrors_structural.mp h
  obtain ⟨t, ht, -⟩ := hw.exists_trigger
  have hany : ∀ next : String → List String,
      (∀ u, (next u).Perm ((Graph.ofWorkflow w).nextNewest u)) →
      ((∃ d ∈ (Check.findLoopsBy next w (Graph.ofWorkflow w)).2.map LoopFault.toDiagnostic,
        d.code = "V013" ∧ d.isError = true) ↔ (Graph.ofWorkflow w).Irreducible t.id) := by
    intro next hnext
    rw [← Check.reports_bypass_iff hw ht fun u v => (hnext u).mem_iff.trans Graph.mem_nextNewest]
    constructor
    · rintro ⟨d, hd, hcode, -⟩
      obtain ⟨f, hf, rfl⟩ := List.mem_map.mp hd
      exact ⟨f, hf, hcode⟩
    · rintro ⟨f, hf, hcode⟩
      exact ⟨f.toDiagnostic, List.mem_map_of_mem hf, hcode, rfl⟩
  refine ⟨t, ht, ?_, hany⟩
  rw [Check.findLoops_eq]
  exact hany _ fun u => .refl _

/-- A draft goes to the review, which sends it back to be written anew; what comes in finished goes
to the review at once. -/
def submissionFlow : Workflow where
  nodes :=
    [ { id := "start", config := .trigger {} },
      { id := "finished", config := .condition { expression := "complete" } },
      { id := "draft", config := .agent { prompt := "draft" } },
      { id := "review", config := .feedbackLoop { maxIterations := 3, stopCondition := "good" } } ]
  edges :=
    [ { id := "e1", source := "start", target := "finished" },
      { id := "e2", source := "finished", target := "review", branch := some true },
      { id := "e3", source := "finished", target := "draft", branch := some false },
      { id := "e4", source := "draft", target := "review" },
      { id := "e5", source := "review", target := "draft" } ]

/-- Neither the draft nor the review is on every way to the other, and that is reported whichever of
the two a search comes to first.  Without the shortcut to the review nothing is irreducible. -/
theorem bypass_reported_submissionFlow :
    (Graph.ofWorkflow submissionFlow).Irreducible "start" ∧
    (∃ d ∈ (Check.findLoopsBy
        (fun u => ((Graph.ofWorkflow submissionFlow).outgoing u).map Link.target) submissionFlow
        (Graph.ofWorkflow submissionFlow)).2.map LoopFault.toDiagnostic,
      d.code = "V013" ∧ d.isError = true) ∧
    ¬(Graph.ofWorkflow (revisionFlow (.feedbackLoop { maxIterations := 3 }))).Irreducible
      "start" := by
  obtain ⟨t, ht, hreport, hany⟩ := bypass_reported_iff_irreducible (w := submissionFlow)
    (by decide +kernel)
  obtain ⟨t', ht', hreport', -⟩ := bypass_reported_iff_irreducible
    (w := revisionFlow (.feedbackLoop { maxIterations := 3 })) (by decide +kernel)
  have hstart : submissionFlow.trigger?.map Node.id = some "start" := by decide +kernel
  have hstart' : (revisionFlow (.feedbackLoop { maxIterations := 3 })).trigger?.map Node.id =
      some "start" := by decide +kernel
  rw [ht] at hstart
  rw [ht'] at hstart'
  rw [Option.some.inj hstart] at hreport hany
  rw [Option.some.inj hstart'] at hreport'
  have hirreducible := hreport.mp (by decide +kernel)
  refine ⟨hirreducible, (hany _ fun u => ?_).mpr hirreducible, fun h => ?_⟩
  · rw [Graph.nextNewest, List.map_reverse]
    exact (List.reverse_perm _).symm
  · exact absurd (hreport'.mpr h) (by decide +kernel)

end Flowscript
