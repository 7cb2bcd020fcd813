/-
Live nodes are run.

Given an outcome for every condition, a node is live if the trigger leads to it by links that are
taken (`Accepted.Live`).  In the plan of a workflow without feedback loops in which no path comes
to a node too early, every live node is run, whatever the outcomes, exactly if no parallel node
leads into an arm of a condition behind its arms (`live_run_iff_fansOpen`).

* Left to right, a node behind a parallel node is made live by outcomes that lead to the link into
  the arm, and not run by the outcome of the condition, which stands after that link
  (`exists_live`).
* Right to left, a live node has its guards met, because a link into an arm comes from the arm or
  from its condition (`plan_entered`).
-/
import Flowscript.Proofs.Plan.Entered

namespace Flowscript

namespace Accepted

/-- A link of a condition is taken if its label is the outcome, and any other link always. -/
def Taken (a : Accepted) (val : String → Bool) (l : Link) : Prop :=
  (a.config? l.source).map Config.kind = some .condition → l.edge.branch = some (val l.source)

instance (a : Accepted) (val : String → Bool) (l : Link) : Decidable (a.Taken val l) :=
  inferInstanceAs (Decidable (_ → _))

/-- The trigger leads to the node by links that are taken. -/
inductive Live (a : Accepted) (val : String → Bool) : String → Prop
  | trigger {t} (first : a.workflow.trigger? = some t) : Live a val t.id
  | link {l} (live : Live a val l.source) (mem : l ∈ a.graph.links) (taken : a.Taken val l) :
    Live a val l.target

theorem Live.mem {a : Accepted} (hs : a.Sound) {val : String → Bool} {v : String}
    (h : a.Live val v) : v ∈ a.graph.ids := by
  cases h with
  | trigger first =>
    obtain ⟨t, ht, hmem, -⟩ := hs.trigger
    rwa [first.symm.trans ht |> Option.some.inj]
  | link live mem taken => exact (hs.link_mem _ mem).2

/-- A condition has two links, one for each outcome. -/
theorem Sound.outcomes {a : Accepted} (hs : a.Sound) {id : String}
    (hkind : (a.config? id).map Config.kind = some .condition) :
    ∃ t f, a.graph.outgoing id = [t, f] ∧
      (t.edge.branch = some true ∧ f.edge.branch = some false ∨
        t.edge.branch = some false ∧ f.edge.branch = some true) := by
  obtain ⟨config, hconfig, hkind⟩ := Option.map_eq_some_iff.mp hkind
  obtain ⟨c, rfl⟩ : ∃ c, config = .condition c := by
    cases config <;> simp [Config.kind] at hkind ⊢
  exact hs.condition id c hconfig

/-- A link is taken if the outcome of its source is chosen for it. -/
theorem Sound.taken {a : Accepted} (hs : a.Sound) {val : String → Bool} {l : Link}
    (hl : l ∈ a.graph.links) (hval : val l.source = l.edge.branch.getD false) : a.Taken val l := by
  intro hkind
  obtain ⟨t, f, hout, hlabels⟩ := hs.outcomes hkind
  have hmem : l ∈ a.graph.outgoing l.source := Graph.mem_outgoing.mpr ⟨hl, rfl⟩
  rw [hout, List.mem_cons, List.mem_singleton] at hmem
  rw [hval]
  rcases hlabels with ⟨ht, hf⟩ | ⟨ht, hf⟩ <;> rcases hmem with rfl | rfl <;> simp [ht, hf]

end Accepted

namespace Plan

variable {a : Accepted}

theorem before_of_sublist {l : List String} {u v : String} (h : [u, v].Sublist l)
    (hnodup : l.Nodup) : Before l u v := by
  obtain ⟨earlier, later, rfl, hu, hv⟩ := List.cons_sublist_iff.mp h
  have hlater : v ∉ earlier := fun hmem =>
    (List.nodup_append.mp hnodup).2.2 v hmem v (List.singleton_sublist.mp hv) rfl
  refine ⟨List.mem_append_left _ hu, ?_⟩
  rw [List.idxOf_append_of_mem hu, List.idxOf_append_of_notMem hlater]
  exact Nat.lt_of_lt_of_le (List.idxOf_lt_length_of_mem hu) (Nat.le_add_right _ _)

section Loopless

variable (hs : a.Sound) (hloops : a.loops.loops = [])
include hs hloops

theorem link_before {l : Link} (hl : l ∈ a.graph.links) :
    Before a.plan.block.owned l.source l.target := by
  have hmem := mem_owned hs (returnsOnce_of_loopless hloops) (hs.link_mem l hl).2
  refine (forward_before hs (forward_of_link hloops hl) hmem).resolve_right ?_
  rintro ⟨L, hL, -⟩
  simp [hloops] at hL

/-- Every node can be made live without a say about the outcomes of the nodes behind it. -/
theorem exists_live {v : String} (hv : v ∈ a.graph.ids) (val : String → Bool) :
    ∃ val', a.Live val' v ∧
      ∀ x, a.plan.block.owned.idxOf v ≤ a.plan.block.owned.idxOf x → val' x = val x := by
  obtain ⟨t, ht, -, -, -, hpred⟩ := hs.trigger
  -- by induction on the place of the node in the plan
  induction hn : a.plan.block.owned.idxOf v using Nat.strongRecOn generalizing v val with
  | _ n ih =>
    by_cases hvt : v = t.id
    · exact ⟨val, hvt ▸ .trigger ht, fun _ _ => rfl⟩
    · -- the outcome of the node before it is set so that the link is taken
      obtain ⟨u, l, hl, -, rfl, rfl⟩ := hpred v hv hvt
      have hlt : _ < _ := (link_before hs hloops hl).2
      obtain ⟨val', hlive, hval'⟩ := ih _ (hn ▸ hlt) (hs.link_mem l hl).1
        (Function.update val l.source (l.edge.branch.getD false)) rfl
      refine ⟨val', .link hlive hl (hs.taken hl ?_), fun x hx => ?_⟩
      · rw [hval' _ (Nat.le_refl _), Function.update_self]
      · rw [hval' x (by omega), Function.update_of_ne]
        rintro rfl
        omega

theorem trigger_first {t : Node} (ht : a.workflow.trigger? = some t) {v : String}
    (hv : v ∈ a.graph.ids) : a.plan.block.owned.idxOf t.id ≤ a.plan.block.owned.idxOf v := by
  obtain ⟨t', ht', -, -, -, hpred⟩ := hs.trigger
  obtain rfl : t' = t := Option.some.inj (ht'.symm.trans ht)
  induction hn : a.plan.block.owned.idxOf v using Nat.strongRecOn generalizing v with
  | _ n ih =>
    by_cases hvt : v = t'.id
    · exact Nat.le_of_eq (hvt ▸ hn)
    · obtain ⟨u, l, hl, -, rfl, rfl⟩ := hpred v hv hvt
      have hlt : _ < _ := (link_before hs hloops hl).2
      exact Nat.le_trans (ih _ (hn ▸ hlt) (hs.link_mem l hl).1 rfl) (hn ▸ Nat.le_of_lt hlt)

/-- The trigger stands in no arm of a condition. -/
theorem trigger_unguarded {t : Node} (ht : a.workflow.trigger? = some t) :
    ∀ g ∈ a.plan.block.guards, g.node ≠ t.id := by
  intro g hg hnode
  obtain ⟨hcondition, hlt⟩ := before_of_sublist (Block.guard_sublist _ hg) (owned_nodup hs)
  have hfirst := trigger_first hs hloops ht (owned_subset hs _ hcondition)
  rw [hnode] at hlt
  omega

/-- If the parallel nodes allow it, the guards of live nodes are met. -/
theorem met_of_live (hentered : Entered a a.plan.block.guards) {val : String → Bool} {v : String}
    (h : a.Live val v) : Block.Met val a.plan.block.guards v := by
  induction h with
  | trigger first =>
    exact fun g hg hnode => absurd hnode (trigger_unguarded hs hloops first g hg)
  | @link l live mem taken ih =>
    intro g hg hnode
    -- the link comes from inside the same arm, or from its condition
    rcases hentered g hg l mem hnode.symm with hguard | ⟨hkind, hsource, hlabel⟩
    · exact ih ⟨g.condition, g.outcome, l.source⟩ hguard rfl
    · rw [← hsource] at hkind ⊢
      exact Option.some.inj ((taken hkind).symm.trans hlabel)

/-- A link from a parallel node or its arms into an arm of a condition behind them is taken by some
outcomes for which the arm is not run. -/
theorem fansOpen_of_run
    (hrun : ∀ val v, a.Live val v → v ∈ a.plan.block.run val) : FansOpen a a.plan.block := by
  intro f hf l hl hsource g hg hnode
  have hnodup := owned_nodup hs
  have hbefore : Before a.plan.block.owned l.source g.condition := by
    refine before_of_sublist (List.Sublist.trans ?_ (Block.fan_sublist _ hf)) hnodup
    rw [← List.cons_append]
    exact (List.singleton_sublist.mpr hsource).append
      (List.singleton_sublist.mpr (Block.mem_owned_of_guard hg).1)
  -- the condition comes out against its guard, all before it as the link needs it
  obtain ⟨val, hlive, hval⟩ := exists_live hs hloops (hs.link_mem l hl).1
    (Function.update (fun _ => l.edge.branch.getD false) g.condition !g.outcome)
  have hne : l.source ≠ g.condition := fun h => Nat.lt_irrefl _ (h ▸ hbefore.2)
  have htaken : a.Taken val l := hs.taken hl (by
    rw [hval _ (Nat.le_refl _), Function.update_of_ne hne])
  have hmet := ((Block.mem_run_iff hnodup).mp (hrun val _ (.link hlive hl htaken))).2 g
    (Block.fan_guards hg _ hf) hnode
  rw [hval _ (Nat.le_of_lt hbefore.2), Function.update_self] at hmet
  simp at hmet

end Loopless

end Plan

/-- A workflow without feedback loops has no loops. -/
theorem loops_eq_nil {w : Workflow} {a : Accepted} (h : check w = .ok a)
    (hloopless : ∀ n ∈ w.nodes, n.kind ≠ .feedbackLoop) : a.loops.loops = [] := by
  refine List.eq_nil_iff_forall_not_mem.mpr fun L hL => ?_
  obtain ⟨c, hc⟩ := (Check.sound_of_check h).head_config L hL
  obtain ⟨n, hn, hconfig⟩ := Option.map_eq_some_iff.mp hc
  rw [Accepted.node?, (check_ok h).1] at hn
  exact hloopless n (List.mem_of_find?_eq_some hn) (by rw [Node.kind, hconfig, Config.kind])

/-- The plan of a workflow without feedback loops that says nothing about joins of different depth
runs every live node, whatever the outcomes of the conditions, exactly if no parallel node leads
into an arm of a condition behind its arms. -/
theorem live_run_iff_fansOpen {w : Workflow} {a : Accepted} (h : check w = .ok a)
    (hloopless : ∀ n ∈ w.nodes, n.kind ≠ .feedbackLoop)
    (hsilent : ∀ d ∈ a.plan.diagnostics, d.code ≠ "L001") :
    (∀ val v, a.Live val v → v ∈ a.plan.block.run val) ↔ Plan.FansOpen a a.plan.block := by
  have hs := Check.sound_of_check h
  have hloops := loops_eq_nil h hloopless
  refine ⟨Plan.fansOpen_of_run hs hloops, fun hfans val v hlive => ?_⟩
  have hentered := Plan.plan_entered hloops hs hsilent hfans
  exact (Block.mem_run_iff (Plan.owned_nodup hs)).mpr
    ⟨Plan.mem_owned hs (Plan.returnsOnce_of_loopless hloops) (hlive.mem hs),
      Plan.met_of_live hs hloops hentered hlive⟩

/-- An article goes to an approval and to a report at once.  It is published if it is approved, and
reported in any case; each of the given slots asks for the approval. -/
def approvalFlow (slots : List String) : Workflow where
  nodes :=
    [ { id := "start", config := .trigger {} },
      { id := "split", config := .parallel {} },
      { id := "approve", config := .condition { expression := "ok" } },
      { id := "publish", config := .agent { prompt := "publish" } },
      { id := "report", config := .agent { prompt := "report" } } ]
  edges :=
    [ { id := "e1", source := "start", target := "split" },
      { id := "e2", source := "split", target := "report", slot := some "report" },
      { id := "e3", source := "approve", target := "publish", branch := some true },
      { id := "e4", source := "approve", target := "report", branch := some false } ] ++
    slots.map fun slot =>
      { id := "ask-" ++ slot, source := "split", target := "approve", slot := some slot }

/-- With one slot that asks for the approval the report comes behind both arms. -/
theorem live_run_approvalFlow : ∃ a, check (approvalFlow ["legal"]) = .ok a ∧
    (∀ n ∈ (approvalFlow ["legal"]).nodes, n.kind ≠ .feedbackLoop) ∧
    (∀ d ∈ a.plan.diagnostics, d.code ≠ "L001") ∧
    (∀ val v, a.Live val v → v ∈ a.plan.block.run val) ∧
    a.plan.block.run (fun _ => true) = ["start", "split", "approve", "publish", "report"] ∧
    a.plan.block.run (fun _ => false) = ["start", "split", "approve", "report"] := by
  obtain ⟨a, ha, hsilent, hfans, hruns⟩ : ∃ a, check (approvalFlow ["legal"]) = .ok a ∧
      (∀ d ∈ a.plan.diagnostics, d.code ≠ "L001") ∧ Plan.FansOpen a a.plan.block ∧
      a.plan.block.run (fun _ => true) = ["start", "split", "approve", "publish", "report"] ∧
      a.plan.block.run (fun _ => false) = ["start", "split", "approve", "report"] :=
    exists_check_ok (by decide +kernel)
  have hloopless : ∀ n ∈ (approvalFlow ["legal"]).nodes, n.kind ≠ .feedbackLoop := by decide
  exact ⟨a, ha, hloopless, hsilent, (live_run_iff_fansOpen ha hloopless hsilent).mpr hfans, hruns⟩

/-- With two slots that ask for the approval the report is planned inside the second arm of the
condition.  When the article is approved it is not made, although a slot of its own asks for it. -/
theorem live_report_not_run : ∃ a, check (approvalFlow ["legal", "tax"]) = .ok a ∧
    (∀ n ∈ (approvalFlow ["legal", "tax"]).nodes, n.kind ≠ .feedbackLoop) ∧
    (∀ d ∈ a.plan.diagnostics, d.code ≠ "L001") ∧
    a.Live (fun _ => true) "report" ∧ "report" ∉ a.plan.block.run fun _ => true := by
  obtain ⟨a, ha, hsilent, hrun, hlive⟩ : ∃ a, check (approvalFlow ["legal", "tax"]) = .ok a ∧
      (∀ d ∈ a.plan.diagnostics, d.code ≠ "L001") ∧
      ("report" ∉ a.plan.block.run fun _ => true) ∧
      (a.workflow.trigger?.map Node.id = some "start") ∧
      (∃ l ∈ a.graph.links, (l.source = "start" ∧ l.target = "split") ∧
        a.Taken (fun _ => true) l) ∧
      (∃ l ∈ a.graph.links, (l.source = "split" ∧ l.target = "report") ∧
        a.Taken (fun _ => true) l) :=
    exists_check_ok (by decide +kernel)
  obtain ⟨htrigger, ⟨l, hl, ⟨hstart, hsplit⟩, htaken⟩, l', hl', ⟨hsplit', hreport⟩, htaken'⟩ :=
    hlive
  refine ⟨a, ha, by decide, hsilent, ?_, hrun⟩
  obtain ⟨t, ht, htid⟩ := Option.map_eq_some_iff.mp htrigger
  have hfirst : a.Live (fun _ => true) l.source := hstart ▸ htid ▸ .trigger ht
  have hnext : a.Live (fun _ => true) l'.source :=
    hsplit'.trans hsplit.symm ▸ .link hfirst hl htaken
  exact hreport ▸ .link hnext hl' htaken'

end Flowscript
