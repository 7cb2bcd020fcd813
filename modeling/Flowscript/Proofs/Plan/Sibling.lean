/-
What nodes that run at the same time can read of each other.

A node can refer to all nodes that lead to it, by whatever links.  Ways from one arm of a parallel
node to another use links back, since the arms are apart (`Separate`), and so go round a loop that
has the parallel node.  If it is on a loop, the way round exists; if not, no arm can read a variable
of another:

* `forward_or_entry` — a way that goes back leads on from the entry of a loop that it started in;
* `next_entry` — all of a loop leads to its entry;
* `concurrent_refers_iff` — the nodes of two arms can refer to each other exactly if the parallel
  node is on a loop.
-/
import Flowscript.Proofs.Plan.Apart
import Flowscript.Proofs.Reference.Template

open Relation

namespace Flowscript

namespace Plan

variable {w : Workflow} {a : Accepted}

/-- A way leads forward only, or from a node of a loop on from the entry of the loop. -/
theorem forward_or_entry (hs : a.Sound) {u v : String} (h : ReflTransGen a.graph.Next u v) :
    ReflTransGen a.Forward u v ∨
      ∃ L ∈ a.loops.loops, L.Has u ∧ ReflTransGen a.Forward L.entry v := by
  induction h using ReflTransGen.head_induction_on with
  | refl => exact .inl .refl
  | @head x y hxy _ ih =>
    obtain ⟨l, hl, rfl, rfl⟩ := hxy
    rcases hback : a.loops.isBack l with _ | _
    · have hforward : a.Forward l.source l.target := ⟨l, hl, hback, rfl, rfl⟩
      rcases ih with hway | ⟨L, hL, hhas, hway⟩
      · exact .inl (.head hforward hway)
      · by_cases hsource : L.Has l.source
        · exact .inr ⟨L, hL, hsource, hway⟩
        · rw [← hs.enters L hL l hl hhas hsource] at hway
          exact .inl (.head hforward hway)
    · obtain ⟨M, hM, htarget, hsource⟩ := (hs.isBack_iff l hl).mp hback
      rcases ih with hway | ⟨L, hL, hhas, hway⟩
      · exact .inr ⟨M, hM, hsource, htarget ▸ hway⟩
      · -- a loop that has the entry of another one has all of it
        by_cases hLM : L = M
        · exact .inr ⟨L, hL, hLM ▸ hsource, hway⟩
        · exact .inr ⟨L, hL, .inr (hs.inside L hL M hM hLM (htarget ▸ hhas) _ hsource), hway⟩

/-- Every node of a loop leads to its entry. -/
theorem next_entry (h : check w = .ok a) {L : Loop} (hL : L ∈ a.loops.loops) {v : String}
    (hv : L.Has v) : ReflTransGen a.graph.Next v L.entry := by
  obtain ⟨t, ht, -⟩ := trigger_unique h
  obtain ⟨c, hc, hmakes⟩ := Check.makes_of_mem h ht hL
  have hnatural := Check.natural_of_makes h ht hc hmakes
  rw [(check_ok h).2.1]
  rcases (hnatural.has_iff v).mp hv with rfl | ⟨u, hu, hway⟩
  · exact .refl
  · exact (ReflTransGen.mono (fun _ _ hxy => hxy.1) _ _ hway).tail (hnatural.tail_next u hu)

/-- A node of one arm can refer to a node of another exactly if the parallel node is on a loop. -/
theorem Separate.refers_iff (h : check w = .ok a) {node : String} {arms : List Block}
    (hsep : Separate a node arms) {b d : Block} (hb : b ∈ arms) (hd : d ∈ arms)
    (hapart : ∀ u ∈ b.owned, ∀ v ∈ d.owned, ¬ReflTransGen a.Forward u v) {u v : String}
    (hu : u ∈ b.owned) (hv : v ∈ d.owned) (hmem : v ∈ a.graph.ids) :
    w.Refers v u ↔ ∃ L ∈ a.loops.loops, L.Has node := by
  have hs := Check.sound_of_check h
  have hgraph := (check_ok h).2.1
  rw [Workflow.refers_iff (hgraph ▸ hmem), ← hgraph]
  constructor
  · rintro ⟨-, hway⟩
    rcases forward_or_entry hs hway with hway | ⟨L, hL, hhas, hway⟩
    · exact absurd hway (hapart u hu v hv)
    · refine ⟨L, hL, ?_⟩
      by_contra hnode
      exact hapart _ (hsep.whole b hb u hu L hL hnode hhas) v hv hway
  · rintro ⟨L, hL, hnode⟩
    refine ⟨?_, (next_entry h hL (hsep.inside b hb u hu L hL hnode)).trans ?_⟩
    · rintro rfl
      exact hapart u hu u hv .refl
    · refine ReflTransGen.mono ?_ _ _ (forward_of_has hs hL (hsep.inside d hd v hv L hL hnode))
      rintro x y ⟨l, hl, -, rfl, rfl⟩
      exact ⟨l, hl, rfl, rfl⟩

end Plan

/-- In the plan of an accepted workflow the nodes of two blocks that are run at the same time can
refer to each other exactly if the parallel node is on a loop.  Otherwise no template of a node in
one of them becomes an expression that reads the variable of a node in the other. -/
theorem concurrent_refers_iff {w : Workflow} {a : Accepted} (h : check w = .ok a) :
    ∀ c ∈ a.plan.block.parts, ∀ node, c.owner? = some node →
      c.concurrent.Pairwise fun b d => ∀ u ∈ b.owned, ∀ v ∈ d.owned,
        (w.Refers v u ↔ ∃ L ∈ a.loops.loops, L.Has node) ∧
        (w.Refers u v ↔ ∃ L ∈ a.loops.loops, L.Has node) ∧
        (w.Reads v u ∨ w.Reads u v → ∃ L ∈ a.loops.loops, L.Has node) := by
  intro c hc node howner
  cases c with
  | fan node' arms merge next =>
    obtain rfl : node' = node := Option.some.inj howner
    have hs := Check.sound_of_check h
    have hsep := Plan.plan_separate hs hc
    have hmem : ∀ b ∈ arms.map Prod.snd, ∀ v ∈ b.owned, v ∈ a.graph.ids := by
      intro b hb v hv
      have hchild := Block.child_sublist (b := .fan node' arms merge next)
        (List.mem_append_left [next] hb)
      exact Plan.owned_subset hs v ((Block.part_sublist _ hc).subset (hchild.subset hv))
    refine hsep.apart.imp_of_mem fun {b d} hb hd hapart u hu v hv => ?_
    have hvu := hsep.refers_iff h hb hd (fun x hx y hy => (hapart x hx y hy).1) hu hv
      (hmem d hd v hv)
    have huv := hsep.refers_iff h hd hb (fun x hx y hy => (hapart y hy x hx).2) hv hu
      (hmem b hb u hu)
    have hgraph := (check_ok h).2.1
    refine ⟨hvu, huv, ?_⟩
    rintro (hreads | hreads)
    · exact hvu.mp (Workflow.refers_of_reads (hgraph ▸ hmem b hb u hu) hreads)
    · exact huv.mp (Workflow.refers_of_reads (hgraph ▸ hmem d hd v hv) hreads)
  | _ => exact .nil

/-- Facts and style are checked at the same time, the facts until they are right. -/
def reportFlow : Workflow where
  nodes :=
    [ { id := "start", config := .trigger {} },
      { id := "split", config := .parallel {} },
      { id := "facts", config := .feedbackLoop { maxIterations := 2, stopCondition := "right" } },
      { id := "verify", config := .agent { prompt := "verify" } },
      { id := "style", config := .agent { prompt := "style" } },
      { id := "merge", config := .agent { prompt := "merge" } } ]
  edges :=
    [ { id := "e1", source := "start", target := "split" },
      { id := "e2", source := "split", target := "facts", slot := some "facts" },
      { id := "e3", source := "split", target := "style", slot := some "style" },
      { id := "e4", source := "facts", target := "verify" },
      { id := "e5", source := "verify", target := "facts" },
      { id := "e6", source := "facts", target := "merge" },
      { id := "e7", source := "style", target := "merge" } ]

/-- The loop is inside one of the arms, and nothing in it can be read by the other. -/
theorem concurrent_refers_reportFlow : ∃ a, check reportFlow = .ok a ∧
    (∃ c ∈ a.plan.block.parts, c.owner? = some "split" ∧
      c.concurrent.map Block.owned = [["facts", "verify"], ["style"]]) ∧
    ¬reportFlow.Refers "style" "verify" ∧ ¬reportFlow.Reads "style" "verify" ∧
    ¬reportFlow.Reads "verify" "style" := by
  obtain ⟨a, ha, hloops, c, hc, howner, howned⟩ : ∃ a, check reportFlow = .ok a ∧
      (∀ L ∈ a.loops.loops, ¬("split" = L.head ∨ "split" ∈ L.body)) ∧
      ∃ c ∈ a.plan.block.parts, c.owner? = some "split" ∧
        c.concurrent.map Block.owned = [["facts", "verify"], ["style"]] :=
    exists_check_ok (by decide +kernel)
  have hpairs := concurrent_refers_iff ha c hc "split" howner
  obtain ⟨b, rest, hconcurrent, hb, hrest⟩ := List.map_eq_cons_iff.mp howned
  obtain ⟨d, rest, rfl, hd, -⟩ := List.map_eq_cons_iff.mp hrest
  rw [hconcurrent] at hpairs
  obtain ⟨hrefers, -, hreads⟩ := (List.pairwise_cons.mp hpairs).1 d List.mem_cons_self "verify"
    (by simp [hb]) "style" (by simp [hd])
  have hnone : ¬∃ L ∈ a.loops.loops, L.Has "split" := by
    rintro ⟨L, hL, hhas⟩
    exact hloops L hL hhas
  exact ⟨a, ha, ⟨c, hc, howner, howned⟩, fun hr => hnone (hrefers.mp hr),
    fun hr => hnone (hreads (.inl hr)), fun hr => hnone (hreads (.inr hr))⟩

/-- In a loop the check of the facts can read the style, although both are run at the same time. -/
theorem facts_reads_style : ∃ a, check editFlow = .ok a ∧
    (∃ c ∈ a.plan.block.parts, c.owner? = some "split" ∧
      c.concurrent.map Block.owned = [["facts"], ["style"]]) ∧
    editFlow.Refers "facts" "style" ∧ editFlow.Reads "facts" "style" := by
  obtain ⟨a, ha, hfan⟩ : ∃ a, check editFlow = .ok a ∧
      ∃ c ∈ a.plan.block.parts, c.owner? = some "split" ∧
        c.concurrent.map Block.owned = [["facts"], ["style"]] :=
    exists_check_ok (by decide +kernel)
  have hparts : (editFlow.resolve "facts" "\x7b\x7bstyle.output\x7d\x7d").parts =
      [.ref "\x7b\x7bstyle.output\x7d\x7d" "step_style.output"] := by
    decide +kernel
  have hreads : editFlow.Reads "facts" "style" :=
    ⟨_, _, _, hparts ▸ List.mem_cons_self, by decide +kernel⟩
  exact ⟨a, ha, hfan, Workflow.refers_of_reads (by decide +kernel) hreads, hreads⟩

end Flowscript
