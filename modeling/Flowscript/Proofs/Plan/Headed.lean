/-
Arms hold what they lead to.

An arm of a block was planned by one call, which plans only what its node leads to (`Traced`), and
the block that a call returns starts at that node.  So each arm is headed by a node, the target of a
link or one of several successors:

* `Accepted.first?` — the node with which a block starts: the entry of a loop, which need not be the
  node of its block;
* `Accepted.Heads` — a node with which an arm starts and that leads to all of it;
* `Step.leading` — what a call plans is headed by its node;
* `arms_headed` — the arms of conditions, of parallel nodes and of forks are headed by the targets
  of the links that lead into them.
-/
import Flowscript.Proofs.Plan.Apart

open Relation

namespace Flowscript

namespace Accepted

/-- The node with which a block starts. -/
def first? (a : Accepted) : Block → Option String
  | .loop node _ _ _ _ => (a.loops.get? node).map Loop.entry
  | b => b.owner?

/-- The arm starts with the node, if it has any, and holds only what the node leads to by forward
links. -/
structure Heads (a : Accepted) (t : String) (arm : Block) : Prop where
  first : arm.owned ≠ [] → a.first? arm = some t ∧ t ∈ arm.owned
  forward : ∀ v ∈ arm.owned, ReflTransGen a.Forward t v

/-- Arms that have nodes are headed only by their first nodes. -/
theorem map_first?_of_heads {a : Accepted} {ts : List String} {arms : List Block}
    (h : List.Forall₂ a.Heads ts arms) (howned : [] ∉ arms.map Block.owned) :
    arms.map a.first? = ts.map some := by
  induction h with
  | nil => rfl
  | cons head _ ih =>
    obtain ⟨hne, hrest⟩ := not_or.mp (mt List.mem_cons.mpr howned)
    rw [List.map_cons, List.map_cons, (head.first (Ne.symm hne)).1, ih hrest]

end Accepted

/-- The arms of a block are headed: those of a condition by the targets of its links for the two
outcomes, those of a parallel node by the targets of its links in the order of the slots, those of a
fork by different nodes, and behind a plain node by all of its successors. -/
def Block.Headed (a : Accepted) : Block → Prop
  | .branch node onTrue onFalse _ => ∃ t f : Link,
    (∀ l, l ∈ a.graph.outgoing node ↔ l = t ∨ l = f) ∧
      t.edge.branch = some true ∧ f.edge.branch = some false ∧
      a.Heads t.target onTrue ∧ a.Heads f.target onFalse
  | .fan node arms _ _ =>
    List.Forall₂ (fun l arm => arm.1 = l.edge.slot.getD "" ∧ a.Heads l.target arm.2)
      (Plan.outBySlot a node) arms
  | .fork arms _ => ∃ ts : List String, ts.Nodup ∧ List.Forall₂ a.Heads ts arms
  | .seq node (.fork arms _) => ∃ ts : List String, ts.Nodup ∧
    (∀ t, t ∈ ts ↔ ∃ l ∈ a.graph.outgoing node, l.target = t) ∧ List.Forall₂ a.Heads ts arms
  | _ => True

namespace Plan

variable {a : Accepted} {A : List Loop} {s : Scope} {p q : Progress} {id : String}

/-- A call plans what its node leads to, and the block that it returns is a leaf or starts with the
node. -/
def Leading (a : Accepted) : Call := fun A s id p b q => Traced a A s id p b q ∧
  (b.owner? = none ∧ b.children = [] ∨ a.first? b = some id ∧ id ∈ b.owned)

theorem Keeps.heads {t : String} {b : Block} (h : Keeps a (Leading a) A s t p b q) :
    a.Heads t b := by
  obtain ⟨-, -, htraced, hstart⟩ := h
  refine ⟨fun howned => hstart.resolve_left ?_, fun v hv => forward_of_leads (htraced.1 v hv).2⟩
  rintro ⟨hnone, hleaf⟩
  exact howned (by rw [Block.owned_eq, hnone, hleaf]; rfl)

theorem Each.heads {ids : List String} {bs : List Block}
    (h : Each (Keeps a (Leading a)) A s ids p bs q) : List.Forall₂ a.Heads ids bs := by
  induction h with
  | nil => exact .nil
  | cons head _ ih => exact .cons head.heads ih

theorem Arms.heads {ids : List String} {bs : List Block} {next : Block}
    (h : Arms a (Keeps a (Leading a)) A s ids p bs next q) : List.Forall₂ a.Heads ids bs := by
  cases h with
  | apart none arms => exact arms.heads
  | meet two some arms rest => exact arms.heads

theorem Step.leading (hs : a.Sound) {b : Block} (hready : Ready a A s id p)
    (h : Step a (Keeps a (Leading a)) A s id p b q) : Leading a A s id p b q := by
  refine ⟨(h.mono fun _ _ _ _ _ _ hcall => ⟨hcall.1, hcall.2.1, hcall.2.2.1⟩).traced hs hready, ?_⟩
  cases h with
  | @loop L c b q opens mem entry head round config =>
    subst entry
    have hstart : Starts a A s p L := ⟨mem, hready, opens, head⟩
    cases round with
    | mk round behind =>
      refine .inr ⟨by rw [Accepted.first?, get?_eq_some hs mem, Option.map_some], ?_⟩
      rw [Block.owned, ← List.cons_append]
      exact List.mem_append_left _ (hstart.entry_mem hs round.2.1)
  | seq opens plain behind kind => exact .inr ⟨rfl, List.mem_cons_self⟩
  | branch opens plain kind links labels arms => exact .inr ⟨rfl, List.mem_cons_self⟩
  | fan opens plain kind arms behind => exact .inr ⟨rfl, List.mem_cons_self⟩
  | _ => exact .inl ⟨rfl, rfl⟩

/-! ### Arms -/

theorem Behind.headed {ids : List String} {bs : List Block} {next : Block}
    (h : Behind a (Keeps a (Leading a)) A s ids p (.fork bs next) q) : ∃ ts : List String,
      ts.Nodup ∧ (∀ t, t ∈ ts ↔ t ∈ ids) ∧ List.Forall₂ a.Heads ts bs := by
  cases h with
  | one only call =>
    -- no call returns a fork
    obtain ⟨-, hleaf⟩ | ⟨hfirst, -⟩ := call.2.2.2
    · simp [Block.children] at hleaf
    · simp [Accepted.first?, Block.owner?] at hfirst
  | several nodup all arms => exact ⟨_, nodup, all, arms.heads⟩

theorem forall₂_zip_map {α β γ : Type} {R : α → β → Prop} {l : List α} {bs : List β} (g : α → γ)
    (h : List.Forall₂ R l bs) :
    List.Forall₂ (fun x arm => arm.1 = g x ∧ R x arm.2) l ((l.map g).zip bs) := by
  induction h with
  | nil => exact .nil
  | cons hx _ ih => exact .cons ⟨rfl, hx⟩ ih

theorem Step.headed {b : Block} (h : Step a (Keeps a (Leading a)) A s id p b q) : b.Headed a := by
  cases h with
  | loop opens mem entry head round config =>
    cases round
    trivial
  | @seq next q opens plain behind kind =>
    cases next with
    | fork bs next =>
      obtain ⟨ts, hnodup, hts, hheads⟩ := behind.headed
      refine ⟨ts, hnodup, fun t => (hts t).trans ?_, hheads⟩
      simp only [List.mem_map, mem_outByTarget, Graph.mem_outgoing]
    | _ => trivial
  | @branch c t f onTrue onFalse next q opens plain kind links labels arms =>
    obtain ⟨htrue, hrest⟩ := List.forall₂_cons.mp arms.heads
    exact ⟨t, f, links, labels.1, labels.2, htrue, (List.forall₂_cons.mp hrest).1⟩
  | fan opens plain kind arms behind =>
    exact forall₂_zip_map _ (List.forall₂_map_left_iff.mp arms.heads)
  | _ => trivial

end Plan

/-- In the plan of an accepted workflow every arm of a condition, of a parallel node and of a fork
holds only nodes that its first node leads to by forward links.  That is the target of the link for
the outcome or in the slot, or one of the nodes at which the fork divides. -/
theorem arms_headed {w : Workflow} {a : Accepted} (h : check w = .ok a) :
    ∀ c ∈ a.plan.block.parts, c.Headed a := by
  have hs := Check.sound_of_check h
  exact Plan.plan_parts_of_arms hs (Plan.Leading a) (Block.Headed a)
    (fun _ _ _ _ _ _ hready _ hstep => hstep.leading hs hready)
    (fun _ _ _ _ _ _ _ _ hstep => hstep.headed) trivial
    fun _ _ ts _ _ _ _ hnodup harms => ⟨ts, hnodup, harms.heads⟩

/-- A trip is booked when an offer was chosen and the way to travel is settled. -/
def tripFlow : Workflow where
  nodes :=
    [ { id := "start", config := .trigger {} },
      { id := "offer", config := .agent { prompt := "offer" } },
      { id := "choose", config := .feedbackLoop { maxIterations := 3, stopCondition := "good" } },
      { id := "urgent", config := .condition { expression := "days < 2" } },
      { id := "fly", config := .agent { prompt := "fly" } },
      { id := "drive", config := .agent { prompt := "drive" } },
      { id := "book", config := .agent { prompt := "book" } } ]
  edges :=
    [ { id := "e1", source := "start", target := "offer" },
      { id := "e2", source := "start", target := "urgent" },
      { id := "e3", source := "offer", target := "choose" },
      { id := "e4", source := "choose", target := "offer" },
      { id := "e5", source := "choose", target := "book" },
      { id := "e6", source := "urgent", target := "fly", branch := some true },
      { id := "e7", source := "urgent", target := "drive", branch := some false },
      { id := "e8", source := "fly", target := "book" },
      { id := "e9", source := "drive", target := "book" } ]

/-- The choice is a loop that is run by its head, and still the offer heads the arm. -/
theorem arms_headed_tripFlow : ∃ a, check tripFlow = .ok a ∧
    ∃ arms next, .fork arms next ∈ a.plan.block.parts ∧
      arms.map Block.owned = [["choose", "offer"], ["urgent", "fly", "drive"]] ∧
      List.Forall₂ a.Heads ["offer", "urgent"] arms := by
  obtain ⟨a, ha, c, hc, hnone, howned, hfirst⟩ : ∃ a, check tripFlow = .ok a ∧
      ∃ c ∈ a.plan.block.parts, c.owner? = none ∧
        c.children.dropLast.map Block.owned = [["choose", "offer"], ["urgent", "fly", "drive"]] ∧
        c.children.dropLast.map a.first? = ["offer", "urgent"].map some :=
    exists_check_ok (by decide +kernel)
  have hheaded := arms_headed ha c hc
  cases c with
  | fork arms next =>
    rw [Block.children, List.dropLast_concat] at howned hfirst
    obtain ⟨ts, -, hheads⟩ := hheaded
    have hts := Accepted.map_first?_of_heads hheads (by rw [howned]; decide)
    have hinj : Function.Injective (some : String → Option String) := fun _ _ => Option.some.inj
    rw [← hinj.list_map (hfirst.symm.trans hts)] at hheads
    exact ⟨a, ha, arms, next, hc, howned, hheads⟩
  | _ => simp_all [Block.owner?, Block.children]

end Flowscript
