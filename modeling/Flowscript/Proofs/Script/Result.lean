/-
The values of arms and of loop bodies.

The value of a tree is that of the last node on its main path, and an arm of a parallel node gives it
back, as the body of a loop does.  So that node has to be run there, and not only under a condition.

* `tail?_eq_none_iff`, `mem_owned_of_tail?` — a tree has a last node if it runs any node, and it is one
  of those that it runs;
* `Settles` — lines that assign to a variable outside all brackets that they open;
* `settles_blockPiece` — a tree assigns to the variable of its last node, unless the block of that node
  is passed over;
* `arms_return_assigned` — what the arms of parallel nodes and the bodies of loops give.
-/
import Flowscript.Proofs.Plan.Race
import Flowscript.Proofs.Script.Assign
import Flowscript.Proofs.Script.Bracket

namespace Flowscript

open Text

/-! ### Last nodes -/

namespace Block

theorem lastTail?_eq_none_iff {bs : List Block} :
    lastTail? bs = none ↔ ∀ b ∈ bs, b.tail? = none := by
  induction bs with
  | nil => simp [lastTail?]
  | cons b bs ih => rw [lastTail?, Option.or_eq_none_iff, ih, List.forall_mem_cons, and_comm]

theorem exists_of_lastTail? {bs : List Block} {id : String} (h : lastTail? bs = some id) :
    ∃ b ∈ bs, b.tail? = some id := by
  induction bs with
  | nil => exact absurd h (Option.some_ne_none id).symm
  | cons b bs ih =>
    rw [lastTail?, Option.or_eq_some_iff] at h
    rcases h with h | ⟨-, h⟩
    · obtain ⟨d, hd, htail⟩ := ih h
      exact ⟨d, List.mem_cons_of_mem b hd, htail⟩
    · exact ⟨b, List.mem_cons_self, h⟩

/-- A tree has no last node exactly when it runs nothing. -/
theorem tail?_eq_none_iff (b : Block) : b.tail? = none ↔ b.owned = [] := by
  induction b using holds_of_parts with
  | seq | branch | fan | loop => simp [tail?, owned]
  | fork arms next ihArms ihNext =>
    rw [tail?, owned, Option.or_eq_none_iff, lastTail?_eq_none_iff, List.append_eq_nil_iff,
      ownedList_eq, List.flatMap_eq_nil_iff, ihNext, and_comm]
    exact and_congr_left' (forall₂_congr ihArms)
  | visited | done => simp [tail?, owned]

/-- The last node is run. -/
theorem mem_owned_of_tail? {b : Block} {id : String} (h : b.tail? = some id) : id ∈ b.owned := by
  induction b using holds_of_parts with
  | seq node next ih | branch node onTrue onFalse next _ _ ih | fan node arms merge next _ ih
  | loop node body _ _ next _ ih =>
    rw [tail?, Option.or_eq_some_iff] at h
    rw [mem_owned_iff]
    rcases h with h | ⟨-, h⟩
    · exact .inr ⟨next, by simp [children], ih h⟩
    · exact .inl h
  | fork arms next ihArms ihNext =>
    rw [tail?, Option.or_eq_some_iff] at h
    rw [mem_owned_iff]
    rcases h with h | ⟨-, h⟩
    · exact .inr ⟨next, by simp [children], ihNext h⟩
    · obtain ⟨d, hd, htail⟩ := exists_of_lastTail? h
      exact .inr ⟨d, List.mem_append_left _ hd, ihArms d hd htail⟩
  | visited | done => exact absurd h (Option.some_ne_none id).symm

end Block

namespace Script

/-! ### Lines that settle a variable -/

/-- A line of a program that assigns to a variable. -/
def Line.Assigns (v : String) : Line → Prop
  | .plain text => Script.Assigns v text.toList
  | .opening text => Script.Assigns v text.toList
  | _ => False

/-- One of the lines assigns to a variable, and the lines in front of it have closed all brackets that
they opened. -/
def Settles (v : String) (ls : List Line) : Prop :=
  ∃ front l back, ls = front ++ l :: back ∧ l.Assigns v ∧ ∀ depth, levelAfter depth front = depth

namespace Settles

variable {v : String} {ls ls' : List Line}

theorem head {l : Line} (h : l.Assigns v) (ls : List Line) : Settles v (l :: ls) :=
  ⟨[], l, ls, rfl, h, fun _ => rfl⟩

theorem append_right (h : Settles v ls) (ls' : List Line) : Settles v (ls ++ ls') := by
  obtain ⟨front, l, back, rfl, hl, hfront⟩ := h
  exact ⟨front, l, back ++ ls', by rw [List.append_assoc, List.cons_append], hl, hfront⟩

theorem append_left {guards : String → Prop} (hls : Nested guards ls) (h : Settles v ls') :
    Settles v (ls ++ ls') := by
  obtain ⟨front, l, back, rfl, hl, hfront⟩ := h
  refine ⟨ls ++ front, l, back, by rw [List.append_assoc], hl, fun depth => ?_⟩
  rw [levelAfter_append, hls.levelAfter_eq, hfront]

theorem after_flat (hls : ∀ l ∈ ls, l.isFlat = true) (h : Settles v ls') :
    Settles v (ls ++ ls') := by
  have hnested : Nested (fun _ => True) ls := .of_flat hls
  exact .append_left hnested h

end Settles

/-! ### Single nodes -/

section Context

variable (c : Context)

theorem settles_callPiece (id method : String) (properties : Piece) :
    Settles (c.variableOf id) (callPiece c id method properties).lines := by
  have hopen : Assigns (c.variableOf id)
      (c.variableOf id ++ " = await runtime." ++ method ++ "(\x7b").toList :=
    ((assigns_append _ (by decide)).append _).append _
  exact .head (l := .opening _) hopen _

/-- The statement of a node assigns to its variable. -/
theorem settles_nodePiece (n : Node) : Settles (c.variableOf n.id) (nodePiece c n).lines := by
  rw [nodePiece]
  split
  · rename_i config _
    have hflat := flat_triggerPiece c n.id config
    rw [triggerPiece, Piece.flat_ofLines, List.forall_mem_append] at hflat
    exact .after_flat hflat.1 (.head (l := .plain _) (assigns_append _ (by decide)) [])
  · exact settles_callPiece c n.id _ _
  · exact settles_callPiece c n.id _ _
  · exact settles_callPiece c n.id _ _
  · exact settles_callPiece c n.id _ _
  · exact .head (l := .plain _) (assigns_append _ (by decide)) []

/-! ### Blocks -/

theorem settles_branchPiece {id : String} (h : (c.accepted.node? id).isSome = true)
    (noTrue noFalse : Bool) (p q : Piece) :
    Settles (c.variableOf id) (branchPiece c id noTrue noFalse p q).lines := by
  obtain ⟨n, hn⟩ := Option.isSome_iff_exists.mp h
  rw [branchPiece, hn]
  have hassigns := ((assigns_append (c.variableOf id) (by decide :
    " = ".toList <+: " = \x7b output: Boolean(".toList)).append
      (expressionValue ((c.resolver id).resolve (conditionOf n).expression))).append ") \x7d;"
  exact .append_right (.after_flat (flat_heading c n) (.head (l := .plain _) hassigns [])) _

theorem settles_fanPiece (id : String) (merge : Merge) (arms : List Piece) :
    Settles (c.variableOf id) (fanPiece c id merge arms).lines := by
  rcases hwords : mergeWords merge with ⟨combine, nothing⟩
  rw [fanPiece, hwords]
  refine .after_flat (flat_headingOf c id) ?_
  split
  · exact .head (l := .plain _) (((assigns_append _ (by decide)).append _).append _) []
  · exact .head (l := .opening _) (assigns_append _ (by decide)) _

theorem settles_loopPiece (id : String) (body : Block) (maxIterations : Nat)
    (stopCondition : String) (inner : Piece) :
    Settles (c.variableOf id) (loopPiece c id body maxIterations stopCondition inner).lines := by
  have hstart : Settles (c.variableOf id) ((headingOf c id).lines ++
      [ .plain (c.variableOf id ++ " = \x7b output: undefined, iterations: 0 \x7d;"),
        openBrace ("for (let i = 0; i < " ++ toString maxIterations ++ "; i++)") ]) :=
    .after_flat (flat_headingOf c id) (.head (l := .plain _) (assigns_append _ (by decide)) _)
  exact (((hstart.append_right _).append_right _).append_right _).append_right _

end Context

/-- A block that is not passed over: a condition, or a node that steers nothing, has to be known.
Parallel nodes and loops are written in any case. -/
def Context.Emits (c : Context) : Block → Prop
  | .seq id _ => (c.accepted.node? id).isSome = true
  | .branch id _ _ _ => (c.accepted.node? id).isSome = true
  | _ => True

/-- The block of the last node is not passed over. -/
def Context.Reaches (c : Context) (b : Block) : Prop :=
  ∀ id, b.tail? = some id → ∀ d ∈ b.parts, d.owner? = some id → c.Emits d

/-- The last node is that of what follows, if anything is run there, and otherwise the own one. -/
theorem Settles.of_or {guards : String → Prop} {own next : Option String} {p q : Piece}
    {id v : String} (h : next.or own = some id) (hp : p.Nested guards)
    (hown : own = some id → Settles v p.lines) (hnext : next = some id → Settles v q.lines) :
    Settles v (p ++ q).lines := by
  rw [Option.or_eq_some_iff] at h
  rcases h with h | ⟨-, h⟩
  · exact .append_left hp (hnext h)
  · exact .append_right (hown h) _

section Worded

variable {c : Context} (hc : c.Worded)
include hc

theorem nested_any (b : Block) : (blockPiece c b).Nested fun _ => True :=
  nested_blockPiece hc b fun _ _ => trivial

theorem settles_listPiece {bs : List Block} {id : String} (h : Block.lastTail? bs = some id)
    (hbs : ∀ b ∈ bs, b.tail? = some id → Settles (c.variableOf id) (blockPiece c b).lines) :
    Settles (c.variableOf id) (listPiece c bs).lines := by
  induction bs with
  | nil => exact absurd h (Option.some_ne_none id).symm
  | cons b bs ih =>
    obtain ⟨hb, hmore⟩ := List.forall_mem_cons.mp hbs
    rw [listPiece]
    exact .of_or h (nested_any hc b) hb fun h => ih h hmore

/-- A tree assigns to the variable of its last node, at the level at which it begins. -/
theorem settles_blockPiece (b : Block) {id : String} (htail : b.tail? = some id)
    (h : ∀ d ∈ b.parts, d.owner? = some id → c.Emits d) :
    Settles (c.variableOf id) (blockPiece c b).lines := by
  induction b using Block.holds_of_children with
  | h b ih =>
    have hinside : ∀ d ∈ b.children, d.tail? = some id →
        Settles (c.variableOf id) (blockPiece c d).lines :=
      fun d hd hdtail => ih d hd hdtail fun e he =>
        h e (Block.mem_parts_iff.mpr (.inr ⟨d, hd, he⟩))
    have hself := h b (Block.mem_parts_self b)
    -- the arms of a condition or a parallel node and the body of a loop are never on the main path, so
    -- of these only the level at which they end is needed
    cases b with
    | seq node next =>
      have hnext := hinside next (by simp [Block.children])
      rw [blockPiece]
      refine .of_or htail (?_ : Piece.Nested (fun _ => True) _) (fun hown => ?_) hnext
      · split
        · exact (Script.Nested.of_flat (flat_heading c _)).append (nested_nodePiece hc _)
        · exact .nil
      · obtain rfl := Option.some.inj hown
        obtain ⟨n, hn⟩ := Option.isSome_iff_exists.mp (hself rfl)
        obtain ⟨-, rfl⟩ := Workflow.node?_eq_some hn
        rw [hn]
        exact .after_flat (flat_heading c n) (settles_nodePiece c n)
    | branch node onTrue onFalse next =>
      have hnext := hinside next (by simp [Block.children])
      rw [blockPiece]
      refine .of_or htail (nested_branchPiece hc node _ _ (nested_any hc onTrue)
        (nested_any hc onFalse)) (fun hown => ?_) hnext
      obtain rfl := Option.some.inj hown
      exact settles_branchPiece c (hself rfl) _ _ _ _
    | fan node arms merge next =>
      have hnext := hinside next (by simp [Block.children])
      rw [blockPiece]
      refine .of_or htail (nested_fanPiece hc node merge
        (nested_armPieces fun d _ => nested_any hc d)) (fun hown => ?_) hnext
      obtain rfl := Option.some.inj hown
      exact settles_fanPiece c node merge _
    | loop node body maxIterations stopCondition next =>
      have hnext := hinside next (by simp [Block.children])
      rw [blockPiece]
      refine .of_or htail (nested_loopPiece node body maxIterations stopCondition
        (nested_any hc body) trivial) (fun hown => ?_) hnext
      obtain rfl := Option.some.inj hown
      exact settles_loopPiece c node body maxIterations stopCondition _
    | fork arms next =>
      have hnext := hinside next (by simp [Block.children])
      rw [blockPiece]
      exact .of_or htail (nested_listPiece fun d _ => nested_any hc d)
        (fun hlast => settles_listPiece hc hlast fun d hd => hinside d (List.mem_append_left _ hd))
        hnext
    | visited | done => exact absurd htail (Option.some_ne_none id).symm

end Worded

/-! ### Arms and bodies -/

/-- A piece of program is a function that gives the variable of the last node of a tree, one that the
tree runs, when it has run some lines. -/
structure Context.Closure (c : Context) (b : Block) (piece : Piece) (id : String)
    (inner : List Line) : Prop where
  tail : b.tail? = some id
  owned : id ∈ b.owned
  lines : piece.lines = .opening "(async () => \x7b" ::
    (inner ++ [.plain ("return " ++ c.variableOf id ++ ";"), .closing "\x7d)(),"])

theorem exists_tail {b : Block} (h : b.owned ≠ []) : ∃ id, b.tail? = some id :=
  Option.ne_none_iff_exists'.mp (mt (Block.tail?_eq_none_iff b).mp h)

theorem exists_lines_loopPiece (c : Context) (node : String) {body : Block} {id : String}
    (htail : body.tail? = some id) (maxIterations : Nat) (stopCondition : String) (inner : Piece) :
    ∃ front back, (loopPiece c node body maxIterations stopCondition inner).lines =
      front ++ inner.lines ++ .plain (c.variableOf node ++ ".iterations = i + 1;") ::
        .plain (c.variableOf node ++ ".output = " ++ c.variableOf id ++ ";") :: back := by
  rw [loopPiece, htail]
  exact ⟨_, _, (List.append_assoc _ _ _).trans (List.append_assoc _ _ _)⟩

section Worded

variable {c : Context} (hc : c.Worded)
include hc

theorem exists_closure (slot : String) {b : Block} (h : b.owned ≠ []) :
    ∃ id inner, c.Closure b (armPiece c slot b (blockPiece c b)) id inner ∧
      (c.Reaches b → Settles (c.variableOf id) inner) := by
  obtain ⟨id, htail⟩ := exists_tail h
  refine ⟨id, c.comment ("slot: " ++ slot) ++ (blockPiece c b).lines,
    ⟨htail, Block.mem_owned_of_tail? htail, ?_⟩, fun hreaches => ?_⟩
  · simp only [armPiece, htail, optionalLine, Option.toList_some, List.map_cons, List.map_nil,
      Piece.lines_append, Piece.lines_ofLines, List.append_assoc, List.cons_append, List.nil_append]
  · exact .after_flat (flat_comment c _) (settles_blockPiece hc b htail (hreaches id htail))

theorem forall₂_closure (arms : List (String × Block)) :
    List.Forall₂ (fun arm piece => ∃ id inner, c.Closure arm.2 piece id inner ∧
        (c.Reaches arm.2 → Settles (c.variableOf id) inner))
      (arms.filter fun arm => !arm.2.owned.isEmpty) (armPieces c arms) := by
  induction arms with
  | nil =>
    rw [armPieces]
    exact .nil
  | cons arm arms ih =>
    obtain ⟨slot, b⟩ := arm
    rw [armPieces]
    split
    · rename_i hnone
      rw [List.filter_cons_of_neg (by simp [hnone])]
      exact ih
    · rename_i hsome
      rw [List.filter_cons_of_pos (by simp [hsome])]
      exact .cons (exists_closure hc slot fun hnil => hsome (by rw [hnil]; rfl)) ih

theorem exists_body (node : String) {body : Block} (maxIterations : Nat) (stopCondition : String)
    (h : body.owned ≠ []) : ∃ id ∈ body.owned, body.tail? = some id ∧ ∃ front back,
      (loopPiece c node body maxIterations stopCondition (blockPiece c body)).lines =
        front ++ (blockPiece c body).lines ++
          .plain (c.variableOf node ++ ".iterations = i + 1;") ::
          .plain (c.variableOf node ++ ".output = " ++ c.variableOf id ++ ";") :: back ∧
      (c.Reaches body → Settles (c.variableOf id) (blockPiece c body).lines) := by
  obtain ⟨id, htail⟩ := exists_tail h
  obtain ⟨front, back, hlines⟩ :=
    exists_lines_loopPiece c node htail maxIterations stopCondition (blockPiece c body)
  exact ⟨id, Block.mem_owned_of_tail? htail, htail, front, back, hlines,
    fun hreaches => settles_blockPiece hc body htail (hreaches id htail)⟩

end Worded

end Script

open Script

/-- No block of a plan is passed over. -/
theorem emits_of_plan {w : Workflow} {a : Accepted} (h : check w = .ok a) (options : Options) :
    ∀ d ∈ a.plan.block.parts, Context.Emits ⟨a, Names.ofWorkflow a.workflow, options⟩ d := by
  intro d hd
  cases d with
  | seq id next => exact Option.isSome_iff_exists.mpr (exists_node_of_plan h hd rfl)
  | branch id onTrue onFalse next =>
    exact Option.isSome_iff_exists.mpr (exists_node_of_plan h hd rfl)
  | _ => exact trivial

/-- A tree has a last node exactly when it runs any node, and runs that node itself.  So every arm of a
parallel node that is kept is a function that gives the variable of a node of the arm, and so does
every body of a loop that runs anything.  The variable is assigned in front, and not under a condition
or inside another function, unless the block of the node is passed over because the workflow does not
have the node; in the plan of an accepted workflow none is. -/
theorem arms_return_assigned {w : Workflow} {a : Accepted} (h : check w = .ok a)
    (options : Options) :
    let c : Context := ⟨a, Names.ofWorkflow a.workflow, options⟩
    (∀ b : Block, (b.tail?.isSome = true ↔ b.owned ≠ []) ∧ ∀ id, b.tail? = some id → id ∈ b.owned) ∧
    (∀ arms : List (String × Block),
      List.Forall₂ (fun arm piece => ∃ id inner, c.Closure arm.2 piece id inner ∧
          (c.Reaches arm.2 → Settles (c.variableOf id) inner))
        (arms.filter fun arm => !arm.2.owned.isEmpty) (armPieces c arms)) ∧
    (∀ node (body : Block) maxIterations stopCondition, body.owned ≠ [] →
      ∃ id ∈ body.owned, body.tail? = some id ∧ ∃ front back,
        (loopPiece c node body maxIterations stopCondition (blockPiece c body)).lines =
          front ++ (blockPiece c body).lines ++
            .plain (c.variableOf node ++ ".iterations = i + 1;") ::
            .plain (c.variableOf node ++ ".output = " ++ c.variableOf id ++ ";") :: back ∧
        (c.Reaches body → Settles (c.variableOf id) (blockPiece c body).lines)) ∧
    ∀ d ∈ a.plan.block.parts, c.Reaches d := by
  intro c
  have hc : c.Worded := Names.isIdentChar_variableOf a.workflow
  refine ⟨fun b => ⟨?_, fun id => Block.mem_owned_of_tail?⟩, forall₂_closure hc,
    fun node body maxIterations stopCondition => exists_body hc node maxIterations stopCondition,
    fun d hd id _ e he _ => emits_of_plan h options e (Block.parts_trans hd he)⟩
  rw [Option.isSome_iff_ne_none, ne_eq, Block.tail?_eq_none_iff]

/-- A release is tested and logged at the same time, and announced when it is logged; one of the slots
leads straight to the announcement. -/
def releaseFlow : Workflow where
  nodes :=
    [ { id := "start", config := .trigger {} },
      { id := "split", config := .parallel {} },
      { id := "test", config := .agent { prompt := "test" } },
      { id := "passed", config := .condition { expression := "\x7b\x7btest\x7d\x7d" } },
      { id := "praise", config := .agent { prompt := "praise" } },
      { id := "repair", config := .agent { prompt := "repair" } },
      { id := "log", config := .agent { prompt := "log" } },
      { id := "announce", config := .agent { prompt := "announce" } } ]
  edges :=
    [ { id := "e1", source := "start", target := "split" },
      { id := "e2", source := "split", target := "test", slot := some "test" },
      { id := "e3", source := "test", target := "passed" },
      { id := "e4", source := "passed", target := "praise", branch := some true },
      { id := "e5", source := "passed", target := "repair", branch := some false },
      { id := "e6", source := "split", target := "log", slot := some "log" },
      { id := "e7", source := "log", target := "announce" },
      { id := "e8", source := "split", target := "announce", slot := some "now" } ]

/-- The slot with nothing to run is left out.  The test gives the variable of the condition, and not
that of one of the two nodes behind it. -/
theorem arms_return_assigned_releaseFlow : ∃ a, check releaseFlow = .ok a ∧
    ∃ node arms merge next, .fan node arms merge next ∈ a.plan.block.parts ∧
      (arms.map Prod.snd).map Block.tail? = [some "log", none, some "passed"] ∧
      let c : Context := ⟨a, Names.ofWorkflow a.workflow, {}⟩
      List.Forall₂ (fun arm piece => ∃ id inner, c.Closure arm.2 piece id inner ∧
          Settles (c.variableOf id) inner)
        (arms.filter fun arm => !arm.2.owned.isEmpty) (armPieces c arms) := by
  obtain ⟨a, ha, d, hd, hmerge, htails⟩ : ∃ a, check releaseFlow = .ok a ∧
      ∃ d ∈ a.plan.block.parts, d.merge? = some .all ∧
        d.arms.map Block.tail? = [some "log", none, some "passed"] :=
    exists_check_ok (by decide +kernel)
  obtain ⟨-, hclosures, -, hreaches⟩ := arms_return_assigned ha {}
  cases d with
  | fan node arms merge next =>
    have harms : ∀ arm ∈ arms.filter fun arm => !arm.2.owned.isEmpty,
        Context.Reaches ⟨a, Names.ofWorkflow a.workflow, {}⟩ arm.2 := by
      intro arm harm
      have hchild : arm.2 ∈ (Block.fan node arms merge next).children :=
        List.mem_append_left _ (List.mem_map_of_mem (List.mem_of_mem_filter harm))
      exact hreaches _ (Block.parts_trans hd
        (Block.mem_parts_iff.mpr (.inr ⟨arm.2, hchild, Block.mem_parts_self _⟩)))
    refine ⟨a, ha, node, arms, merge, next, hd, htails, ?_⟩
    refine List.Forall₂.imp ?_ ((List.forall₂_and_left _ _).mpr ⟨harms, hclosures arms⟩)
    rintro arm piece ⟨harm, id, inner, hclosure, hsettles⟩
    exact ⟨id, inner, hclosure, hsettles harm⟩
  | _ => simp [Block.merge?] at hmerge

/-- A tree need not come from the workflow.  An arm that runs only a node which the workflow does not
have is kept, gives the variable of that node, and assigns to it nowhere. -/
theorem exists_arm_returns_unassigned : ∃ a, check releaseFlow = .ok a ∧
    let c : Context := ⟨a, Names.ofWorkflow a.workflow, {}⟩
    ¬∀ arms : List (String × Block),
      List.Forall₂ (fun arm piece => ∃ id inner, c.Closure arm.2 piece id inner ∧
          ∃ l ∈ inner, l.Assigns (c.variableOf id))
        (arms.filter fun arm => !arm.2.owned.isEmpty) (armPieces c arms) := by
  obtain ⟨a, ha, hghost⟩ : ∃ a, check releaseFlow = .ok a ∧
      (a.node? "ghost").isNone = true := exists_check_ok (by decide +kernel)
  refine ⟨a, ha, fun hall => ?_⟩
  have harm := hall [("log", .seq "ghost" .done)]
  rw [Option.isNone_iff_eq_none] at hghost
  rw [armPieces, armPieces, blockPiece, blockPiece, hghost] at harm
  obtain ⟨⟨id, inner, hclosure, l, hl, hassigns⟩, -⟩ := List.forall₂_cons.mp harm
  obtain rfl : "ghost" = id := Option.some.inj hclosure.tail
  -- all that stands in front of the last two lines is the name of the slot
  have hinner : [Line.comment "slot: log"] = inner :=
    List.append_cancel_right (List.cons.inj hclosure.lines).2
  rw [← hinner, List.mem_singleton] at hl
  rw [hl] at hassigns
  exact hassigns

end Flowscript
