/-
Which races are reported.

If a parallel node goes on with its first arm, a node behind it that an arm feeds may run while
other arms are still running.  The planner reports such nodes among those that two links of the
parallel node lead to, but it looks past no node at which it stops for a block further out:

* `Accepted.StopsAt` — the nodes at which the arms of a block stop;
* `Accepted.Shares` — what two links of a parallel node lead to, given the stops;
* `Noted` — the notes that a part of the plan adds are the races of its parallel nodes;
* `race_reported_iff` — a race is reported exactly if an arm feeds the node and the links share it
  past the stops of the blocks around, as they do all that is run behind the arms;
* `order_not_reported` — a node at which the arms of a condition meet is fed by a race, and not
  reported.
-/
import Flowscript.Proofs.Plan.Headed

namespace Flowscript

namespace Block

/-- The blocks that a block runs before what comes behind it: its arms, or the body of a loop. -/
def arms : Block → List Block
  | .branch _ onTrue onFalse _ => [onTrue, onFalse]
  | .fan _ arms _ _ => arms.map Prod.snd
  | .loop _ body _ _ _ => [body]
  | .fork arms _ => arms
  | _ => []

/-- How the results of arms are put together. -/
def merge? : Block → Option Merge
  | .fan _ _ merge _ => some merge
  | _ => none

end Block

namespace Accepted

/-- The first node in the order that all of some nodes lead to past the stops. -/
structure Meets (a : Accepted) (stops ts : List String) (m : String) : Prop where
  led : ∀ t ∈ ts, Plan.Led a { reserved := stops } t m
  first : ∃ earlier later, a.order = earlier ++ m :: later ∧
    ∀ v ∈ earlier, ∃ t ∈ ts, ¬Plan.Led a { reserved := stops } t v

theorem Meets.congr {a : Accepted} {stops ts us : List String} {m : String}
    (h : a.Meets stops ts m) (heq : ∀ u, u ∈ us ↔ u ∈ ts) : a.Meets stops us m := by
  obtain ⟨hled, earlier, later, horder, hearlier⟩ := h
  refine ⟨fun u hu => hled u ((heq u).mp hu), earlier, later, horder, fun v hv => ?_⟩
  obtain ⟨t, ht, hnot⟩ := hearlier v hv
  exact ⟨t, (heq t).mpr ht, hnot⟩

/-- Two links of a parallel node lead to the node past the stops, of which it is none. -/
def Shares (a : Accepted) (stops : List String) (node y : String) : Prop :=
  y ∉ stops ∧ ∃ l m, [l, m].Sublist (Plan.outBySlot a node) ∧
    Plan.Led a { reserved := stops } l.target y ∧ Plan.Led a { reserved := stops } m.target y

/-- A node at which the arms of a block stop, if there are stops for the block itself: where the
outcomes of a condition meet, or the nodes at which a fork divides, or what the links of a parallel
node share; the body of a loop stops at the head. -/
def StopsAt (a : Accepted) (stops : List String) (y : String) : Block → Prop
  | .branch node _ _ _ => a.Meets stops ((a.graph.outgoing node).map Link.target) y
  | .fan node _ _ _ => a.Shares stops node y
  | .loop node _ _ _ _ => y = node
  | .fork arms _ => ∃ ts : List String, ts.Nodup ∧ 1 < ts.length ∧ List.Forall₂ a.Heads ts arms ∧
    a.Meets stops ts y
  | _ => False

/-- A link leads from a node of one of the blocks to the node. -/
def Fed (a : Accepted) (arms : List Block) (x : String) : Prop :=
  ∃ l ∈ a.graph.links, l.target = x ∧ ∃ b ∈ arms, l.source ∈ b.owned

instance (a : Accepted) (arms : List Block) (x : String) : Decidable (a.Fed arms x) :=
  inferInstanceAs (Decidable (∃ l ∈ a.graph.links, l.target = x ∧ ∃ b ∈ arms, l.source ∈ b.owned))

/-- A race that a block brings about: two arms of a parallel node that goes on with the first of
them have nodes. -/
def Reports (a : Accepted) (stops : List String) (x : String) : Block → Prop
  | .fan node arms merge _ => merge = .first ∧
    1 < (arms.map Prod.snd).countP (fun b => b.owned ≠ []) ∧
    a.Shares stops node x ∧ a.Fed (arms.map Prod.snd) x
  | _ => False

/-- The links of a parallel node share all that is run behind its arms. -/
def Covers (a : Accepted) (stops : List String) : Block → Prop
  | .fan node _ _ next => ∀ x ∈ next.owned, a.Shares stops node x
  | _ => True

/-- The block is inside an arm that stops at the node, for some of the stops. -/
def Held (a : Accepted) (stops : List String) (b c : Block) (y : String) : Prop :=
  ∃ e ∈ b.parts, ∃ d ∈ e.arms, c ∈ d.parts ∧ ∃ outer ⊆ stops, a.StopsAt outer y e

theorem Held.of_child {a : Accepted} {stops : List String} {b c d : Block} {y : String}
    (hd : d ∈ b.children) (h : a.Held stops d c y) : a.Held stops b c y := by
  obtain ⟨e, he, harm⟩ := h
  exact ⟨e, Block.mem_parts_iff.mpr (.inr ⟨d, hd, he⟩), harm⟩

end Accepted

namespace Plan

variable {a : Accepted} {A : List Loop} {s : Scope} {p p' q q' r : Progress} {id : String}

/-! ### Notes of a part of the plan -/

/-- What the blocks `bs`, planned with the stops `S`, have added to the notes. -/
structure Noted (a : Accepted) (S : List String) (p : Progress) (bs : List Block) (q : Progress) :
    Prop where
  old : p.notes ⊆ q.notes
  new : ∀ x n, .race x n ∈ q.notes → .race x n ∈ p.notes ∨ n ∈ Block.ownedList bs
  parts : ∀ b ∈ bs, ∀ c ∈ b.parts, ∀ n, c.owner? = some n → ∃ stops : List String,
    S ⊆ stops ∧ (∀ y ∈ stops, y ∈ S ∨ a.Held stops b c y) ∧
    (∀ x, .race x n ∈ q.notes ↔ .race x n ∈ p.notes ∨ a.Reports stops x c) ∧ a.Covers stops c

variable {S S' : List String} {bs : List Block} {b next : Block}

theorem mem_ownedList {v : String} : v ∈ Block.ownedList bs ↔ ∃ b ∈ bs, v ∈ b.owned := by
  rw [Block.ownedList_eq, List.mem_flatMap]

theorem mem_owned_of_part {c : Block} {n : String} (hc : c ∈ b.parts) (hn : c.owner? = some n) :
    n ∈ b.owned :=
  (Block.part_sublist b hc).subset (Block.mem_owned_iff.mpr (.inl hn))

/-- The notes about other nodes stay the same. -/
theorem Noted.iff_of_notMem (h : Noted a S p bs q) {n : String} (hn : n ∉ Block.ownedList bs)
    (x : String) : .race x n ∈ q.notes ↔ .race x n ∈ p.notes :=
  ⟨fun hx => (h.new x n hx).resolve_right hn, fun hx => h.old hx⟩

theorem Noted.nil : Noted a S p [] p :=
  ⟨List.Subset.refl _, fun _ _ h => .inl h, by simp⟩

/-- A block without children adds no race. -/
theorem Noted.leaf (hnone : b.owner? = none) (hleaf : b.children = []) (hold : p.notes ⊆ q.notes)
    (hnew : ∀ x n, .race x n ∈ q.notes → .race x n ∈ p.notes) : Noted a S p [b] q := by
  refine ⟨hold, fun x n h => .inl (hnew x n h), fun d hd c hc n hn => ?_⟩
  obtain rfl := List.mem_singleton.mp hd
  rw [Block.parts_eq, hleaf] at hc
  obtain rfl := List.mem_singleton.mp hc
  simp [hnone] at hn

theorem Noted.cons (hb : Noted a S p [b] q) (hbs : Noted a S q bs r)
    (hnodup : (b.owned ++ Block.ownedList bs).Nodup) : Noted a S p (b :: bs) r := by
  have hone : Block.ownedList [b] = b.owned := List.append_nil _
  obtain ⟨-, -, hdisjoint⟩ := List.nodup_append.mp hnodup
  refine ⟨List.Subset.trans hb.old hbs.old, fun x n h => ?_, fun d hd c hc n hn => ?_⟩
  · rw [Block.ownedList, List.mem_append]
    rcases hbs.new x n h with h | h
    · exact (hb.new x n h).imp_right fun h => .inl (hone ▸ h)
    · exact .inr (.inr h)
  · rcases List.mem_cons.mp hd with rfl | hd
    · obtain ⟨stops, hS, hheld, hraces, hcovers⟩ :=
        hb.parts d (List.mem_singleton_self d) c hc n hn
      refine ⟨stops, hS, hheld, fun x => ?_, hcovers⟩
      have hown := mem_owned_of_part hc hn
      rw [hbs.iff_of_notMem (fun h => hdisjoint n hown n h rfl), hraces]
    · obtain ⟨stops, hS, hheld, hraces, hcovers⟩ := hbs.parts d hd c hc n hn
      refine ⟨stops, hS, hheld, fun x => ?_, hcovers⟩
      have hown := mem_ownedList.mpr ⟨d, hd, mem_owned_of_part hc hn⟩
      rw [hraces, hb.iff_of_notMem (fun h => hdisjoint n (hone ▸ h) n hown rfl)]

/-- A block is noted if its arms are, with the nodes at which they stop, and what comes behind. -/
theorem Noted.block (hchildren : b.children = b.arms ++ [next]) (hnodup : b.owned.Nodup)
    (harms : Noted a S' p' b.arms q) (hnext : Noted a S q' [next] r) (hp : p'.notes = p.notes)
    (hmore : S ⊆ S') (hstops : ∀ y ∈ S', y ∈ S ∨ a.StopsAt S y b) (hold : q.notes ⊆ q'.notes)
    (htold : ∀ x n, .race x n ∈ q'.notes ↔
      .race x n ∈ q.notes ∨ b.owner? = some n ∧ a.Reports S x b)
    (hcovers : a.Covers S b) : Noted a S p [b] r := by
  have howned : b.owned =
      b.owner?.toList ++ (Block.ownedList b.arms ++ Block.ownedList [next]) := by
    rw [Block.owned_eq, hchildren, Block.ownedList_eq, Block.ownedList_eq, List.flatMap_append]
  rw [howned] at hnodup
  obtain ⟨-, hrest, hnode⟩ := List.nodup_append.mp hnodup
  obtain ⟨-, -, hapart⟩ := List.nodup_append.mp hrest
  -- the node of the block is in neither part, and no node is in both
  have hself : ∀ n, b.owner? = some n → n ∉ Block.ownedList b.arms ∧ n ∉ Block.ownedList [next] :=
    fun n hn => not_or.mp fun h =>
      hnode n (Option.mem_toList.mpr hn) n (List.mem_append.mpr h) rfl
  have hsame : ∀ n x, n ∈ Block.ownedList b.arms ∨ n ∈ Block.ownedList [next] →
      (.race x n ∈ q'.notes ↔ .race x n ∈ q.notes) := by
    intro n x hn
    rw [htold, or_iff_left fun h => not_or.mpr (hself n h.1) hn]
  refine ⟨?_, fun x n h => ?_, fun e he c hc n hn => ?_⟩
  · exact hp ▸ List.Subset.trans harms.old (List.Subset.trans hold hnext.old)
  · rw [show Block.ownedList [b] = b.owned from List.append_nil _, howned]
    simp only [List.mem_append, Option.mem_toList]
    rcases hnext.new x n h with h | h
    · rcases (htold x n).mp h with h | ⟨h, -⟩
      · exact (harms.new x n h).imp (fun h => hp ▸ h) fun h => .inr (.inl h)
      · exact .inr (.inl h)
    · exact .inr (.inr (.inr h))
  · obtain rfl : b = e := (List.mem_singleton.mp he).symm
    rcases Block.mem_parts_iff.mp hc with rfl | ⟨d, hd, hc⟩
    · obtain ⟨hfirst, hlast⟩ := hself n hn
      refine ⟨S, List.Subset.refl _, fun y hy => .inl hy, fun x => ?_, hcovers⟩
      rw [hnext.iff_of_notMem hlast, htold, harms.iff_of_notMem hfirst, hp, and_iff_right hn]
    · rcases List.mem_append.mp (hchildren ▸ hd) with harm | hlast
      · have hmem := mem_ownedList.mpr ⟨d, harm, mem_owned_of_part hc hn⟩
        obtain ⟨stops, hS', hheld, hraces, hcovers⟩ := harms.parts d harm c hc n hn
        have hS := List.Subset.trans hmore hS'
        refine ⟨stops, hS, fun y hy => ?_, fun x => ?_, hcovers⟩
        · rcases hheld y hy with hy | hy
          · exact (hstops y hy).imp_right fun hstop =>
              ⟨b, Block.mem_parts_self b, d, harm, hc, S, hS, hstop⟩
          · exact .inr (hy.of_child hd)
        · rw [hnext.iff_of_notMem (fun h => hapart n hmem n h rfl), hsame n x (.inl hmem), hraces,
            hp]
      · have hmem := mem_ownedList.mpr ⟨d, hlast, mem_owned_of_part hc hn⟩
        obtain ⟨stops, hS, hheld, hraces, hcovers⟩ := hnext.parts d hlast c hc n hn
        refine ⟨stops, hS, fun y hy => (hheld y hy).imp_right fun hy => hy.of_child hd,
          fun x => ?_, hcovers⟩
        rw [hraces, hsame n x (.inr hmem),
          harms.iff_of_notMem (fun h => hapart n h n hmem rfl), hp]

/-! ### Runs of calls -/

/-- A call plans what its node leads to, and notes the races in it. -/
def Racing (a : Accepted) : Call := fun A s id p b q =>
  Leading a A s id p b q ∧ Noted a s.reserved p [b] q

theorem Racing.leading (A : List Loop) (s : Scope) (id : String) (p : Progress) (b : Block)
    (q : Progress) (h : Keeps a (Racing a) A s id p b q) : Keeps a (Leading a) A s id p b q :=
  ⟨h.1, h.2.1, h.2.2.1⟩

theorem Each.noted {ids : List String} (h : Each (Keeps a (Racing a)) A s ids p bs q)
    (hp : p.Fits a A) : Noted a s.reserved p bs q := by
  induction h with
  | nil => exact .nil
  | cons head tail ih =>
    have hfits := head.2.1.grown.fits
    exact head.2.2.2.cons (ih hfits) (head.2.1.grown.trans (tail.grown hfits)).nodup

/-- Arms are noted with the node at which they meet, and what comes behind without it. -/
theorem Arms.noted {ids : List String} (h : Arms a (Keeps a (Racing a)) A s ids p bs next r)
    (hp : p.Fits a A) : ∃ S' q, Noted a S' p bs q ∧ Noted a s.reserved q [next] r ∧
      s.reserved ⊆ S' ∧ ∀ y ∈ S', y ∈ s.reserved ∨ 1 < ids.length ∧ a.Meets s.reserved ids y := by
  cases h with
  | apart none arms =>
    exact ⟨_, _, arms.noted hp, .leaf rfl rfl (List.Subset.refl _) (fun _ _ h => h),
      List.Subset.refl _, fun y hy => .inl hy⟩
  | @meet m bs mid next r two some arms rest =>
    refine ⟨_, _, arms.noted hp, rest.2.2.2, List.subset_append_left _ _,
      fun y hy => (List.mem_append.mp hy).imp_right fun hy => ⟨two, ?_⟩⟩
    rw [List.mem_singleton.mp hy]
    obtain ⟨hled, hfirst⟩ := meeting?_eq_some some
    exact ⟨hled, hfirst⟩

theorem Behind.noted {ids : List String} (h : Behind a (Keeps a (Racing a)) A s ids p b q)
    (hp : p.Fits a A) : Noted a s.reserved p [b] q := by
  cases h with
  | nothing none => exact .leaf rfl rfl (List.Subset.refl _) fun _ _ h => h
  | one only call => exact call.2.2.2
  | @several ts bs next q nodup all arms =>
    obtain ⟨S', mid, harms, hnext, hmore, hstops⟩ := arms.noted hp
    refine .block rfl (arms.grown hp).nodup harms hnext rfl hmore (fun y hy => ?_)
      (List.Subset.refl _) (by simp [Block.owner?]) trivial
    exact (hstops y hy).imp_right fun hmeet =>
      ⟨ts, nodup, hmeet.1, (arms.mono Racing.leading).heads, hmeet.2⟩

/-! ### Steps -/

theorem Each.led {ids : List String} (h : Each (Keeps a (Racing a)) A s ids p bs q) {v : String}
    (hv : v ∈ Block.ownedList bs) : ∃ t ∈ ids, Led a s t v := by
  induction h with
  | nil => simp [Block.ownedList] at hv
  | @cons id ids p b mid bs q head tail ih =>
    rcases List.mem_append.mp hv with hv | hv
    · exact ⟨id, List.mem_cons_self, (head.2.2.1.1.1 v hv).2⟩
    · obtain ⟨t, ht, hway⟩ := ih hv
      exact ⟨t, List.mem_cons_of_mem _ ht, hway⟩

/-- What comes behind a node is led to by one of the nodes that it goes on with. -/
theorem Behind.led {ids : List String} (h : Behind a (Keeps a (Racing a)) A s ids p b q)
    {v : String} (hv : v ∈ b.owned) : ∃ t ∈ ids, Led a s t v := by
  cases h with
  | nothing none => simp [Block.owned] at hv
  | @one id b q only call => exact ⟨id, (only id).mpr rfl, (call.2.2.1.1.1 v hv).2⟩
  | @several ts bs next q nodup all arms =>
    suffices ∃ t ∈ ts, Led a s t v by
      obtain ⟨t, ht, hway⟩ := this
      exact ⟨t, (all t).mp ht, hway⟩
    cases arms with
    | apart none arms => exact arms.led (by simpa [Block.owned] using hv)
    | @meet m bs mid next q two some arms rest =>
      rcases List.mem_append.mp hv with hv | hv
      · obtain ⟨t, ht, hway⟩ := arms.led hv
        exact ⟨t, ht, hway.mono (List.subset_append_left _ _)⟩
      · obtain ⟨t, ht⟩ := List.exists_mem_of_length_pos (Nat.lt_trans Nat.zero_lt_one two)
        exact ⟨t, ht, ((meeting?_eq_some some).1 t ht).trans (rest.2.2.1.1.1 v hv).2⟩

/-- The races among the notes on a parallel node. -/
theorem mem_fanNotes {merge : Merge} {nodes : List String} {arms : List (Link × Block)}
    {x n : String} : .race x n ∈ fanNotes a id merge nodes arms ↔
      n = id ∧ merge = .first ∧ 1 < (arms.map Prod.snd).countP (fun b => b.owned ≠ []) ∧
        x ∈ nodes ∧ a.Fed (arms.map Prod.snd) x := by
  have hrunning : (arms.filter (not ∘ fun arm => arm.2.owned.isEmpty)).length =
      (arms.map Prod.snd).countP fun b => b.owned ≠ [] := by
    rw [← List.countP_eq_length_filter, List.countP_map]
    refine List.countP_congr fun arm _ => ?_
    simp
  have hfed : ((a.graph.incoming x).any fun l =>
        ((arms.filter (not ∘ fun arm => arm.2.owned.isEmpty)).flatMap
          fun arm => arm.2.owned).contains l.source) = true ↔ a.Fed (arms.map Prod.snd) x := by
    rw [List.any_eq_true]
    simp only [List.contains_iff_mem, List.mem_flatMap, List.mem_filter, Graph.mem_incoming,
      Accepted.Fed, List.mem_map]
    constructor
    · rintro ⟨l, ⟨hl, htarget⟩, arm, ⟨harm, -⟩, hown⟩
      exact ⟨l, hl, htarget, arm.2, ⟨arm, harm, rfl⟩, hown⟩
    · rintro ⟨l, hl, htarget, b, ⟨arm, harm, rfl⟩, hown⟩
      exact ⟨l, ⟨hl, htarget⟩, arm, ⟨harm, by simp [List.ne_nil_of_mem hown]⟩, hown⟩
  simp only [fanNotes, List.partition_eq_filter_filter]
  rw [List.mem_append, or_iff_right (by simp), hrunning]
  split
  · rename_i h
    simp only [List.mem_map, List.mem_filter, PlanNote.race.injEq]
    constructor
    · rintro ⟨y, ⟨hy, hreads⟩, rfl, rfl⟩
      exact ⟨rfl, h.1, h.2, hy, hfed.mp hreads⟩
    · rintro ⟨rfl, -, -, hx, hreads⟩
      exact ⟨x, ⟨hx, hfed.mpr hreads⟩, rfl, rfl⟩
  · rename_i h
    refine iff_of_false List.not_mem_nil fun hall => h ⟨hall.2.1, hall.2.2.1⟩

theorem one_lt_countP_iff {α : Type} {l : List α} {P : α → Bool} :
    1 < l.countP P ↔ ∃ x y, [x, y].Sublist l ∧ P x = true ∧ P y = true := by
  constructor
  · intro h
    rw [List.countP_eq_length_filter] at h
    rcases hfilter : l.filter P with _ | ⟨x, _ | ⟨y, rest⟩⟩
    · simp [hfilter] at h
    · simp [hfilter] at h
    · have hmem : ∀ z ∈ x :: y :: rest, P z = true := by
        rw [← hfilter]
        exact fun z hz => (List.mem_filter.mp hz).2
      have hsub : (x :: y :: rest).Sublist l := hfilter ▸ List.filter_sublist
      exact ⟨x, y, (((List.nil_sublist rest).cons_cons y).cons_cons x).trans hsub,
        hmem x List.mem_cons_self, hmem y (List.mem_cons_of_mem _ List.mem_cons_self)⟩
  · rintro ⟨x, y, hsub, hx, hy⟩
    refine Nat.lt_of_lt_of_le ?_ hsub.countP_le
    simp [hx, hy]

theorem mem_shared_iff (hs : a.Sound) {x : String} :
    x ∈ shared a s id ↔ a.Shares s.reserved id x := by
  have hpair : 1 < armsTo a s ((outBySlot a id).map Link.target) x ↔ ∃ l m,
      [l, m].Sublist (outBySlot a id) ∧ Led a s l.target x ∧ Led a s m.target x := by
    rw [armsTo, List.countP_map, one_lt_countP_iff]
    simp only [Function.comp_apply, List.contains_iff_mem, mem_forwardReach]
  rw [mem_shared hs, hpair]
  refine ⟨fun h => h.2, fun h => ⟨?_, h⟩⟩
  -- a way along links ends at a node
  obtain ⟨-, l, m, hsub, hway, -⟩ := h
  obtain ⟨hl, -⟩ := mem_outBySlot.mp (hsub.subset List.mem_cons_self)
  rcases hway.cases_tail with rfl | ⟨u, -, -, k, hk, -, -, rfl⟩
  · exact (hs.link_mem l hl).2
  · exact (hs.link_mem k hk).2

/-- What comes behind the arms of a parallel node is led to by two of its links. -/
theorem Behind.shared (hs : a.Sound)
    (h : Behind a (Keeps a (Racing a)) A s (earliest a (shared a s id)) p b q) (hp : p.Fits a A) :
    ∀ x ∈ b.owned, x ∈ Plan.shared a s id := by
  intro x hx
  have hgrown := h.grown hp
  obtain ⟨t, ht, hway⟩ := h.led hx
  obtain ⟨-, -, hcount⟩ := (mem_shared hs).mp (mem_earliest.mp ht).1
  refine (mem_shared hs).mpr ⟨?_, hgrown.free x hx, Nat.lt_of_lt_of_le hcount ?_⟩
  · exact hgrown.fits.mem x (hgrown.mem_planned.mpr (.inl hx))
  · exact armsTo_le fun u _ hut => hut.trans hway

theorem Step.racing (hs : a.Sound) (hready : Ready a A s id p) (hend : Ended a A s id p b q)
    (h : Step a (Keeps a (Racing a)) A s id p b q) : Racing a A s id p b q := by
  refine ⟨(h.mono Racing.leading).leading hs hready, ?_⟩
  have hnodup := hend.grown.nodup
  cases h with
  | reserved stop => exact .leaf rfl rfl (List.Subset.refl _) fun _ _ h => h
  | outside free beyond =>
    refine .leaf rfl rfl hend.grown.notes fun x n h => ?_
    rw [Progress.leave] at h
    split at h <;> exact h
  | again free within old =>
    refine .leaf rfl rfl hend.grown.notes fun x n h => ?_
    simpa [Progress.note] using h
  | early free within fresh wait =>
    refine .leaf rfl rfl hend.grown.notes fun x n h => ?_
    rw [Progress.postpone] at h
    split at h
    · exact h
    · simpa using h
  | @loop L c b q opens mem entry head round config =>
    subst entry
    have hstart : Starts a A s p L := ⟨mem, hready, opens, head⟩
    cases round with
    | @mk body mid next r round behind =>
      have hround := hstart.grown_round hs round.2.1
      have hnext := behind.noted (hround.fits.tell _)
      exact .block rfl hnodup round.2.2.2 hnext rfl (List.subset_append_left _ _)
        (fun y hy => (List.mem_append.mp hy).imp_right List.mem_singleton.mp)
        (List.subset_append_left _ _) (by simp [Progress.tell, Accepted.Reports]) trivial
  | @seq next q opens plain behind kind =>
    have hplain : Plain a A s p id := ⟨hready, opens, plain⟩
    have hnone : Noted a s.reserved (p.mark id) [] (p.mark id) := .nil
    exact .block rfl hnodup hnone (behind.noted hplain.mark_fits) rfl (List.Subset.refl _)
      (fun y hy => .inl hy) (List.Subset.refl _) (by simp [Accepted.Reports]) trivial
  | @branch c t f onTrue onFalse next q opens plain kind links labels arms =>
    have hplain : Plain a A s p id := ⟨hready, opens, plain⟩
    obtain ⟨S', mid, harms, hnext, hmore, hstops⟩ := arms.noted hplain.mark_fits
    refine .block rfl hnodup harms hnext rfl hmore
      (fun y hy => (hstops y hy).imp_right fun hmeet => hmeet.2.congr fun u => ?_)
      (List.Subset.refl _) (by simp [Accepted.Reports]) trivial
    simp only [List.mem_map, links]
    constructor
    · rintro ⟨l, rfl | rfl, rfl⟩ <;> simp
    · intro hu
      rcases List.mem_pair.mp hu with rfl | rfl
      · exact ⟨t, .inl rfl, rfl⟩
      · exact ⟨f, .inr rfl, rfl⟩
  | @fan c bs mid next r opens plain kind arms behind =>
    have hplain : Plain a A s p id := ⟨hready, opens, plain⟩
    have hlength : bs.length = (outBySlot a id).length := by simpa using arms.length_eq
    have hslots : (Block.fan id (((outBySlot a id).map fun l => l.edge.slot.getD "").zip bs)
        c.merge next).arms = bs := map_snd_slots hlength
    have hlinks : ((outBySlot a id).zip bs).map Prod.snd = bs :=
      List.map_snd_zip (Nat.le_of_eq hlength)
    have hfits := ((arms.grown hplain.mark_fits).relax.fits).tell
      (fanNotes a id c.merge (shared a s id) ((outBySlot a id).zip bs))
    have harms := arms.noted hplain.mark_fits
    rw [← hslots] at harms
    refine .block rfl hnodup harms (behind.noted hfits) rfl (List.subset_append_left _ _)
      (fun y hy => (List.mem_append.mp hy).imp_right (mem_shared_iff hs).mp)
      (List.subset_append_left _ _) (fun x n => ?_)
      fun x hx => (mem_shared_iff hs).mp (behind.shared hs hfits x hx)
    simp only [Progress.tell, List.mem_append, mem_fanNotes, hlinks, Accepted.Reports,
      Block.owner?, Option.some.injEq]
    rw [map_snd_slots hlength, mem_shared_iff hs, @eq_comm _ id n]

end Plan

/-! ### Diagnostics -/

theorem PlanNote.eq_race_of_code {note : PlanNote} (h : note.code = "L004") :
    ∃ x n, note = .race x n := by
  cases note with
  | race x n => exact ⟨x, n, rfl⟩
  | _ => simp [code] at h

theorem PlanNote.eq_race_of_toDiagnostic {note : PlanNote} {x n : String}
    (h : note.toDiagnostic = (PlanNote.race x n).toDiagnostic) : note = .race x n := by
  obtain ⟨y, m, rfl⟩ := eq_race_of_code (congrArg Diagnostic.code h)
  obtain rfl : y = x := Option.some.inj (congrArg Diagnostic.nodeId h)
  have hmessage : (PlanNote.race y m).message = (PlanNote.race y n).message :=
    congrArg Diagnostic.message h
  have hm : m = n := by simpa [message] using hmessage
  rw [hm]

theorem PlanFault.code_ne (f : PlanFault) : f.toDiagnostic.code ≠ "L004" := by
  cases f <;> simp [toDiagnostic, code]

/-- In the plan of an accepted workflow every warning about a race is about a parallel node that
goes on with its first arm.  For each parallel node there are stops, at which arms of the blocks
around it end, such that a race with a node is reported exactly if the parallel node goes on with
the first of at least two arms, its links share the node past the stops, and an arm feeds it.  The
links share all that the parallel node runs behind its arms. -/
theorem race_reported_iff {w : Workflow} {a : Accepted} (h : check w = .ok a) :
    (∀ d ∈ a.plan.diagnostics, d.code = "L004" → ∃ node arms next x,
      .fan node arms .first next ∈ a.plan.block.parts ∧ d = (PlanNote.race x node).toDiagnostic) ∧
    ∀ node arms merge next, .fan node arms merge next ∈ a.plan.block.parts → ∃ stops : List String,
      (∀ y ∈ stops, ∃ e ∈ a.plan.block.parts, ∃ d ∈ e.arms,
        .fan node arms merge next ∈ d.parts ∧ ∃ outer ⊆ stops, a.StopsAt outer y e) ∧
      (∀ x, (PlanNote.race x node).toDiagnostic ∈ a.plan.diagnostics ↔ merge = .first ∧
        1 < (arms.map Prod.snd).countP (fun b => b.owned ≠ []) ∧
        a.Shares stops node x ∧ a.Fed (arms.map Prod.snd) x) ∧
      ∀ x ∈ next.owned, a.Shares stops node x := by
  have hs := Check.sound_of_check h
  obtain ⟨t, q, -, -, ⟨-, hnoted⟩, hdiagnostics⟩ := Plan.plan_rule hs (Plan.Racing a)
    fun _ _ _ _ _ _ hready hend hstep => hstep.racing hs hready hend
  have hmem : ∀ d ∈ a.plan.diagnostics, d.code = "L004" → ∃ x n, .race x n ∈ q.notes ∧
      d = (PlanNote.race x n).toDiagnostic := by
    intro d hd hcode
    rw [hdiagnostics] at hd
    rcases List.mem_append.mp hd with hd | hd
    · obtain ⟨note, hnote, rfl⟩ := List.mem_map.mp hd
      obtain ⟨x, n, rfl⟩ := PlanNote.eq_race_of_code hcode
      exact ⟨x, n, hnote, rfl⟩
    · obtain ⟨f, -, rfl⟩ := List.mem_map.mp hd
      exact absurd hcode f.code_ne
  have hiff : ∀ x n, (PlanNote.race x n).toDiagnostic ∈ a.plan.diagnostics ↔
      .race x n ∈ q.notes := by
    intro x n
    constructor
    · intro hd
      obtain ⟨y, m, hnote, heq⟩ := hmem _ hd rfl
      rwa [PlanNote.eq_race_of_toDiagnostic heq.symm] at hnote
    · intro hnote
      rw [hdiagnostics]
      exact List.mem_append_left _ (List.mem_map_of_mem hnote)
  have hroot := hnoted.parts _ (List.mem_singleton_self _)
  refine ⟨fun d hd hcode => ?_, fun node arms merge next hpart => ?_⟩
  · obtain ⟨x, n, hnote, rfl⟩ := hmem d hd hcode
    obtain ⟨c, hc, howner⟩ : ∃ c ∈ a.plan.block.parts, c.owner? = some n := by
      have hown := (hnoted.new x n hnote).resolve_left List.not_mem_nil
      obtain ⟨b, hb, hown⟩ := Plan.mem_ownedList.mp hown
      exact Block.exists_owner _ (List.mem_singleton.mp hb ▸ hown)
    obtain ⟨stops, -, -, hraces, -⟩ := hroot c hc n howner
    have hreports := ((hraces x).mp hnote).resolve_left List.not_mem_nil
    cases c with
    | fan node arms merge next =>
      obtain rfl : node = n := Option.some.inj howner
      obtain rfl : merge = .first := hreports.1
      exact ⟨node, arms, next, x, hc, rfl⟩
    | _ => exact hreports.elim
  · obtain ⟨stops, -, hheld, hraces, hcovers⟩ := hroot _ hpart node rfl
    refine ⟨stops, fun y hy => (hheld y hy).resolve_left List.not_mem_nil, fun x => ?_, hcovers⟩
    rw [hiff, hraces, or_iff_right List.not_mem_nil]
    rfl

/-- Two couriers are asked if there is no time, and the order goes to the one that answers first. -/
def dispatchFlow : Workflow where
  nodes :=
    [ { id := "start", config := .trigger {} },
      { id := "urgent", config := .condition { expression := "days < 2" } },
      { id := "race", config := .parallel { merge := .first } },
      { id := "north", config := .agent { prompt := "north" } },
      { id := "south", config := .agent { prompt := "south" } },
      { id := "pick", config := .agent { prompt := "pick" } },
      { id := "usual", config := .agent { prompt := "usual" } },
      { id := "order", config := .agent { prompt := "order" } } ]
  edges :=
    [ { id := "e1", source := "start", target := "urgent" },
      { id := "e2", source := "urgent", target := "race", branch := some true },
      { id := "e3", source := "urgent", target := "usual", branch := some false },
      { id := "e4", source := "race", target := "north", slot := some "north" },
      { id := "e5", source := "race", target := "south", slot := some "south" },
      { id := "e6", source := "north", target := "pick" },
      { id := "e7", source := "south", target := "pick" },
      { id := "e8", source := "north", target := "order" },
      { id := "e9", source := "pick", target := "order" },
      { id := "e10", source := "usual", target := "order" } ]

/-- The choice is run behind the two couriers, and its race is reported. -/
theorem race_reported_dispatchFlow : ∃ a, check dispatchFlow = .ok a ∧
    ∃ arms next, .fan "race" arms .first next ∈ a.plan.block.parts ∧
      (arms.map Prod.snd).map Block.owned = [["north"], ["south"]] ∧ "pick" ∈ next.owned ∧
      (PlanNote.race "pick" "race").toDiagnostic ∈ a.plan.diagnostics := by
  obtain ⟨a, ha, c, hc, howner, hmerge, howned, hfed, hpick⟩ : ∃ a, check dispatchFlow = .ok a ∧
      ∃ c ∈ a.plan.block.parts, c.owner? = some "race" ∧ c.merge? = some .first ∧
        c.arms.map Block.owned = [["north"], ["south"]] ∧ a.Fed c.arms "pick" ∧
        c.children.getLast?.any fun next => next.owned.contains "pick" :=
    exists_check_ok (by decide +kernel)
  cases c with
  | fan node arms merge next =>
    obtain rfl : node = "race" := Option.some.inj howner
    obtain rfl : merge = .first := Option.some.inj hmerge
    rw [Block.arms] at howned hfed
    have hpick : "pick" ∈ next.owned := by simpa [Block.children] using hpick
    have hrunning : 1 < (arms.map Prod.snd).countP (fun b => b.owned ≠ []) := by
      have hcount := congrArg (List.countP fun owned => owned ≠ []) howned
      rw [List.countP_map] at hcount
      exact hcount ▸ Nat.lt_succ_self 1
    obtain ⟨stops, -, hreported, hnext⟩ := (race_reported_iff ha).2 "race" arms .first next hc
    exact ⟨a, ha, arms, next, hc, howned, hpick,
      (hreported "pick").mpr ⟨rfl, hrunning, hnext "pick" hpick, hfed⟩⟩
  | _ => simp [Block.merge?] at hmerge

/-- A courier feeds the order as well, which is not in an arm; but the order is where the arms of
the condition meet, and no warning names it. -/
theorem order_not_reported : ∃ a, check dispatchFlow = .ok a ∧
    (∃ c ∈ a.plan.block.parts, c.owner? = some "race" ∧ c.merge? = some .first ∧
      c.arms.map Block.owned = [["north"], ["south"]] ∧ a.Forward "north" "order") ∧
    ∀ d ∈ a.plan.diagnostics, d.code = "L004" → d.nodeId ≠ some "order" := by
  obtain ⟨a, ha, hrace, ⟨l, hl, hforward⟩, hsilent⟩ : ∃ a, check dispatchFlow = .ok a ∧
      (∃ c ∈ a.plan.block.parts, c.owner? = some "race" ∧ c.merge? = some .first ∧
        c.arms.map Block.owned = [["north"], ["south"]]) ∧
      (∃ l ∈ a.graph.links,
        a.loops.isBack l = false ∧ l.source = "north" ∧ l.target = "order") ∧
      ∀ d ∈ a.plan.diagnostics, d.code = "L004" → d.nodeId ≠ some "order" :=
    exists_check_ok (by decide +kernel)
  obtain ⟨c, hc, howner, hmerge, howned⟩ := hrace
  exact ⟨a, ha, ⟨c, hc, howner, hmerge, howned, l, hl, hforward⟩, hsilent⟩

end Flowscript
