/-
Data that are read back from what was written of them.

A record is written as an object with its fields under their names.  Reading it puts the fields in,
one after the other, and neither skips a name nor finds one twice.  Conversely, what every field
keeps of a record is kept by reading, however the record was written.

* `optional_ofOption`, `list_map`, `textMap_of_ordered`, `anything_of_normal` — the parts of a
  record are read back;
* `of_optional`, `of_list`, `ordered_of_textMap`, `of_anything` — what is known of parts that were
  read;
* `Record.ofMembers_memberSources` — a written record is read by putting its fields in;
* `Record.Keeps.ofMembers`, `Record.Keeps.read` — what the fields of a record keep, reading keeps.
-/
import Flowscript.Json.Record
import Flowscript.Proofs.Json.Read

namespace Flowscript.Json

/-! ### Parts of records -/

namespace Source

/-- What stands in an array or an object. -/
def parts : Source → List Source
  | .array items _ => items
  | .object members _ => members.map (·.2)
  | _ => []

theorem fits_parts {s : Source} (h : s.Fits) : ∀ p ∈ s.parts, p.Fits := by
  cases s with
  | array items ending => exact fits_array.mp h
  | object members ending =>
    intro p hp
    obtain ⟨m, hm, rfl⟩ := List.mem_map.mp hp
    exact fits_object.mp h m hm
  | null => exact fun _ hp => absurd hp List.not_mem_nil
  | bool b => exact fun _ hp => absurd hp List.not_mem_nil
  | number n => exact fun _ hp => absurd hp List.not_mem_nil
  | string t => exact fun _ hp => absurd hp List.not_mem_nil
  | broken begun read skip => exact fun _ hp => absurd hp List.not_mem_nil

theorem optional_source {α : Type} (read : Source → Except Fault α) {v : Value} (h : v ≠ .null) :
    v.source.optional read = (read v.source).map some := by
  cases v with
  | null => exact absurd rfl h
  | bool b => rfl
  | number n => rfl
  | string s => rfl
  | array items => rfl
  | object members => rfl

/-- What may be missing is read back if it is not written as null. -/
theorem optional_ofOption {α : Type} {read : Source → Except Fault α} {write : α → Value}
    {o : Option α} (h : ∀ a ∈ o, write a ≠ .null ∧ read (write a).source = .ok a) :
    (Value.ofOption write o).source.optional read = .ok o := by
  cases o with
  | none => rfl
  | some a =>
    obtain ⟨hnull, hread⟩ := h a rfl
    rw [Value.ofOption, optional_source read hnull, hread]
    rfl

theorem list_map {α : Type} {read : Source → Except Fault α} {write : α → Value} {l : List α}
    (h : ∀ a ∈ l, read (write a).source = .ok a) :
    (Value.array (l.map write)).source.list read = .ok l := by
  rw [Value.source, itemSources_eq_map, List.map_map, list]
  exact bind_eq_ok.mpr ⟨l, mapM_map h, rfl⟩

/-- Members ordered by name are read back in their order. -/
theorem textMap_of_ordered {l : List (String × String)} (h : Ordered l) :
    (Value.object (l.map fun m => (m.1, .string m.2))).source.textMap = .ok l := by
  rw [Value.source, memberSources_eq_map, List.map_map, textMap]
  refine bind_eq_ok.mpr ⟨l, mapM_map fun _ _ => rfl, ?_⟩
  exact congrArg Except.ok (foldl_insertMember h)

theorem anything_of_normal {v : Value} (hnormal : v.normal = v) (hdepth : v.depth ≤ 128) :
    v.source.anything = .ok v := by
  rw [anything, read_source hdepth]
  exact congrArg Except.ok hnormal

theorem count_natCast {n : Nat} (h : n < 4294967296) :
    (Value.number (.integer n)).source.count = .ok n := by
  rw [Value.source, count, if_pos ⟨by omega, by omega⟩, Int.toNat_natCast]

theorem choice_string {α : Type} (mode : Mode) (table : List (String × α)) (s : String) :
    (Value.string s).source.choice mode table = lookup table s := by
  cases mode <;> rfl

end Source

/-! ### Parts that were read -/

theorem orFlaw_eq_ok {α : Type} {x : Except Flaw α} {a : α} (h : orFlaw x = .ok a) : x = .ok a := by
  cases x with
  | error f => cases h
  | ok a' => rw [Except.ok.inj h]

namespace Source

variable {α : Type} {read : Source → Except Fault α} {s : Source}

theorem count_lt {n : Nat} (h : s.count = .ok n) : n < 4294967296 := by
  rw [count.eq_def] at h
  split at h
  · split at h
    · next hlt =>
      cases h
      omega
    · cases h
  · cases h

theorem of_optional {o : Option α} (h : s.optional read = .ok o) {a : α} (ha : a ∈ o) :
    s ≠ .null ∧ read s = .ok a := by
  rw [optional.eq_def] at h
  split at h
  · cases h
    cases ha
  · cases h
  · next hnull _ =>
    obtain ⟨a', hread, rfl⟩ := map_eq_ok.mp h
    cases ha
    exact ⟨hnull, hread⟩

theorem of_list {l : List α} (h : s.list read = .ok l) {a : α} (ha : a ∈ l) :
    ∃ p ∈ s.parts, read p = .ok a := by
  rw [list.eq_def] at h
  split at h
  · obtain ⟨l', hl', h⟩ := bind_eq_ok.mp h
    obtain ⟨_, -, h⟩ := bind_eq_ok.mp h
    cases h
    exact exists_of_mapM hl' ha
  · cases h

theorem ordered_of_textMap {l : List (String × String)} (h : s.textMap = .ok l) : Ordered l := by
  rw [textMap.eq_def] at h
  split at h
  · obtain ⟨pairs, -, h⟩ := bind_eq_ok.mp h
    obtain ⟨_, -, h⟩ := bind_eq_ok.mp h
    cases h
    exact Ordered.foldl_insertMember _ _ pairs List.Pairwise.nil
  · cases h

/-- A value that was read before, with room to spare. -/
def ReadWithin (room : Nat) (s : Source) : Prop := ∃ v : Value, s = v.source ∧ v.Within room

theorem of_anything {v : Value} (h : s.anything = .ok v) (hs : s.ReadWithin 123)
    (hnull : s ≠ .null) : v ≠ .null ∧ v.normal = v ∧ v.Within 123 := by
  obtain ⟨u, rfl, hu⟩ := hs
  rw [anything, read_source (Nat.le_trans hu.1 (by decide))] at h
  cases h
  refine ⟨fun heq => hnull ?_, Value.normal_normal u, hu.normal⟩
  rw [Value.normal_eq_null heq]
  rfl

end Source

/-! ### Written records -/

namespace Record

variable {α : Type} {r : Record α}

/-- Puts a member into the field of its name. -/
def set (r : Record α) (a : α) (m : String × Value) : Except Fault α :=
  match r.field? m.1 with
  | some f => f.put a m.2.source
  | none => .ok a

/-- The names are names of fields, none twice, and no required field is left out. -/
structure Covers (r : Record α) (names : List String) : Prop where
  nodup : names.Nodup
  isField : ∀ n ∈ names, (r.field? n).map Field.name = some n
  required : ∀ f ∈ r.fields, f.presence = .required → f.name ∈ names

instance (names : List String) : Decidable (r.Covers names) :=
  decidable_of_iff
    (names.Nodup ∧ (∀ n ∈ names, (r.field? n).map Field.name = some n) ∧
      ∀ f ∈ r.fields, f.presence = .required → f.name ∈ names)
    ⟨fun h => ⟨h.1, h.2.1, h.2.2⟩, fun h => ⟨h.nodup, h.isField, h.required⟩⟩

theorem takeAll_memberSources {ms : List (String × Value)} (hnodup : (ms.map (·.1)).Nodup)
    (hfield : ∀ n ∈ ms.map (·.1), (r.field? n).map Field.name = some n) {d : Draft α}
    (hgiven : ∀ n ∈ ms.map (·.1), n ∉ d.given) :
    r.takeAll d (memberSources ms) =
      (ms.foldlM r.set d.record).map fun a => ⟨a, (ms.map (·.1)).reverse ++ d.given⟩ := by
  induction ms generalizing d with
  | nil => rfl
  | cons m ms ih =>
    rw [List.map_cons] at hnodup hfield hgiven
    obtain ⟨hm, hnodup⟩ := List.nodup_cons.mp hnodup
    obtain ⟨f, hf, hname⟩ := Option.map_eq_some_iff.mp (hfield m.1 List.mem_cons_self)
    have hnew : d.given.contains f.name = false := by
      rw [hname]
      simpa using hgiven m.1 List.mem_cons_self
    have htake : r.take d m.1 m.2.source =
        (r.set d.record m).map fun a => ⟨a, m.1 :: d.given⟩ := by
      rw [take, hf, set, hf]
      dsimp only
      rw [if_neg (by rw [hnew]; exact Bool.false_ne_true), hname]
      cases f.put d.record m.2.source <;> rfl
    show (r.take d m.1 m.2.source >>= fun d => r.takeAll d (memberSources ms)) = _
    rw [htake, List.foldlM_cons]
    cases r.set d.record m with
    | error e => rfl
    | ok a =>
      show r.takeAll ⟨a, m.1 :: d.given⟩ (memberSources ms) = _
      rw [ih hnodup (fun n hn => hfield n (List.mem_cons_of_mem _ hn))]
      · rw [List.map_cons, List.reverse_cons, List.append_assoc, List.singleton_append]
        rfl
      · intro n hn
        rw [List.mem_cons, not_or]
        exact ⟨fun h => hm (h ▸ hn), hgiven n (List.mem_cons_of_mem _ hn)⟩

/-- The names of the fields in their order. -/
def names (r : Record α) : List String := r.fields.map Field.name

/-- A record whose fields are written under their names is read by putting them in. -/
theorem ofMembers_memberSources {names : List String} (h : r.Covers names)
    {ms : List (String × Value)} (hnames : ms.map (·.1) = names) :
    r.ofMembers (memberSources ms) = ms.foldlM r.set r.blank := by
  subst hnames
  rw [ofMembers, takeAll_memberSources h.nodup h.isField fun _ _ => List.not_mem_nil]
  cases ms.foldlM r.set r.blank with
  | error e => rfl
  | ok a =>
    show r.finish ⟨a, (ms.map (·.1)).reverse ++ []⟩ = .ok a
    rw [finish, List.find?_eq_none.mpr]
    intro f hf hmissing
    rw [Bool.and_eq_true, beq_iff_eq] at hmissing
    have hmem := h.required f hf hmissing.1
    simp [hmem] at hmissing

theorem read_object (mode : Mode) (title : String) (members : List (Source × Source)) :
    r.read mode title (.object members none) = r.ofMembers members := by
  rw [read, ofMembers]
  cases r.takeAll ⟨r.blank, []⟩ members <;> rfl

theorem read_source_object {names : List String} (h : r.Covers names)
    {ms : List (String × Value)} (hnames : ms.map (·.1) = names) (mode : Mode) (title : String) :
    r.read mode title (Value.object ms).source = ms.foldlM r.set r.blank := by
  rw [Value.source, read_object, ofMembers_memberSources h hnames]

/-! ### What fields keep -/

/-- The blank record has a property, and putting a field in keeps it. -/
structure Keeps (r : Record α) (P : α → Prop) (Q : Source → Prop) : Prop where
  blank : P r.blank
  put : ∀ f ∈ r.fields, ∀ a s b, P a → Q s → f.put a s = .ok b → P b

variable {P : α → Prop} {Q : Source → Prop}

/-- A field that is read and put in keeps what it does not touch. -/
theorem put_keeps {β : Type} {read : Source → Except Fault β} {g : α → β → α}
    (h : ∀ a s x, P a → Q s → read s = .ok x → P (g a x)) :
    ∀ a s b, P a → Q s → (read s >>= fun x => pure (g a x)) = .ok b → P b := by
  intro a s b ha hs hb
  obtain ⟨x, hx, hb⟩ := bind_eq_ok.mp hb
  cases hb
  exact h a s x ha hs hx

theorem Keeps.takeAll (h : r.Keeps P Q) {members : List (Source × Source)}
    (hmembers : ∀ m ∈ members, Q m.2) {d d' : Draft α} (hd : P d.record)
    (hread : r.takeAll d members = .ok d') : P d'.record := by
  induction members generalizing d with
  | nil =>
    cases hread
    exact hd
  | cons m members ih =>
    obtain ⟨key, -, hread⟩ := bind_eq_ok.mp hread
    obtain ⟨d₁, htake, hread⟩ := bind_eq_ok.mp hread
    refine ih (fun m hm => hmembers m (List.mem_cons_of_mem _ hm)) ?_ hread
    rw [take] at htake
    split at htake
    · obtain ⟨_, -, htake⟩ := bind_eq_ok.mp htake
      cases htake
      exact hd
    · next f hf =>
      split at htake
      · cases htake
      · obtain ⟨a, hput, htake⟩ := bind_eq_ok.mp htake
        cases htake
        exact h.put f (List.mem_of_find?_eq_some hf) _ _ _ hd (hmembers m List.mem_cons_self) hput

theorem finish_eq_ok {d : Draft α} {a : α} (h : r.finish d = .ok a) : a = d.record := by
  rw [finish] at h
  split at h
  · cases h
  · cases h
    rfl

theorem Keeps.ofMembers (h : r.Keeps P Q) {members : List (Source × Source)}
    (hmembers : ∀ m ∈ members, Q m.2) {a : α} (hread : r.ofMembers members = .ok a) : P a := by
  obtain ⟨d, hd, hread⟩ := bind_eq_ok.mp hread
  rw [finish_eq_ok hread]
  exact h.takeAll hmembers h.blank hd

theorem Keeps.ofElements (h : r.Keeps P Q) {mode : Mode} {title : String} {all : List Source}
    {ending : Option Flaw} {a b : α} {index : Nat} {fields : List (Field α)}
    {items : List Source} (ha : P a) (hfields : fields ⊆ r.fields) (hitems : ∀ s ∈ items, Q s)
    (hread : Record.ofElements mode title r all ending a index fields items = .ok b) : P b := by
  induction items generalizing a index fields with
  | nil =>
    cases fields with
    | nil =>
      obtain ⟨_, -, hread⟩ := bind_eq_ok.mp hread
      cases hread
      exact ha
    | cons f fields =>
      obtain ⟨_, -, hread⟩ := bind_eq_ok.mp hread
      split at hread
      · cases hread
      · cases hread
        exact ha
  | cons s items ih =>
    cases fields with
    | nil => cases mode <;> cases hread
    | cons f fields =>
      obtain ⟨a', hput, hread⟩ := bind_eq_ok.mp hread
      obtain ⟨hf, hfields⟩ := List.cons_subset.mp hfields
      exact ih (h.put f hf _ _ _ ha (hitems s List.mem_cons_self) hput) hfields
        (fun s hs => hitems s (List.mem_cons_of_mem _ hs)) hread

theorem Keeps.read (h : r.Keeps P Q) {mode : Mode} {title : String} {s : Source}
    (hs : ∀ p ∈ s.parts, Q p) {a : α} (hread : r.read mode title s = .ok a) : P a := by
  rw [Record.read.eq_def] at hread
  split at hread
  · obtain ⟨d, hd, hread⟩ := bind_eq_ok.mp hread
    obtain ⟨_, -, hread⟩ := bind_eq_ok.mp hread
    rw [finish_eq_ok hread]
    exact h.takeAll (fun m hm => hs m.2 (List.mem_map_of_mem hm)) h.blank hd
  · exact h.ofElements h.blank (List.Subset.refl _) hs hread
  · cases hread

end Record

end Flowscript.Json
