/-
The structure of JSON values.

The functions on values recurse through items and members by functions of their own.  Here these
are maps and folds over the function on values, and `Value.induct` is the induction that goes with
them.  Two measures follow, the numbers in a value and its depth, and what `Value.normal` does to
them.

* `foldl_insertMember` — members ordered by name are put together again from their parts;
* `normal_normal` — a value in normal form is its own normal form;
* `depth_normal_le`, `mem_numbers_normal` — the normal form has no more depth and no other numbers.
-/
import Flowscript.Json.Source
import Mathlib.Data.List.Basic

namespace Flowscript.Json

/-! ### Members ordered by name -/

section Members

variable {β : Type}

/-- Each name comes before the names behind it. -/
def Ordered (l : List (String × β)) : Prop := l.Pairwise fun a b => a.1 < b.1

theorem mem_insertMember {name : String} {value : β} {l : List (String × β)} {m : String × β}
    (h : m ∈ insertMember name value l) : m = (name, value) ∨ m ∈ l := by
  induction l with
  | nil => exact .inl (List.mem_singleton.mp h)
  | cons head rest ih =>
    rw [insertMember] at h
    split at h
    · rcases List.mem_cons.mp h with rfl | h
      · exact .inl rfl
      · exact .inr (List.mem_cons_of_mem _ h)
    · split at h
      · exact List.mem_cons.mp h
      · rcases List.mem_cons.mp h with rfl | h
        · exact .inr List.mem_cons_self
        · exact (ih h).imp_right (List.mem_cons_of_mem _)

theorem Ordered.insertMember {l : List (String × β)} (h : Ordered l) (name : String) (value : β) :
    Ordered (Json.insertMember name value l) := by
  induction l with
  | nil => exact List.pairwise_singleton _ _
  | cons head rest ih =>
    obtain ⟨hhead, hrest⟩ := List.pairwise_cons.mp h
    rw [Json.insertMember]
    split
    · next heq =>
      subst heq
      exact List.pairwise_cons.mpr ⟨hhead, hrest⟩
    · next hne =>
      split
      · next hlt =>
        refine List.pairwise_cons.mpr ⟨fun m hm => ?_, h⟩
        rcases List.mem_cons.mp hm with rfl | hm
        · exact hlt
        · exact String.lt_trans hlt (hhead m hm)
      · next hnlt =>
        refine List.pairwise_cons.mpr ⟨fun m hm => ?_, ih hrest⟩
        rcases mem_insertMember hm with rfl | hm
        · -- not below and not equal, so above
          by_cases hgt : head.1 < name
          · exact hgt
          · exact absurd (String.le_antisymm (String.not_lt.mp hgt) (String.not_lt.mp hnlt)) hne
        · exact hhead m hm

/-- Members that are inserted one after the other are ordered. -/
theorem Ordered.foldl_insertMember {γ : Type} (name : γ → String) (value : γ → β) (l : List γ)
    {acc : List (String × β)} (h : Ordered acc) :
    Ordered (l.foldl (fun acc c => Json.insertMember (name c) (value c) acc) acc) := by
  induction l generalizing acc with
  | nil => exact h
  | cons c l ih => exact ih (h.insertMember _ _)

theorem insertMember_of_forall_lt {name : String} {value : β} {l : List (String × β)}
    (h : ∀ m ∈ l, m.1 < name) : insertMember name value l = l ++ [(name, value)] := by
  induction l with
  | nil => rfl
  | cons head rest ih =>
    have hhead := h head List.mem_cons_self
    have hne : name ≠ head.1 := fun heq => String.lt_irrefl _ (heq ▸ hhead)
    rw [insertMember, if_neg hne, if_neg (String.lt_asymm hhead),
      ih fun m hm => h m (List.mem_cons_of_mem _ hm), List.cons_append]

/-- Members that are ordered by name are inserted one behind the other. -/
theorem foldl_insertMember {acc l : List (String × β)} (h : Ordered (acc ++ l)) :
    l.foldl (fun acc m => insertMember m.1 m.2 acc) acc = acc ++ l := by
  induction l generalizing acc with
  | nil => exact (List.append_nil acc).symm
  | cons m rest ih =>
    have hlt : ∀ a ∈ acc, a.1 < m.1 :=
      fun a ha => (List.pairwise_append.mp h).2.2 a ha m List.mem_cons_self
    have happend : acc ++ m :: rest = acc ++ [m] ++ rest := by
      rw [List.append_assoc, List.singleton_append]
    rw [List.foldl_cons, insertMember_of_forall_lt hlt, happend]
    exact ih (happend ▸ h)

end Members

namespace Value

/-! ### Items and members -/

theorem induct {P : Value → Prop} (null : P .null) (bool : ∀ b, P (.bool b))
    (number : ∀ n, P (.number n)) (string : ∀ s, P (.string s))
    (array : ∀ items, (∀ v ∈ items, P v) → P (.array items))
    (object : ∀ members, (∀ m ∈ members, P m.2) → P (.object members)) (v : Value) : P v :=
  @Value.rec P (fun items => ∀ v ∈ items, P v) (fun members => ∀ m ∈ members, P m.2)
    (fun m => P m.2) null bool number string array object
    (fun _ h => absurd h List.not_mem_nil) (fun _ _ hv hvs => List.forall_mem_cons.mpr ⟨hv, hvs⟩)
    (fun _ h => absurd h List.not_mem_nil) (fun _ _ hm hms => List.forall_mem_cons.mpr ⟨hm, hms⟩)
    (fun _ _ h => h) v

@[simp] theorem renderItems_eq_map (vs : List Value) : renderItems vs = vs.map render := by
  induction vs with
  | nil => rfl
  | cons v vs ih => rw [renderItems, ih, List.map_cons]

@[simp] theorem renderMembers_eq_map (ms : List (String × Value)) :
    renderMembers ms = ms.map fun m => Text.quote m.1 ++ ":" ++ m.2.render := by
  induction ms with
  | nil => rfl
  | cons m ms ih => rw [renderMembers, ih, List.map_cons]

@[simp] theorem normalItems_eq_map (vs : List Value) : normalItems vs = vs.map normal := by
  induction vs with
  | nil => rfl
  | cons v vs ih => rw [normalItems, ih, List.map_cons]

@[simp] theorem normalMembers_eq_foldl (acc ms : List (String × Value)) :
    normalMembers acc ms = ms.foldl (fun acc m => insertMember m.1 m.2.normal acc) acc := by
  induction ms generalizing acc with
  | nil => rfl
  | cons m ms ih => rw [normalMembers, ih, List.foldl_cons]

end Value

@[simp] theorem itemSources_eq_map (vs : List Value) : itemSources vs = vs.map Value.source := by
  induction vs with
  | nil => rfl
  | cons v vs ih => rw [itemSources, ih, List.map_cons]

@[simp] theorem memberSources_eq_map (ms : List (String × Value)) :
    memberSources ms = ms.map fun m => (.string (.ok m.1), m.2.source) := by
  induction ms with
  | nil => rfl
  | cons m ms ih => rw [memberSources, ih, List.map_cons]

namespace Value

/-! ### Numbers and depth -/

mutual

/-- All the numbers in a value. -/
def numbers : Value → List Number
  | .number n => [n]
  | .array items => itemNumbers items
  | .object members => memberNumbers members
  | _ => []

def itemNumbers : List Value → List Number
  | [] => []
  | v :: vs => numbers v ++ itemNumbers vs

def memberNumbers : List (String × Value) → List Number
  | [] => []
  | (_, v) :: rest => numbers v ++ memberNumbers rest

end

mutual

/-- How deep arrays and objects nest. -/
def depth : Value → Nat
  | .array items => itemDepth items + 1
  | .object members => memberDepth members + 1
  | _ => 0

def itemDepth : List Value → Nat
  | [] => 0
  | v :: vs => max (depth v) (itemDepth vs)

def memberDepth : List (String × Value) → Nat
  | [] => 0
  | (_, v) :: rest => max (depth v) (memberDepth rest)

end

theorem mem_numbers_array {items : List Value} {n : Number} :
    n ∈ (Value.array items).numbers ↔ ∃ v ∈ items, n ∈ v.numbers := by
  rw [numbers]
  induction items with
  | nil => simp [itemNumbers]
  | cons v vs ih => simp [itemNumbers, ih]

theorem mem_numbers_object {members : List (String × Value)} {n : Number} :
    n ∈ (Value.object members).numbers ↔ ∃ m ∈ members, n ∈ m.2.numbers := by
  rw [numbers]
  induction members with
  | nil => simp [memberNumbers]
  | cons m ms ih => simp [memberNumbers, ih]

theorem depth_array_le {items : List Value} {k : Nat} :
    (Value.array items).depth ≤ k + 1 ↔ ∀ v ∈ items, v.depth ≤ k := by
  rw [depth, Nat.add_le_add_iff_right]
  induction items with
  | nil => simp [itemDepth]
  | cons v vs ih => rw [itemDepth, Nat.max_le, ih, List.forall_mem_cons]

theorem depth_object_le {members : List (String × Value)} {k : Nat} :
    (Value.object members).depth ≤ k + 1 ↔ ∀ m ∈ members, m.2.depth ≤ k := by
  rw [depth, Nat.add_le_add_iff_right]
  induction members with
  | nil => simp [memberDepth]
  | cons m ms ih => rw [memberDepth, Nat.max_le, ih, List.forall_mem_cons]

theorem depth_pos_of_array (items : List Value) : 0 < (Value.array items).depth := by
  rw [depth]
  exact Nat.succ_pos _

theorem depth_pos_of_object (members : List (String × Value)) :
    0 < (Value.object members).depth := by
  rw [depth]
  exact Nat.succ_pos _

/-! ### Normal form -/

theorem mem_foldl_insertMember {acc ms : List (String × Value)} {m : String × Value}
    (h : m ∈ ms.foldl (fun acc m => insertMember m.1 m.2.normal acc) acc) :
    m ∈ acc ∨ ∃ m' ∈ ms, m.2 = m'.2.normal := by
  induction ms generalizing acc with
  | nil => exact .inl h
  | cons m' ms ih =>
    rcases ih h with h | ⟨m'', hm'', heq⟩
    · rcases mem_insertMember h with rfl | h
      · exact .inr ⟨m', List.mem_cons_self, rfl⟩
      · exact .inl h
    · exact .inr ⟨m'', List.mem_cons_of_mem _ hm'', heq⟩

/-- A member of the normal form is in normal form. -/
theorem mem_normalMembers {ms : List (String × Value)} {m : String × Value}
    (h : m ∈ normalMembers [] ms) : ∃ m' ∈ ms, m.2 = m'.2.normal := by
  rw [normalMembers_eq_foldl] at h
  exact (mem_foldl_insertMember h).resolve_left List.not_mem_nil

theorem ordered_normalMembers (ms : List (String × Value)) : Ordered (normalMembers [] ms) := by
  rw [normalMembers_eq_foldl]
  exact Ordered.foldl_insertMember _ _ ms List.Pairwise.nil

theorem normalMembers_of_ordered {ms : List (String × Value)} (hordered : Ordered ms)
    (hnormal : ∀ m ∈ ms, m.2.normal = m.2) : normalMembers [] ms = ms := by
  rw [normalMembers_eq_foldl, List.foldl_ext _ (fun acc m => insertMember m.1 m.2 acc) [] ?_]
  · exact foldl_insertMember hordered
  · intro acc m hm
    rw [hnormal m hm]

theorem normal_normal (v : Value) : v.normal.normal = v.normal := by
  induction v using induct with
  | null => rfl
  | bool b => rfl
  | number n => rfl
  | string s => rfl
  | array items ih =>
    simp only [normal, normalItems_eq_map, List.map_map, array.injEq]
    exact List.map_congr_left ih
  | object members ih =>
    rw [normal, normal, normalMembers_of_ordered (ordered_normalMembers members)]
    intro m hm
    obtain ⟨m', hm', heq⟩ := mem_normalMembers hm
    rw [heq, ih m' hm']

theorem depth_normal_le (v : Value) : v.normal.depth ≤ v.depth := by
  induction v using induct with
  | null => exact Nat.le_refl _
  | bool b => exact Nat.le_refl _
  | number n => exact Nat.le_refl _
  | string s => exact Nat.le_refl _
  | array items ih =>
    have hitems := depth_array_le.mp (Nat.le_refl (itemDepth items + 1))
    rw [normal, normalItems_eq_map]
    refine depth_array_le.mpr fun v hv => ?_
    obtain ⟨v', hv', rfl⟩ := List.mem_map.mp hv
    exact Nat.le_trans (ih v' hv') (hitems v' hv')
  | object members ih =>
    have hmembers := depth_object_le.mp (Nat.le_refl (memberDepth members + 1))
    rw [normal]
    refine depth_object_le.mpr fun m hm => ?_
    obtain ⟨m', hm', heq⟩ := mem_normalMembers hm
    rw [heq]
    exact Nat.le_trans (ih m' hm') (hmembers m' hm')

theorem mem_numbers_normal {v : Value} {n : Number} (h : n ∈ v.normal.numbers) : n ∈ v.numbers := by
  induction v using induct with
  | null => exact h
  | bool b => exact h
  | number m => exact h
  | string s => exact h
  | array items ih =>
    rw [normal, normalItems_eq_map] at h
    obtain ⟨v, hv, hn⟩ := mem_numbers_array.mp h
    obtain ⟨v', hv', rfl⟩ := List.mem_map.mp hv
    exact mem_numbers_array.mpr ⟨v', hv', ih v' hv' hn⟩
  | object members ih =>
    rw [normal] at h
    obtain ⟨m, hm, hn⟩ := mem_numbers_object.mp h
    obtain ⟨m', hm', heq⟩ := mem_normalMembers hm
    exact mem_numbers_object.mpr ⟨m', hm', ih m' hm' (heq ▸ hn)⟩

/-- Only null is null in normal form. -/
theorem normal_eq_null {v : Value} (h : v.normal = .null) : v = .null := by
  cases v with
  | null => rfl
  | bool b => cases h
  | number n => cases h
  | string s => cases h
  | array items => cases h
  | object members => cases h

end Value

end Flowscript.Json
