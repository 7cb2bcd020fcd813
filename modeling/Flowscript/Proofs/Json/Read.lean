/-
Values and their sources.

A value that does not nest too deep is read back from its source.  What is read from a source
does not nest deeper than the room that there was, and as every integer found in a text fits
64 bits, so does every integer of a value that is read from it.

* `read_source` — reading a value back;
* `within_of_read` — what is known of a value that was read;
* `fits_ofText` — what is known of the integers in a text.
-/
import Flowscript.Proofs.Json.Number
import Flowscript.Proofs.Json.Value

namespace Flowscript.Json

section Lists

variable {ε α β : Type} {f : α → Except ε β}

/-- Whatever is read from a list was read from one of its items. -/
theorem exists_of_mapM {l : List α} {l' : List β} (h : l.mapM f = .ok l') {b : β} (hb : b ∈ l') :
    ∃ a ∈ l, f a = .ok b := by
  induction l generalizing l' with
  | nil =>
    cases h
    cases hb
  | cons a l ih =>
    rw [List.mapM_cons] at h
    obtain ⟨b', hb', h⟩ := bind_eq_ok.mp h
    obtain ⟨bs, hbs, h⟩ := bind_eq_ok.mp h
    cases h
    rcases List.mem_cons.mp hb with rfl | hb
    · exact ⟨a, List.mem_cons_self, hb'⟩
    · obtain ⟨a', ha', hfa'⟩ := ih hbs hb
      exact ⟨a', List.mem_cons_of_mem _ ha', hfa'⟩

/-- A list is read back if each of its items is. -/
theorem mapM_map {g : β → α} {l : List β} (h : ∀ b ∈ l, f (g b) = .ok b) :
    (l.map g).mapM f = .ok l := by
  induction l with
  | nil => rfl
  | cons b l ih =>
    rw [List.map_cons, List.mapM_cons, h b List.mem_cons_self,
      ih fun b hb => h b (List.mem_cons_of_mem _ hb)]
    rfl

end Lists

namespace Value

/-- A value that nests at most `room` arrays and objects, with integers that fit. -/
def Within (room : Nat) (v : Value) : Prop := v.depth ≤ room ∧ ∀ n ∈ v.numbers, n.Fits

variable {room : Nat}

@[simp] theorem within_null : Value.null.Within room :=
  ⟨Nat.zero_le _, fun _ hn => absurd hn List.not_mem_nil⟩

@[simp] theorem within_bool (b : Bool) : (Value.bool b).Within room :=
  ⟨Nat.zero_le _, fun _ hn => absurd hn List.not_mem_nil⟩

@[simp] theorem within_string (s : String) : (Value.string s).Within room :=
  ⟨Nat.zero_le _, fun _ hn => absurd hn List.not_mem_nil⟩

theorem within_number {n : Number} (h : n.Fits) : (Value.number n).Within room := by
  refine ⟨Nat.zero_le _, fun m hm => ?_⟩
  rw [List.mem_singleton.mp hm]
  exact h

theorem within_array {items : List Value} :
    (Value.array items).Within (room + 1) ↔ ∀ v ∈ items, v.Within room := by
  rw [Within, depth_array_le]
  constructor
  · rintro ⟨hdepth, hfits⟩ v hv
    exact ⟨hdepth v hv, fun n hn => hfits n (mem_numbers_array.mpr ⟨v, hv, hn⟩)⟩
  · intro h
    refine ⟨fun v hv => (h v hv).1, fun n hn => ?_⟩
    obtain ⟨v, hv, hn⟩ := mem_numbers_array.mp hn
    exact (h v hv).2 n hn

theorem within_object {members : List (String × Value)} :
    (Value.object members).Within (room + 1) ↔ ∀ m ∈ members, m.2.Within room := by
  rw [Within, depth_object_le]
  constructor
  · rintro ⟨hdepth, hfits⟩ m hm
    exact ⟨hdepth m hm, fun n hn => hfits n (mem_numbers_object.mpr ⟨m, hm, hn⟩)⟩
  · intro h
    refine ⟨fun m hm => (h m hm).1, fun n hn => ?_⟩
    obtain ⟨m, hm, hn⟩ := mem_numbers_object.mp hn
    exact (h m hm).2 n hn

theorem Within.normal {v : Value} (h : v.Within room) : v.normal.Within room :=
  ⟨Nat.le_trans (depth_normal_le v) h.1, fun n hn => h.2 n (mem_numbers_normal hn)⟩

end Value

namespace Source

theorem induct {P : Source → Prop} (null : P .null) (bool : ∀ b, P (.bool b))
    (number : ∀ n, P (.number n)) (string : ∀ s, P (.string s))
    (array : ∀ items ending, (∀ s ∈ items, P s) → P (.array items ending))
    (object : ∀ members ending, (∀ m ∈ members, P m.2) → P (.object members ending))
    (broken : ∀ begun read skip, P (.broken begun read skip)) (s : Source) : P s :=
  @Source.rec P (fun items => ∀ s ∈ items, P s) (fun members => ∀ m ∈ members, P m.2)
    (fun m => P m.2) null bool number string array object broken
    (fun _ h => absurd h List.not_mem_nil) (fun _ _ hs hl => List.forall_mem_cons.mpr ⟨hs, hl⟩)
    (fun _ h => absurd h List.not_mem_nil) (fun _ _ hm hl => List.forall_mem_cons.mpr ⟨hm, hl⟩)
    (fun _ _ _ h => h) s

/-- Reads the name and the value of a member. -/
def readMember (room : Nat) (m : Source × Source) : Except Flaw (String × Value) := do
  let n ← m.1.name
  let v ← m.2.read room
  return (n, v)

theorem readItems_eq_mapM (room : Nat) (items : List Source) :
    readItems room items = items.mapM (read room) := by
  induction items with
  | nil => rfl
  | cons s items ih => rw [readItems, ih, List.mapM_cons]

theorem readMembers_eq_mapM (room : Nat) (members : List (Source × Source)) :
    readMembers room members = members.mapM (readMember room) := by
  induction members with
  | nil => rfl
  | cons m members ih =>
    rw [readMembers, ih, List.mapM_cons, readMember]
    cases m.1.name with
    | error e => rfl
    | ok n => cases m.2.read room <;> rfl

theorem read_array_eq_ok {room : Nat} {items : List Source} {ending : Option Flaw} {v : Value}
    (h : (Source.array items ending).read room = .ok v) :
    ∃ k vs, room = k + 1 ∧ items.mapM (read k) = .ok vs ∧ v = .array vs := by
  cases room with
  | zero => cases h
  | succ k =>
    rw [read, readItems_eq_mapM] at h
    obtain ⟨vs, hvs, h⟩ := bind_eq_ok.mp h
    cases ending with
    | none =>
      cases h
      exact ⟨k, vs, rfl, hvs, rfl⟩
    | some f => cases h

theorem read_object_eq_ok {room : Nat} {members : List (Source × Source)} {ending : Option Flaw}
    {v : Value} (h : (Source.object members ending).read room = .ok v) :
    ∃ k ms, room = k + 1 ∧ members.mapM (readMember k) = .ok ms ∧ v = .object ms := by
  cases room with
  | zero => cases h
  | succ k =>
    rw [read, readMembers_eq_mapM] at h
    obtain ⟨ms, hms, h⟩ := bind_eq_ok.mp h
    cases ending with
    | none =>
      cases h
      exact ⟨k, ms, rfl, hms, rfl⟩
    | some f => cases h

theorem readMember_eq_ok {room : Nat} {m : Source × Source} {n : String × Value}
    (h : readMember room m = .ok n) : m.1.name = .ok n.1 ∧ m.2.read room = .ok n.2 := by
  obtain ⟨name, hname, h⟩ := bind_eq_ok.mp h
  obtain ⟨v, hv, h⟩ := bind_eq_ok.mp h
  cases h
  exact ⟨hname, hv⟩

/-- A value is read back if there is room for it. -/
theorem read_source {v : Value} {room : Nat} (h : v.depth ≤ room) : v.source.read room = .ok v := by
  induction v using Value.induct generalizing room with
  | null => rfl
  | bool b => rfl
  | number n => rfl
  | string s => rfl
  | array items ih =>
    obtain ⟨k, rfl⟩ := Nat.exists_eq_add_of_le' (Nat.le_trans (Value.depth_pos_of_array items) h)
    have hitems : (items.map Value.source).mapM (read k) = .ok items :=
      mapM_map fun v hv => ih v hv (Value.depth_array_le.mp h v hv)
    rw [Value.source, itemSources_eq_map, read, readItems_eq_mapM, hitems]
    rfl
  | object members ih =>
    obtain ⟨k, rfl⟩ := Nat.exists_eq_add_of_le' (Nat.le_trans (Value.depth_pos_of_object members) h)
    have hmembers : (members.map fun m => (Source.string (.ok m.1), m.2.source)).mapM
        (readMember k) = .ok members := by
      refine mapM_map fun m hm => ?_
      rw [readMember, ih m hm (Value.depth_object_le.mp h m hm)]
      rfl
    rw [Value.source, memberSources_eq_map, read, readMembers_eq_mapM, hmembers]
    rfl

/-! ### Integers -/

mutual

/-- Every integer found fits 64 bits. -/
def Fits : Source → Prop
  | .number (.ok n) => n.Fits
  | .array items _ => FitItems items
  | .object members _ => FitMembers members
  | _ => True

def FitItems : List Source → Prop
  | [] => True
  | s :: rest => Fits s ∧ FitItems rest

def FitMembers : List (Source × Source) → Prop
  | [] => True
  | (_, s) :: rest => Fits s ∧ FitMembers rest

end

theorem fits_array {items : List Source} {ending : Option Flaw} :
    (Source.array items ending).Fits ↔ ∀ s ∈ items, s.Fits := by
  rw [Fits]
  induction items with
  | nil => simp [FitItems]
  | cons s items ih => simp [FitItems, ih]

theorem fits_object {members : List (Source × Source)} {ending : Option Flaw} :
    (Source.object members ending).Fits ↔ ∀ m ∈ members, m.2.Fits := by
  rw [Fits]
  induction members with
  | nil => simp [FitMembers]
  | cons m members ih => simp [FitMembers, ih]

/-- What is read fits into the room that there was. -/
theorem within_of_read {s : Source} (hs : s.Fits) {room : Nat} {v : Value}
    (h : s.read room = .ok v) : v.Within room := by
  induction s using induct generalizing room v with
  | null => cases h; exact Value.within_null
  | bool b => cases h; exact Value.within_bool b
  | number n =>
    cases n with
    | error f => cases h
    | ok n => cases h; exact Value.within_number hs
  | string t =>
    cases t with
    | error f => cases h
    | ok t => cases h; exact Value.within_string t
  | array items ending ih =>
    obtain ⟨k, vs, rfl, hvs, rfl⟩ := read_array_eq_ok h
    refine Value.within_array.mpr fun v hv => ?_
    obtain ⟨s, hmem, hread⟩ := exists_of_mapM hvs hv
    exact ih s hmem (fits_array.mp hs s hmem) hread
  | object members ending ih =>
    obtain ⟨k, ms, rfl, hms, rfl⟩ := read_object_eq_ok h
    refine Value.within_object.mpr fun m hm => ?_
    obtain ⟨m', hmem, hread⟩ := exists_of_mapM hms hm
    exact ih m' hmem (fits_object.mp hs m' hmem) (readMember_eq_ok hread).2
  | broken begun read skip => cases h

theorem fits_source {v : Value} (h : ∀ n ∈ v.numbers, n.Fits) : v.source.Fits := by
  induction v using Value.induct with
  | null => exact trivial
  | bool b => exact trivial
  | number n => exact h n (List.mem_singleton.mpr rfl)
  | string s => exact trivial
  | array items ih =>
    rw [Value.source, itemSources_eq_map]
    refine fits_array.mpr fun s hs => ?_
    obtain ⟨v, hv, rfl⟩ := List.mem_map.mp hs
    exact ih v hv fun n hn => h n (Value.mem_numbers_array.mpr ⟨v, hv, hn⟩)
  | object members ih =>
    rw [Value.source, memberSources_eq_map]
    refine fits_object.mpr fun s hs => ?_
    obtain ⟨m, hm, rfl⟩ := List.mem_map.mp hs
    exact ih m hm fun n hn => h n (Value.mem_numbers_object.mpr ⟨m, hm, hn⟩)

theorem fits_ofWord {begun : Begun} {found : Source} {ws cs : List Char} (h : found.Fits) :
    (ofWord begun found ws cs).1.Fits := by
  rw [ofWord]
  split
  · exact h
  · exact trivial

theorem fits_quoted (cs : List Char) : (quoted cs).1.Fits := by
  rw [quoted]
  split
  · exact trivial
  · split <;> exact trivial

theorem fits_ofNumeral (negative : Bool) (cs : List Char) : (ofNumeral negative cs).1.Fits := by
  rw [ofNumeral]
  split
  · next m after _ =>
    cases hn : readNumeral m with
    | error f => exact trivial
    | ok n => exact fits_of_readNumeral hn
  · exact trivial

/-- One value, its items or its members are found with one unit of fuel less for the parts. -/
theorem fits_scan (fuel : Nat) :
    (∀ cs, (scan fuel cs).1.Fits) ∧
      (∀ first cs, ∀ s ∈ (scanItems fuel first cs).1, s.Fits) ∧
      ∀ first cs, ∀ m ∈ (scanMembers fuel first cs).1, m.2.Fits := by
  induction fuel with
  | zero =>
    exact ⟨fun _ => trivial, fun _ _ _ h => absurd h List.not_mem_nil,
      fun _ _ _ h => absurd h List.not_mem_nil⟩
  | succ fuel ih =>
    obtain ⟨hvalue, hitems, hmembers⟩ := ih
    have hfound : ∀ {cs s r}, scan fuel cs = (s, r) → s.Fits := by
      intro cs s r heq
      have hfits := hvalue cs
      rw [heq] at hfits
      exact hfits
    refine ⟨fun cs => ?_, fun first cs s hs => ?_, fun first cs m hm => ?_⟩
    · rw [scan]
      split
      · exact trivial
      · refine fits_ofWord ?_
        exact trivial
      · refine fits_ofWord ?_
        exact trivial
      · refine fits_ofWord ?_
        exact trivial
      · exact fits_quoted _
      · exact fits_array.mpr (hitems _ _)
      · exact fits_object.mpr (hmembers _ _)
      · exact fits_ofNumeral _ _
      · split
        · exact fits_ofNumeral _ _
        · exact trivial
    · rw [scanItems] at hs
      split at hs
      · cases hs
      · cases hs
      · split at hs
        · split at hs
          · next heq =>
            rw [List.mem_singleton.mp hs]
            exact hfound heq
          · next heq =>
            rcases List.mem_cons.mp hs with rfl | hs
            · exact hfound heq
            · exact hitems _ _ s hs
        · cases hs
    · rw [scanMembers] at hm
      split at hm
      · cases hm
      · cases hm
      · split at hm
        · split at hm
          · split at hm
            · rw [List.mem_singleton.mp hm]
              exact trivial
            · split at hm
              · next heq =>
                rw [List.mem_singleton.mp hm]
                exact hfound heq
              · next heq =>
                rcases List.mem_cons.mp hm with rfl | hm
                · exact hfound heq
                · exact hmembers _ _ m hm
            · rw [List.mem_singleton.mp hm]
              exact trivial
          · rw [List.mem_singleton.mp hm]
            exact trivial
        · cases hm

theorem fits_ofText (text : String) : (ofText text).1.Fits := by
  have hscan := (fits_scan (2 * text.toList.length + 2)).1 text.toList
  rw [ofText]
  split
  · next heq => rw [heq] at hscan; exact hscan
  · next heq =>
    rw [heq] at hscan
    split <;> exact hscan

end Source

end Flowscript.Json
