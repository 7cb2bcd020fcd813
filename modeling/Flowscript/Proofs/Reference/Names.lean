/-
The names of the variables.

* `firstFree_least` — among as many candidates as names are taken, and one more, the first free
  one is found;
* `variableOf_inj` — different nodes have different variables;
* `variableOf_chars` — a variable is `step_` and characters of identifiers.
-/
import Flowscript.Proofs.Sorting
import Flowscript.Reference.Names
import Mathlib.Data.List.Nodup
import Mathlib.Data.List.Perm.Subperm

namespace Flowscript

namespace Names

theorem candidate_injective (base : String) : Function.Injective (candidate base) := by
  intro m n h
  have hchars : ∀ k, (candidate base k).toList =
      base.toList ++ if k = 0 then [] else '_' :: (toString (k + 1)).toList := by
    intro k
    rw [candidate]
    split <;> simp [String.toList_append, List.append_assoc]
  have := congrArg String.toList h
  rw [hchars, hchars, List.append_cancel_left_eq] at this
  split at this <;> split at this
  · omega
  · simp at this
  · simp at this
  · have hdigits := (List.cons.inj this).2
    rw [Nat.toString_eq_ofList_toDigits, Nat.toString_eq_ofList_toDigits, String.toList_ofList,
      String.toList_ofList] at hdigits
    simpa using congrArg (Nat.ofDigitChars 10 · 0) hdigits

/-- Of as many candidates as names are taken, and one more, the first free one is found. -/
theorem firstFree_least (base : String) (taken : List String) : ∃ n ≤ taken.length,
    firstFree base taken = candidate base n ∧ candidate base n ∉ taken ∧
      ∀ m < n, candidate base m ∈ taken := by
  have hfound : ∃ c ∈ (List.range (taken.length + 1)).map (candidate base), c ∉ taken := by
    by_contra hcon
    -- more different candidates than there are names taken
    have hsub : (List.range (taken.length + 1)).map (candidate base) ⊆ taken := by
      intro c hc
      by_contra hnot
      exact hcon ⟨c, hc, hnot⟩
    have hnodup : ((List.range (taken.length + 1)).map (candidate base)).Nodup :=
      List.nodup_range.map (candidate_injective base)
    have hlength := (List.subperm_of_subset hnodup hsub).length_le
    rw [List.length_map, List.length_range] at hlength
    omega
  obtain ⟨c, hc⟩ := Option.isSome_iff_exists.mp (List.find?_isSome.mpr
    (by simpa using hfound : ∃ c ∈ (List.range (taken.length + 1)).map (candidate base),
      (!taken.contains c) = true))
  have hfree : firstFree base taken = c := by rw [firstFree, hc, Option.getD_some]
  obtain ⟨hnot, n, hn, hget, hbefore⟩ := List.find?_eq_some_iff_getElem.mp hc
  rw [List.length_map, List.length_range] at hn
  rw [List.getElem_map, List.getElem_range] at hget
  refine ⟨n, by omega, hfree.trans hget.symm, hget ▸ by simpa using hnot, fun m hm => ?_⟩
  simpa using hbefore m hm

theorem firstFree_cases (base : String) (taken : List String) :
    firstFree base taken ∉ taken ∧ ∃ n, firstFree base taken = candidate base n := by
  obtain ⟨n, -, heq, hnot, -⟩ := firstFree_least base taken
  rw [heq]
  exact ⟨hnot, n, rfl⟩

/-- Names that were given out. -/
structure Given (table : List (String × String)) (ids : List String) : Prop where
  keys : table.map Prod.fst = ids
  nodup : (table.map Prod.snd).Nodup
  named : ∀ entry ∈ table, ∃ n, entry.2 = candidate (plain entry.1) n

theorem assign_given {ids : List String} : ∀ {table done}, Given table done →
    Given (assign table ids) (done ++ ids) := by
  induction ids with
  | nil =>
    intro table done h
    rwa [assign, List.append_nil]
  | cons id ids ih =>
    intro table done h
    obtain ⟨hfree, n, hn⟩ := firstFree_cases (plain id) (table.map Prod.snd)
    rw [assign, List.append_cons done id ids]
    refine ih ⟨by rw [List.map_append, h.keys]; rfl, ?_, ?_⟩
    · rw [List.map_append, List.nodup_append]
      refine ⟨h.nodup, List.nodup_singleton _, ?_⟩
      intro name hname last hlast heq
      rw [heq, List.mem_singleton.mp hlast] at hname
      exact hfree hname
    · intro entry hentry
      rcases List.mem_append.mp hentry with hentry | hentry
      · exact h.named entry hentry
      · exact ⟨n, by rw [List.mem_singleton.mp hentry, hn]⟩

theorem given_assign (ids : List String) : Given (assign [] ids) ids := by
  have hempty : Given [] [] := ⟨rfl, .nil, by simp⟩
  exact assign_given hempty

theorem ofIds_given (ids : List String) : Given (ofIds ids).table (sortedSet ids) :=
  given_assign _

theorem mem_table {ids : List String} {id : String} (h : id ∈ ids) :
    (id, (ofIds ids).variableOf id) ∈ (ofIds ids).table := by
  have hkey : id ∈ (ofIds ids).table.map Prod.fst :=
    (ofIds_given ids).keys ▸ mem_sortedSet.mpr h
  obtain ⟨name, hname⟩ : ∃ name, (ofIds ids).table.lookup id = some name := by
    rw [← Option.isSome_iff_exists, List.lookup_isSome_iff]
    simpa using hkey
  obtain ⟨earlier, later, htable, -⟩ := List.lookup_eq_some_iff.mp hname
  rw [variableOf, hname, Option.getD_some, htable]
  simp

/-- Different nodes have different variables. -/
theorem variableOf_inj {ids : List String} {u v : String} (hu : u ∈ ids) (hv : v ∈ ids)
    (h : (ofIds ids).variableOf u = (ofIds ids).variableOf v) : u = v := by
  have := List.inj_on_of_nodup_map (ofIds_given ids).nodup (mem_table hu) (mem_table hv) h
  exact congrArg Prod.fst this

/-! ### Characters of names -/

theorem mem_identChars {cs : List Char} {c : Char} (h : c ∈ Text.identChars cs) :
    Text.isIdentChar c = true := by
  have hmap : ∀ c ∈ cs.map fun c => if Text.isIdentChar c then c else '_',
      Text.isIdentChar c = true := by
    intro c hc
    obtain ⟨d, -, rfl⟩ := List.mem_map.mp hc
    split
    · assumption
    · decide
  rw [Text.identChars] at h
  split at h
  · rcases List.mem_cons.mp h with rfl | h
    · decide
    · exact hmap c h
  · exact hmap c h

theorem isIdentChar_toString (n : Nat) : ∀ c ∈ (toString n).toList, Text.isIdentChar c = true := by
  intro c hc
  rw [Nat.toString_eq_ofList_toDigits, String.toList_ofList] at hc
  have := Nat.isDigit_of_mem_toDigits (by decide) (by decide) hc
  simp [Text.isIdentChar, Char.isAlphanum, this]

theorem candidate_chars (id : String) (n : Nat) : ∃ rest,
    (candidate (plain id) n).toList = "step_".toList ++ rest ∧
      ∀ c ∈ rest, Text.isIdentChar c = true := by
  have hplain : (plain id).toList = "step_".toList ++ Text.identChars id.toList := by
    simp [plain, Text.toIdentifier, String.toList_append]
  rw [candidate]
  split
  · exact ⟨_, hplain, fun c => mem_identChars⟩
  · refine ⟨Text.identChars id.toList ++ '_' :: (toString (n + 1)).toList, ?_, fun c hc => ?_⟩
    · simp [String.toList_append, hplain, List.append_assoc]
    · rcases List.mem_append.mp hc with hc | hc
      · exact mem_identChars hc
      · rcases List.mem_cons.mp hc with rfl | hc
        · decide
        · exact isIdentChar_toString _ c hc

/-- A variable is `step_` and characters of identifiers. -/
theorem variableOf_chars (ids : List String) (id : String) : ∃ rest,
    ((ofIds ids).variableOf id).toList = "step_".toList ++ rest ∧
      ∀ c ∈ rest, Text.isIdentChar c = true := by
  rw [variableOf]
  rcases hname : (ofIds ids).table.lookup id with _ | name
  · exact candidate_chars id 0
  · obtain ⟨earlier, later, htable, -⟩ := List.lookup_eq_some_iff.mp hname
    obtain ⟨n, hn⟩ := (ofIds_given ids).named (id, name) (by simp [htable])
    rw [Option.getD_some]
    rw [show name = candidate (plain id) n from hn]
    exact candidate_chars id n

theorem isIdentChar_variableOf (w : Workflow) (id : String) :
    ∀ c ∈ ((ofWorkflow w).variableOf id).toList, Text.isIdentChar c = true := by
  obtain ⟨rest, hchars, hrest⟩ := variableOf_chars (w.nodes.map Node.id) id
  rw [ofWorkflow, hchars]
  exact List.forall_mem_append.mpr ⟨List.all_eq_true.mp (by decide), hrest⟩

end Names

end Flowscript
