/-
The table of names as a whole.

Names are given out in the order of the ids, so an id finds the names of the smaller ids taken and no
others.  `Finds` is the search for a name with no bound on it: one candidate is tried after the other
until one is free.

* `finds_firstFree` — the search ends, and where;
* `assign_append`, `assign_extends` — a table only grows, and at its end;
* `mem_names_iff` — the names that are taken when the turn of an id comes;
* `names_by_search` — what the table of a workflow is.
-/
import Flowscript.Proofs.Reference.Names

namespace Flowscript

namespace Names

/-! ### The search for a name -/

/-- Trying the candidates one after the other, from the `n`-th on, ends with a name. -/
inductive Finds (base : String) (taken : String → Prop) : Nat → String → Prop
  | free {n : Nat} (free : ¬taken (candidate base n)) : Finds base taken n (candidate base n)
  | next {n : Nat} {name : String} (old : taken (candidate base n))
      (later : Finds base taken (n + 1) name) : Finds base taken n name

theorem Finds.of_least {base : String} {taken : String → Prop} {n : Nat}
    (hfree : ¬taken (candidate base n)) (hold : ∀ m < n, taken (candidate base m)) :
    Finds base taken 0 (candidate base n) := by
  -- from the free candidate back to the first one
  have hback : ∀ d ≤ n, Finds base taken (n - d) (candidate base n) := by
    intro d hd
    induction d with
    | zero => exact .free hfree
    | succ d ih =>
      refine .next (hold _ (by omega)) ?_
      rw [show n - (d + 1) + 1 = n - d by omega]
      exact ih (by omega)
  simpa using hback n (Nat.le_refl n)

/-- Whatever names are taken, the search ends, and with the first free candidate. -/
theorem finds_firstFree (base : String) (taken : List String) :
    Finds base (· ∈ taken) 0 (firstFree base taken) := by
  obtain ⟨n, -, heq, hfree, hold⟩ := firstFree_least base taken
  rw [heq]
  exact .of_least hfree hold

/-! ### Tables that grow -/

theorem assign_append (table : List (String × String)) (ids more : List String) :
    assign table (ids ++ more) = assign (assign table ids) more := by
  induction ids generalizing table with
  | nil => rfl
  | cons id ids ih => exact ih _

theorem assign_extends (table : List (String × String)) (ids : List String) :
    table <+: assign table ids := by
  induction ids generalizing table with
  | nil => exact List.prefix_rfl
  | cons id ids ih => exact (List.prefix_append table _).trans (ih _)

section Table

variable {ids : List String}

theorem variableOf_eq_of_mem {id name : String} (h : (id, name) ∈ (ofIds ids).table) :
    (ofIds ids).variableOf id = name := by
  have hkeys := (ofIds_given ids).keys
  have hid : id ∈ ids := mem_sortedSet.mp (hkeys ▸ List.mem_map_of_mem h)
  have hnodup : ((ofIds ids).table.map Prod.fst).Nodup := hkeys ▸ nodup_sortedSet ids
  have := List.inj_on_of_nodup_map hnodup (mem_table hid) h rfl
  exact congrArg Prod.snd this

/-- The table up to some id holds the names of the smaller ids. -/
theorem mem_names_iff {before after : List String} {id name : String}
    (h : sortedSet ids = before ++ id :: after) :
    name ∈ (assign [] before).map Prod.snd ↔
      ∃ v ∈ ids, v < id ∧ (ofIds ids).variableOf v = name := by
  have hkeys : (assign [] before).map Prod.fst = before := (given_assign before).keys
  have hsub : ∀ entry ∈ assign [] before, entry ∈ (ofIds ids).table := by
    intro entry hentry
    rw [ofIds, h, assign_append]
    exact (assign_extends _ _).mem hentry
  have hbefore : ∀ v, v ∈ before ↔ v ∈ ids ∧ v < id := by
    have hsorted := sortedSet_increasing ids
    rw [h, List.pairwise_append, List.pairwise_cons] at hsorted
    obtain ⟨-, ⟨hafter, -⟩, hless⟩ := hsorted
    intro v
    rw [← mem_sortedSet (l := ids), h, List.mem_append, List.mem_cons]
    constructor
    · exact fun hv => ⟨.inl hv, hless v hv id List.mem_cons_self⟩
    · rintro ⟨hv | rfl | hv, hlt⟩
      · exact hv
      · exact absurd hlt (String.lt_irrefl v)
      · exact absurd hlt (String.lt_asymm (hafter v hv))
  constructor
  · intro hname
    obtain ⟨⟨v, _⟩, hentry, rfl⟩ := List.mem_map.mp hname
    obtain ⟨hv, hlt⟩ := (hbefore v).mp (hkeys ▸ List.mem_map_of_mem hentry)
    exact ⟨v, hv, hlt, variableOf_eq_of_mem (hsub _ hentry)⟩
  · rintro ⟨v, hv, hlt, rfl⟩
    obtain ⟨⟨u, name⟩, hentry, rfl⟩ := List.mem_map.mp (hkeys ▸ (hbefore v).mpr ⟨hv, hlt⟩)
    rw [variableOf_eq_of_mem (hsub _ hentry)]
    exact List.mem_map_of_mem hentry

/-- An id gets the first candidate that no smaller id has got. -/
theorem finds_variableOf {id : String} (h : id ∈ ids) :
    Finds (plain id) (fun name => ∃ v ∈ ids, v < id ∧ (ofIds ids).variableOf v = name) 0
      ((ofIds ids).variableOf id) := by
  obtain ⟨before, after, hsplit⟩ := List.append_of_mem (mem_sortedSet.mpr h)
  have hentry : (id, firstFree (plain id) ((assign [] before).map Prod.snd)) ∈
      (ofIds ids).table := by
    rw [ofIds, hsplit, assign_append, assign]
    exact (assign_extends _ _).mem (by simp)
  have htaken : (fun name => ∃ v ∈ ids, v < id ∧ (ofIds ids).variableOf v = name) =
      (· ∈ (assign [] before).map Prod.snd) :=
    funext fun name => propext (mem_names_iff hsplit).symm
  rw [htaken, variableOf_eq_of_mem hentry]
  exact finds_firstFree _ _

-- the number behind one name makes it the plain name of another id
example : (ofIds ["a_1_2", "a_1", "a-1"]).table =
    [("a-1", "step_a_1"), ("a_1", "step_a_1_2"), ("a_1_2", "step_a_1_2_2")] := by
  decide +kernel

end Table

end Names

/-- The names of a workflow: different ids have different ones; each is `step_` and letters, digits,
`_` and `$`; the search for the name of an id ends, with the first candidate that is not the name of a
smaller id; and the table depends on nothing but which ids there are. -/
theorem names_by_search (w : Workflow) :
    (∀ u ∈ w.nodes.map Node.id, ∀ v ∈ w.nodes.map Node.id, u ≠ v →
      (Names.ofWorkflow w).variableOf u ≠ (Names.ofWorkflow w).variableOf v) ∧
    (∀ id ∈ w.nodes.map Node.id, ∃ rest,
      ((Names.ofWorkflow w).variableOf id).toList = "step_".toList ++ rest ∧
        ∀ c ∈ rest, c.isAlpha = true ∨ c.isDigit = true ∨ c = '_' ∨ c = '$') ∧
    (∀ id ∈ w.nodes.map Node.id, Names.Finds (Names.plain id)
      (fun name => ∃ v ∈ w.nodes.map Node.id, v < id ∧ (Names.ofWorkflow w).variableOf v = name) 0
      ((Names.ofWorkflow w).variableOf id)) ∧
    ∀ w' : Workflow, (∀ id, id ∈ w'.nodes.map Node.id ↔ id ∈ w.nodes.map Node.id) →
      Names.ofWorkflow w' = Names.ofWorkflow w := by
  refine ⟨fun u hu v hv hne heq => hne (Names.variableOf_inj hu hv heq), fun id _ => ?_,
    fun id hid => Names.finds_variableOf hid, fun w' hids => ?_⟩
  · obtain ⟨rest, hchars, hrest⟩ := Names.variableOf_chars (w.nodes.map Node.id) id
    refine ⟨rest, hchars, fun c hc => ?_⟩
    simpa [Text.isIdentChar, Char.isAlphanum, or_assoc] using hrest c hc
  · rw [Names.ofWorkflow, Names.ofIds, sortedSet_congr hids]
    rfl

end Flowscript
