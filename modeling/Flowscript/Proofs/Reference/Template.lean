/-
What the placeholders of a template read.

The expression that a placeholder becomes starts with a variable: the value that the program is
called with, or the variable of a node.  `Workflow.Reads` says that some template of a node becomes
an expression which starts with the variable of another node.

* `lookup_ok` — where the expression of a placeholder comes from;
* `resolveTokens_cons` — what is made of a token;
* `refers_of_reads` — a node reads only variables of nodes that it can refer to.
-/
import Flowscript.Proofs.Reference.Ancestor
import Flowscript.Proofs.Reference.Names
import Flowscript.Reference.Template

namespace Flowscript

/-- The variable that an expression starts with. -/
def leadingVariable (expression : String) : String :=
  String.ofList (expression.toList.takeWhile Text.isIdentChar)

/-- A template of the node `v` can read the variable of the node `u`. -/
def Workflow.Reads (w : Workflow) (v u : String) : Prop :=
  ∃ text placeholder accessor, .ref placeholder accessor ∈ (w.resolve v text).parts ∧
    leadingVariable accessor = (Names.ofWorkflow w).variableOf u

/-! ### Expressions -/

/-- A text that goes on behind an identifier without being part of it. -/
def Breaks (text : String) : Prop := ∀ c ∈ text.toList.head?, Text.isIdentChar c = false

theorem leadingVariable_append {name text : String}
    (hname : ∀ c ∈ name.toList, Text.isIdentChar c = true) (htext : Breaks text) :
    leadingVariable (name ++ text) = name := by
  rw [leadingVariable, String.toList_append, List.takeWhile_append_of_pos hname]
  have hnone : text.toList.takeWhile Text.isIdentChar = [] := by
    rcases hchars : text.toList with _ | ⟨c, cs⟩
    · rfl
    · exact List.takeWhile_cons_of_neg (by simp [htext c (by simp [hchars])])
  rw [hnone, List.append_nil, String.ofList_toList]

/-- Property accesses one after the other. -/
def accesses (path : List String) : String := String.join (path.map memberAccess)

theorem accesses_cons (name : String) (path : List String) :
    accesses (name :: path) = memberAccess name ++ accesses path := by
  rw [accesses, List.map_cons, String.join_cons, accesses]

theorem accessPath_eq (path : List String) :
    Resolver.accessPath path = accesses (path.map Text.trim) := by
  rw [Resolver.accessPath, accesses, List.map_map, Function.comp_def]

theorem breaks_memberAccess (name text : String) : Breaks (memberAccess name ++ text) := by
  rw [Breaks, memberAccess]
  split <;> simp [String.toList_append, Text.isIdentChar]

theorem breaks_accesses (path : List String) : Breaks (accesses path) := by
  cases path with
  | nil => simp [Breaks, accesses]
  | cons name path =>
    rw [accesses_cons]
    exact breaks_memberAccess _ _

/-! ### Placeholders -/

/-- The characters that a token was read from. -/
def Template.Token.source : Token → List Char
  | .text cs => cs
  | .placeholder inner => '\x7b' :: '\x7b' :: (inner ++ ['\x7d', '\x7d'])
  | .nested => ['\x7b', '\x7b']
  | .unterminated rest => '\x7b' :: '\x7b' :: rest

namespace Resolver

variable {r : Resolver}

/-- The expression of a placeholder is the input, or the variable of a node that can be referred to,
and accesses behind it. -/
theorem lookup_ok {inner : List Char} {accessor : String} (h : r.lookup inner = .ok accessor) :
    (∃ path, accessor = inputName ++ accesses path) ∨
      ∃ x ∈ r.ancestors, x.isInput = false ∧
        ∃ path, accessor = r.names.variableOf x.nodeId ++ accesses path := by
  simp only [lookup, accessPath_eq] at h
  generalize Text.trim (((Text.pieces '.' (Text.dropOuterBlanks inner)).map String.ofList).headD "")
    = head at h
  generalize ((Text.pieces '.' (Text.dropOuterBlanks inner)).map String.ofList).drop 1 = path at h
  split at h
  · simp at h
  · split at h
    · exact .inl ⟨_, (Except.ok.inj h).symm⟩
    · split at h
      · simp at h
      · rename_i x hfind
        obtain ⟨hinput, rfl⟩ : x.isInput = false ∧ x.nodeId = head := by
          simpa using List.find?_some hfind
        refine .inr ⟨x, List.mem_of_find?_eq_some hfind, hinput, ?_⟩
        split at h
        · rename_i field rest _
          split at h
          · refine ⟨Text.trim field :: rest.map Text.trim, ?_⟩
            rw [accesses_cons, ← String.append_assoc]
            exact (Except.ok.inj h).symm
          · simp at h
        · split at h
          · rename_i only _
            refine ⟨[only], ?_⟩
            rw [accesses_cons, accesses, List.map_nil, String.join_nil, String.append_empty]
            exact (Except.ok.inj h).symm
          · simp at h

theorem mem_consLit {text placeholder accessor : String} {parts : List Part} :
    .ref placeholder accessor ∈ consLit text parts ↔ .ref placeholder accessor ∈ parts := by
  rw [consLit.eq_def]
  split
  · simp
  · split <;> simp

theorem ofList_source_placeholder (inner : List Char) :
    String.ofList (Template.Token.placeholder inner).source = placeholderText inner := by
  rw [← String.toList_inj]
  simp [Template.Token.source, placeholderText]

/-- A token becomes an expression, or what it was read from becomes literal text. -/
theorem resolveTokens_cons (r : Resolver) (t : Template.Token) (ts : List Template.Token) :
    (∃ inner accessor, t = .placeholder inner ∧ r.lookup inner = .ok accessor ∧
      (r.resolveTokens (t :: ts)).1 =
        .ref (placeholderText inner) accessor :: (r.resolveTokens ts).1) ∨
    (r.resolveTokens (t :: ts)).1 = consLit (String.ofList t.source) (r.resolveTokens ts).1 := by
  rw [resolveTokens]
  cases t with
  | text cs => exact .inr rfl
  | nested => exact .inr rfl
  | unterminated rest =>
    have hsource : String.ofList (Template.Token.unterminated rest).source =
        "\x7b\x7b" ++ String.ofList rest := by
      rw [← String.toList_inj]
      simp [Template.Token.source]
    rw [hsource]
    exact .inr rfl
  | placeholder inner =>
    rw [ofList_source_placeholder]
    cases hlookup : r.lookup inner with
    | error fault =>
      right
      simp only [hlookup]
    | ok accessor =>
      left
      exact ⟨inner, accessor, rfl, hlookup, by simp only [hlookup]⟩

/-- Every placeholder that was replaced is one of the text and was looked up. -/
theorem lookup_of_ref {placeholder accessor : String} {ts : List Template.Token}
    (h : .ref placeholder accessor ∈ (r.resolveTokens ts).1) :
    ∃ inner, .placeholder inner ∈ ts ∧ placeholder = placeholderText inner ∧
      r.lookup inner = .ok accessor := by
  induction ts with
  | nil => simp [resolveTokens] at h
  | cons t ts ih =>
    have hlater : .ref placeholder accessor ∈ (r.resolveTokens ts).1 → _ := fun h =>
      (ih h).imp fun inner hinner => And.imp_left (List.mem_cons_of_mem t) hinner
    rcases r.resolveTokens_cons t ts with ⟨inner, found, rfl, hlookup, hparts⟩ | hparts
    · rw [hparts, List.mem_cons, Part.ref.injEq] at h
      rcases h with ⟨rfl, rfl⟩ | h
      · exact ⟨inner, List.mem_cons_self, rfl, hlookup⟩
      · exact hlater h
    · rw [hparts, mem_consLit] at h
      exact hlater h

end Resolver

namespace Workflow

variable {w : Workflow}

/-- A node reads only variables of nodes that it can refer to. -/
theorem refers_of_reads {v u : String} (hu : u ∈ (Graph.ofWorkflow w).ids) (h : w.Reads v u) :
    w.Refers v u := by
  obtain ⟨text, placeholder, accessor, hpart, hvariable⟩ := h
  obtain ⟨inner, -, -, hlookup⟩ := Resolver.lookup_of_ref hpart
  rcases Resolver.lookup_ok hlookup with ⟨path, rfl⟩ | ⟨x, hx, hinput, path, rfl⟩
  · -- no variable of a node is called like the input
    rw [leadingVariable_append (List.all_eq_true.mp (by decide)) (breaks_accesses path)] at hvariable
    obtain ⟨rest, hrest, -⟩ := Names.variableOf_chars (w.nodes.map Node.id) u
    rw [← Names.ofWorkflow, ← hvariable] at hrest
    simp [inputName] at hrest
  · have hident : ∀ c ∈ ((Names.ofWorkflow w).variableOf x.nodeId).toList,
        Text.isIdentChar c = true := Names.isIdentChar_variableOf w x.nodeId
    refine ⟨x, hx, hinput, ?_⟩
    rw [leadingVariable_append hident (breaks_accesses path)] at hvariable
    refine Names.variableOf_inj ?_ (by simpa using hu) hvariable
    simpa using mem_ids_of_ancestor hx hinput

end Workflow

end Flowscript
