/-
Resolving a resolved template changes nothing.

What replaces a placeholder has no opening brace if no field of a node upstream has one, so it can
be joined to the text around it without opening a placeholder.  The expression of a text whose
openers all begin placeholders has the placeholders that were left, and no other opener:

* `Template.Closed.append` — what is put behind a closed text leaves it closed, if it is closed itself;
* `Resolver.again` — the tokens of the expression have the faults of the tokens of the text;
* `resolve_again` — the expression is its own expression, with the same warnings.
-/
import Flowscript.Proofs.Reference.Upstream
import Flowscript.Proofs.Text.OneLine

namespace Flowscript

/-! ### Where braces open -/

namespace Template

variable {c : Char} {xs ys : List Char}

theorem pair_infix_append (h : [c, c] <:+: xs ++ ys) : [c, c] <:+: xs ++ [c] ∨ [c, c] <:+: ys := by
  induction xs with
  | nil => exact .inr h
  | cons x xs ih =>
    rcases List.infix_cons_iff.mp h with hfirst | hlater
    · left
      obtain ⟨rfl, hnext⟩ := List.cons_prefix_cons.mp hfirst
      refine List.IsPrefix.isInfix (List.cons_prefix_cons.mpr ⟨rfl, ?_⟩)
      cases xs with
      | nil => exact List.prefix_refl _
      | cons y xs =>
        obtain ⟨rfl, -⟩ := List.cons_prefix_cons.mp hnext
        exact List.cons_prefix_cons.mpr ⟨rfl, List.nil_prefix⟩
    · exact (ih hlater).imp_left fun hinfix => List.infix_cons hinfix

theorem Closed.notInfix (hx : Closed xs) (hy : ¬['\x7b', '\x7b'] <:+: ys) :
    ¬['\x7b', '\x7b'] <:+: xs ++ ys := fun h => (pair_infix_append h).elim hx hy

theorem Closed.append (hx : Closed xs) (hy : Closed ys) : Closed (xs ++ ys) := by
  rw [Closed, List.append_assoc]
  exact hx.notInfix hy

end Template

/-! ### What replaces a placeholder has no opening brace -/

theorem brace_notMem_escapeJson {c : Char} (h : c ≠ '\x7b') : '\x7b' ∉ Text.escapeJson c := by
  by_cases hsmall : c.toNat < 0x20
  · have hall : ∀ n < 0x20, '\x7b' ∉ Text.escapeJson (Char.ofNat n) := by decide
    exact Char.ofNat_toNat c ▸ hall c.toNat hsmall
  · rw [Text.escapeJson, if_neg hsmall]
    repeat' split
    all_goals simp [h.symm]

theorem brace_notMem_memberAccess {name : String} (h : '\x7b' ∉ name.toList) :
    '\x7b' ∉ (memberAccess name).toList := by
  rw [memberAccess]
  split
  · simpa [String.toList_append] using h
  · have hquote : '\x7b' ∉ (Text.quote name).toList := by
      rw [Text.quote, String.toList_ofList, Text.quoteWith]
      simp only [List.mem_cons, List.mem_append, List.mem_flatMap, List.not_mem_nil, or_false,
        not_or, not_exists, not_and]
      refine ⟨by decide, fun c hc => brace_notMem_escapeJson ?_, by decide⟩
      rintro rfl
      exact h hc
    simpa [String.toList_append] using hquote

theorem brace_notMem_accesses {path : List String} (h : ∀ name ∈ path, '\x7b' ∉ name.toList) :
    '\x7b' ∉ (accesses path).toList := by
  rw [accesses, String.toList_join, List.mem_flatMap]
  rintro ⟨s, hs, hmem⟩
  obtain ⟨name, hname, rfl⟩ := List.mem_map.mp hs
  exact brace_notMem_memberAccess (h name hname) hmem

theorem brace_notMem_variableOf (w : Workflow) (u : String) :
    '\x7b' ∉ ((Names.ofWorkflow w).variableOf u).toList := by
  intro hmem
  exact absurd (Names.isIdentChar_variableOf w u _ hmem) (by decide)

theorem brace_notMem_segments {inner : List Char} (h : Template.BraceFree inner) :
    ∀ name ∈ Template.segments inner, '\x7b' ∉ name.toList := by
  intro name hname hmem
  obtain ⟨piece, hpiece, rfl⟩ := List.mem_map.mp hname
  rw [Text.trim, String.toList_ofList, String.toList_ofList] at hmem
  exact h.1 (Text.mem_of_mem_pieces hpiece
    ((List.dropWhile_sublist _).mem (Text.mem_of_mem_dropEndBlanks hmem)))

theorem Workflow.Denotes.brace_notMem {w : Workflow} {v accessor : String} {names : List String}
    (h : w.Denotes v names accessor) (hnames : ∀ name ∈ names, '\x7b' ∉ name.toList)
    (hfields : ∀ u n, w.Upstream v u → w.node? u = some n →
      ∀ field ∈ n.fieldNames, '\x7b' ∉ field.toList) : '\x7b' ∉ accessor.toList := by
  cases h with
  | input path =>
    obtain ⟨-, hpath⟩ := List.forall_mem_cons.mp hnames
    rw [String.toList_append, List.mem_append, not_or]
    exact ⟨by decide, brace_notMem_accesses hpath⟩
  | field path other upstream node offered =>
    obtain ⟨-, hpath⟩ := List.forall_mem_cons.mp hnames
    obtain ⟨hfield, hpath⟩ := List.forall_mem_cons.mp hpath
    simp only [String.toList_append, List.mem_append, not_or]
    exact ⟨⟨brace_notMem_variableOf w _, brace_notMem_memberAccess hfield⟩,
      brace_notMem_accesses hpath⟩
  | only other upstream node offered =>
    rw [String.toList_append, List.mem_append, not_or]
    exact ⟨brace_notMem_variableOf w _, brace_notMem_memberAccess
      (hfields _ _ upstream node _ (offered ▸ List.mem_singleton_self _))⟩

/-! ### The expression and its tokens -/

namespace Resolver

open Template

variable {r : Resolver}

/-- What is made of a token. -/
def rendered (r : Resolver) : Token → List Char
  | .text cs => cs
  | .placeholder inner =>
    match r.lookup inner with
    | .ok accessor => accessor.toList
    | .error _ => (Token.placeholder inner).source
  | .nested => Token.nested.source
  | .unterminated rest => (Token.unterminated rest).source

theorem expression_consLit (text : String) (parts : List Part) (warnings : List Diagnostic) :
    (Resolved.mk (consLit text parts) warnings).expression =
      text ++ (Resolved.mk parts warnings).expression := by
  rw [consLit.eq_def]
  split
  · simp only [Resolved.expression, List.map_cons, String.join_cons, String.append_assoc]
  · split
    · rename_i hempty
      rw [String.isEmpty_iff.mp hempty, String.empty_append]
    · simp only [Resolved.expression, List.map_cons, String.join_cons]

theorem toList_expression (r : Resolver) (ts : List Token) (warnings : List Diagnostic) :
    (Resolved.mk (r.resolveTokens ts).1 warnings).expression.toList = ts.flatMap r.rendered := by
  induction ts with
  | nil => rfl
  | cons t ts ih =>
    rw [List.flatMap_cons, ← ih]
    have hlit : ∀ text : String,
        (Resolved.mk (consLit text (r.resolveTokens ts).1) warnings).expression.toList =
          text.toList ++ (Resolved.mk (r.resolveTokens ts).1 warnings).expression.toList := by
      intro text
      rw [expression_consLit, String.toList_append]
    rw [resolveTokens]
    cases t with
    | text cs => simpa [rendered] using hlit (String.ofList cs)
    | nested => exact hlit _
    | unterminated rest =>
      simpa [rendered, Token.source] using hlit ("\x7b\x7b" ++ String.ofList rest)
    | placeholder inner =>
      rw [rendered]
      cases hlookup : r.lookup inner with
      | ok accessor =>
        simp only [hlookup, Resolved.expression, List.map_cons, String.join_cons,
          String.toList_append]
      | error f =>
        simp only [hlookup]
        rw [hlit, ← ofList_source_placeholder, String.toList_ofList]

/-- A text in which nothing is replaced is its own expression. -/
theorem expression_eq_self {text : String} (h : (r.resolve text).refs = []) :
    (r.resolve text).expression = text := by
  have hlit : ∀ part ∈ (r.resolve text).parts, part.ref? = none := List.filterMap_eq_nil_iff.mp h
  rw [Resolved.expression]
  refine Eq.trans (congrArg String.join (List.map_congr_left fun part hpart => ?_))
    (r.join_source_resolve text)
  cases part with
  | lit text => rfl
  | ref placeholder accessor => exact absurd (hlit _ hpart) (Option.some_ne_none _)

theorem textToken_plain (r : Resolver) (cs : List Char) :
    (textToken cs).flatMap r.rendered = cs ∧ (textToken cs).filterMap r.fault? = [] ∧
      (textToken cs).filterMap Token.inner? = [] := by
  rw [textToken]
  split
  · rename_i hempty
    exact ⟨(List.isEmpty_iff.mp hempty).symm, rfl, rfl⟩
  · exact ⟨List.append_nil cs, rfl, rfl⟩

theorem fault?_of_isMalformed (r : Resolver) {t : Token} (h : t.isMalformed = true) :
    ∃ f, r.fault? t = some f ∧ f.code = "R005" := by
  cases t with
  | nested => exact ⟨_, rfl, rfl⟩
  | unterminated rest => exact ⟨_, rfl, rfl⟩
  | text cs => simp [Token.isMalformed] at h
  | placeholder inner => simp [Token.isMalformed] at h

/-- Behind a closed text, what is made of tokens has the faults of the tokens, and nothing in it can
be replaced. -/
theorem again (hlookup : ∀ inner accessor, BraceFree inner → r.lookup inner = .ok accessor →
      '\x7b' ∉ accessor.toList)
    {cs : List Char} (hcs : ∀ t ∈ tokens cs, t.isMalformed = false) {front : List Char}
    (hfront : Closed front) :
    (tokens (front ++ (tokens cs).flatMap r.rendered)).filterMap r.fault? =
        (tokens cs).filterMap r.fault? ∧
      ((tokens (front ++ (tokens cs).flatMap r.rendered)).filterMap Token.inner?).filterMap r.ref? =
        [] := by
  fun_induction tokens cs generalizing front with
  | case1 cs hcut =>
    obtain ⟨hrendered, hfaults, -⟩ := r.textToken_plain cs
    obtain ⟨-, hfaults', hinner'⟩ := r.textToken_plain (front ++ cs)
    rw [hrendered, tokens_of_notInfix (hfront.notInfix (cutAtPair_eq_none_iff.mp hcut)), hfaults,
      hfaults', hinner']
    exact ⟨rfl, rfl⟩
  | case2 cs before after hcut _ ihNested ihRest =>
    obtain ⟨hrendered, hfaults, -⟩ := r.textToken_plain before
    have hbefore := hfront.append (notInfix_of_cutAtPair hcut)
    revert hcs
    split
    · intro hcs
      exact absurd (hcs _ (List.mem_append_right _ List.mem_cons_self)) Bool.noConfusion
    · rename_i inner rest hclose
      dsimp only
      split
      · intro hcs
        exact absurd (hcs _ (List.mem_append_right _ List.mem_cons_self)) (by decide)
      · rename_i hbraces
        intro hcs
        have hinner := any_eq_false_iff.mp (Bool.eq_false_iff.mpr hbraces)
        have hrest : ∀ t ∈ tokens rest, t.isMalformed = false := fun t ht =>
          hcs t (List.mem_append_right _ (List.mem_cons_of_mem _ ht))
        rw [List.flatMap_append, hrendered, List.filterMap_append, hfaults, List.nil_append,
          List.flatMap_cons, List.filterMap_cons, rendered, fault?, ← List.append_assoc]
        cases hok : r.lookup inner with
        | ok accessor =>
          -- the expression is more of the closed text
          dsimp only
          rw [← List.append_assoc]
          exact ihRest inner rest hclose hrest
            (hbefore.append (notInfix_of_notMem (hlookup inner accessor hinner hok)))
        | error f =>
          -- the placeholder is found again, and behind it nothing is left open
          obtain ⟨-, hfaults', hinner'⟩ := r.textToken_plain (front ++ before)
          have hnil : Closed [] := notInfix_of_notMem List.not_mem_nil
          obtain ⟨ihFaults, ihRefs⟩ := ihRest inner rest hclose hrest hnil
          rw [List.nil_append] at ihFaults ihRefs
          have hsource : ∀ more, (Token.placeholder inner).source ++ more =
              '\x7b' :: '\x7b' :: (inner ++ '\x7d' :: '\x7d' :: more) := by simp [Token.source]
          dsimp only
          rw [hsource, tokens_append_placeholder hbefore hinner, List.filterMap_append, hfaults',
            List.nil_append, List.filterMap_cons, fault?, hok, List.filterMap_append, hinner',
            List.nil_append]
          refine ⟨congrArg (f :: ·) ihFaults, ?_⟩
          simpa [Token.inner?, ref?, hok, Except.toOption] using ihRefs

end Resolver

/-- If resolving a text as a template of a node raises no warning about openers, and no node
upstream has a field with an opening brace in its name, then the expression is resolved to itself:
nothing in it is replaced, and the warnings are the same. -/
theorem resolve_again (w : Workflow) (v text : String)
    (htext : ∀ d ∈ (w.resolve v text).warnings, d.code ≠ "R005")
    (hfields : ∀ u n, w.Upstream v u → w.node? u = some n →
      ∀ field ∈ n.fieldNames, '\x7b' ∉ field.toList) :
    (w.resolve v (w.resolve v text).expression).expression = (w.resolve v text).expression ∧
    (w.resolve v (w.resolve v text).expression).refs = [] ∧
    (w.resolve v (w.resolve v text).expression).warnings = (w.resolve v text).warnings := by
  have hlookup : ∀ inner accessor, Template.BraceFree inner →
      (w.resolver v).lookup inner = .ok accessor → '\x7b' ∉ accessor.toList := by
    intro inner accessor hinner hok
    obtain ⟨-, f, hf⟩ | ⟨-, found, hdenotes, hfound⟩ := w.lookup_cases v inner
    · rw [hok] at hf
      cases hf
    · rw [hok] at hfound
      cases hfound
      exact hdenotes.brace_notMem (brace_notMem_segments hinner) hfields
  have hplain : ∀ t ∈ Template.tokens text.toList, t.isMalformed = false := by
    intro t ht
    by_contra hmalformed
    obtain ⟨f, hf, hcode⟩ :=
      (w.resolver v).fault?_of_isMalformed (eq_true_of_ne_false hmalformed)
    have hfault : f ∈ ((w.resolver v).resolveTokens (Template.tokens text.toList)).2 := by
      rw [Resolver.faults_resolveTokens]
      exact List.mem_filterMap.mpr ⟨t, ht, hf⟩
    exact htext _ (List.mem_map_of_mem hfault) hcode
  obtain ⟨hfaults, hrefs⟩ := Resolver.again hlookup hplain
    (Template.notInfix_of_notMem List.not_mem_nil)
  rw [List.nil_append, ← (w.resolver v).toList_expression _ (w.resolve v text).warnings]
    at hfaults hrefs
  rw [← Resolver.faults_resolveTokens, ← Resolver.faults_resolveTokens] at hfaults
  rw [← Resolver.refs_resolveTokens] at hrefs
  exact ⟨Resolver.expression_eq_self hrefs, hrefs, congrArg (List.map _) hfaults⟩

/-- Documents are searched, a text is written about them, and both are put together. -/
def digestFlow : Workflow where
  nodes :=
    [ { id := "start", config := .trigger {} },
      { id := "search", config := .retrieval
          { outputFields := some [{ name := "documents" }, { name := "scores" }] } },
      { id := "write", config := .agent { prompt := "write" } },
      { id := "final", config := .agent { prompt := "final" } } ]
  edges :=
    [ { id := "e1", source := "start", target := "search" },
      { id := "e2", source := "search", target := "write" },
      { id := "e3", source := "write", target := "final" } ]

/-- A bare name of a node with two fields is left, between braces that open nothing and expressions,
and both times with a warning. -/
theorem resolve_again_digestFlow : ∃ first,
    first = digestFlow.resolve "final"
      "\x7b \x7b\x7bsearch.scores\x7d\x7d \x7b\x7bsearch\x7d\x7d\x7b\x7bwrite\x7d\x7d\x7d\x7d" ∧
    first.expression =
      "\x7b step_search.scores \x7b\x7bsearch\x7d\x7dstep_write.output\x7d\x7d" ∧
    first.warnings.map Diagnostic.code = ["R004"] ∧
    (digestFlow.resolve "final" first.expression).expression = first.expression ∧
    (digestFlow.resolve "final" first.expression).warnings = first.warnings := by
  refine ⟨_, rfl, by decide +kernel, by decide +kernel, ?_⟩
  have hplain : ∀ n ∈ digestFlow.nodes, ∀ field ∈ n.fieldNames, '\x7b' ∉ field.toList := by
    decide +kernel
  obtain ⟨hsame, -, hwarnings⟩ := resolve_again digestFlow "final"
    "\x7b \x7b\x7bsearch.scores\x7d\x7d \x7b\x7bsearch\x7d\x7d\x7b\x7bwrite\x7d\x7d\x7d\x7d"
    (by decide +kernel) fun u n _ hn => hplain n (Workflow.node?_eq_some hn).1
  exact ⟨hsame, hwarnings⟩

end Flowscript
