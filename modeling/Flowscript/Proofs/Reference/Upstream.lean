/-
What placeholders stand for, by the edges of a workflow.

A placeholder is a list of names with dots between them.  `Workflow.Denotes` says which expression
the names stand for as seen from a node, and `Workflow.LeftAsIs` when they stand for none.  Both
speak of ways along the edges and of the fields that nodes offer, not of a search:

* `Workflow.refers_iff_upstream` — a node can refer to the other nodes with a way to it;
* `Workflow.lookup_cases` — a placeholder is looked up exactly if it is not left as it is, and then
  it becomes what it denotes;
* `Template.openers_iff` — where the placeholders of a text are, and which openers begin none;
* `resolve_refs` — the references of a resolved text are the placeholders of the text that denote
  something, and there is one warning for each of the others and for each opener without an end.
-/
import Flowscript.Proofs.Reference.Lossless
import Flowscript.Proofs.Reference.Nearest
import Flowscript.Proofs.Text.Trim

open Relation

namespace Flowscript

/-! ### Placeholders and what they denote -/

namespace Template

/-- The names in a placeholder: what stands between its dots, without the blanks around it. -/
def segments (inner : List Char) : List String :=
  (Text.pieces '.' inner).map fun piece => Text.trim (String.ofList piece)

/-- What stands between the braces, if the token is a placeholder. -/
def Token.inner? : Token → Option (List Char)
  | .placeholder inner => some inner
  | _ => none

/-- Opening braces that begin no placeholder. -/
def Token.isMalformed : Token → Bool
  | .nested => true
  | .unterminated _ => true
  | _ => false

/-- The placeholders of a text, in order. -/
def placeholders (cs : List Char) : List (List Char) := (tokens cs).filterMap Token.inner?

end Template

/-- A placeholder that was replaced, with its expression. -/
def Part.ref? : Part → Option (String × String)
  | .lit _ => none
  | .ref placeholder accessor => some (placeholder, accessor)

/-- The placeholders that were replaced, each with its expression. -/
def Resolved.refs (r : Resolved) : List (String × String) := r.parts.filterMap Part.ref?

namespace Workflow

/-- There is a way along edges from `u` to another node `v`. -/
def Upstream (w : Workflow) (v u : String) : Prop := u ≠ v ∧ ReflTransGen w.Feeds u v

/-- What the names in a placeholder stand for, as seen from the node `v`: the input, or a field of a
node upstream, and properties of these. -/
inductive Denotes (w : Workflow) (v : String) : List String → String → Prop
  | input (path : List String) : Denotes w v (inputName :: path) (inputName ++ accesses path)
  | field {u : String} {n : Node} {field : String} (path : List String) (other : u ≠ inputName)
    (upstream : w.Upstream v u) (node : w.node? u = some n) (offered : field ∈ n.fieldNames) :
    Denotes w v (u :: field :: path)
      ((Names.ofWorkflow w).variableOf u ++ memberAccess field ++ accesses path)
  | only {u : String} {n : Node} {field : String} (other : u ≠ inputName)
    (upstream : w.Upstream v u) (node : w.node? u = some n) (offered : n.fieldNames = [field]) :
    Denotes w v [u] ((Names.ofWorkflow w).variableOf u ++ memberAccess field)

/-- Why the names in a placeholder stand for nothing, as seen from the node `v`. -/
inductive LeftAsIs (w : Workflow) (v : String) : List String → Prop
  | blank {names : List String} (mem : "" ∈ names) : LeftAsIs w v names
  | notUpstream {head : String} {path : List String} (other : head ≠ inputName)
    (away : ¬w.Upstream v head) : LeftAsIs w v (head :: path)
  | noField {u : String} {n : Node} {field : String} {path : List String} (other : u ≠ inputName)
    (node : w.node? u = some n) (missing : field ∉ n.fieldNames) : LeftAsIs w v (u :: field :: path)
  | ambiguous {u : String} {n : Node} (other : u ≠ inputName) (node : w.node? u = some n)
    (several : n.fieldNames.length ≠ 1) : LeftAsIs w v [u]

/-- What the templates of a node are resolved against. -/
def resolver (w : Workflow) (v : String) : Resolver := ⟨v, w.ancestors v, Names.ofWorkflow w⟩

variable {w : Workflow} {u v : String}

/-! ### Nodes upstream -/

theorem feeds_iff_next : w.Feeds u v ↔ (Graph.ofWorkflow w).Next u v := by
  rw [Feeds, sources_eq, List.mem_map, Graph.Next]
  simp only [Graph.mem_incoming]
  constructor
  · rintro ⟨l, ⟨hl, htarget⟩, hsource⟩
    exact ⟨l, hl, hsource, htarget⟩
  · rintro ⟨l, hl, hsource, htarget⟩
    exact ⟨l, ⟨hl, htarget⟩, hsource⟩

/-- A node can refer to the other nodes with a way to it, and an unknown one to none. -/
theorem refers_iff_upstream : w.Refers v u ↔ w.Upstream v u := by
  have hways : w.Feeds = (Graph.ofWorkflow w).Next := by
    funext x y
    exact propext feeds_iff_next
  by_cases hv : v ∈ (Graph.ofWorkflow w).ids
  · rw [refers_iff hv, Upstream, hways]
  · constructor
    · rintro ⟨x, hx, hinput, -⟩
      have hfound := (node_of_ancestor hx hinput).2
      have hnone : (Graph.ofWorkflow w).leadingTo v = [] :=
        if_neg fun hmem => hv (List.contains_iff_mem.mp hmem)
      rw [hnone] at hfound
      exact absurd hfound List.not_mem_nil
    · rintro ⟨hne, hway⟩
      obtain heq | ⟨x, -, hfeeds⟩ := hway.cases_tail
      · exact absurd heq.symm hne
      · exact absurd (Graph.mem_ids.mpr (List.mem_map.mp hfeeds.known.2)) hv

theorem ofNode_of_ancestor {x : Ancestor} (hx : x ∈ w.ancestors v) (hinput : x.isInput = false) :
    ∃ n, w.node? x.nodeId = some n ∧ x = Ancestor.ofNode n := by
  rcases List.mem_append.mp hx with hx | hx
  · obtain ⟨y, -, hx⟩ := List.mem_filterMap.mp hx
    obtain ⟨n, hn, rfl⟩ := Option.map_eq_some_iff.mp hx
    refine ⟨n, ?_, rfl⟩
    rwa [← (node?_eq_some hn).2] at hn
  · rw [List.mem_singleton.mp hx] at hinput
    exact absurd hinput (by decide)

/-- An id is found among the ancestors exactly if the node is upstream. -/
theorem find_ancestor (w : Workflow) (v u : String) :
    (∃ n, w.Upstream v u ∧ w.node? u = some n ∧
      ((w.ancestors v).find? fun a => !a.isInput && a.nodeId == u) = some (.ofNode n)) ∨
    ¬w.Upstream v u ∧ ((w.ancestors v).find? fun a => !a.isInput && a.nodeId == u) = none := by
  rcases hfind : (w.ancestors v).find? fun a => !a.isInput && a.nodeId == u with _ | x
  · refine .inr ⟨fun hup => ?_, hfind⟩
    obtain ⟨x, hx, hinput, hid⟩ := refers_iff_upstream.mpr hup
    have := List.find?_eq_none.mp hfind x hx
    simp [hinput, hid] at this
  · obtain ⟨hinput, rfl⟩ : x.isInput = false ∧ x.nodeId = u := by
      simpa using List.find?_some hfind
    have hx := List.mem_of_find?_eq_some hfind
    obtain ⟨n, hn, hxn⟩ := ofNode_of_ancestor hx hinput
    exact .inl ⟨n, refers_iff_upstream.mp ⟨x, hx, hinput, rfl⟩, hn, hxn ▸ hfind⟩

/-! ### Looking up -/

theorem segments_eq (inner : List Char) : ∃ head path,
    (Text.pieces '.' (Text.dropOuterBlanks inner)).map String.ofList = head :: path ∧
      Template.segments inner = (head :: path).map Text.trim := by
  obtain ⟨p, ps, hps, -⟩ := Text.pieces_append_left (List.not_mem_nil (a := '.'))
    (Text.dropOuterBlanks inner)
  refine ⟨String.ofList p, ps.map String.ofList, by rw [hps, List.map_cons], ?_⟩
  have htrim : ∀ qs : List (List Char), (qs.map fun q => Text.trim (String.ofList q)) =
      (qs.map Text.dropOuterBlanks).map String.ofList := by
    intro qs
    simp [Text.trim]
  rw [Template.segments, htrim, ← Text.map_trim_pieces (by decide), hps, ← htrim]
  simp

theorem isEmptyOrBlank_iff {s : String} : Text.isEmptyOrBlank s = true ↔ Text.trim s = "" := by
  rw [Text.isEmptyOrBlank, List.all_eq_true, ← Text.dropOuterBlanks_eq_nil_iff, Text.trim]
  simp

/-- Names without a blank one among them do not both denote something and stand for nothing. -/
theorem Denotes.not_leftAsIs {names : List String} {accessor : String}
    (h : w.Denotes v names accessor) (hblank : "" ∉ names) : ¬w.LeftAsIs v names := by
  intro hleft
  cases h with
  | input path =>
    cases hleft with
    | blank mem => exact hblank mem
    | notUpstream other _ => exact other rfl
    | noField other _ _ => exact other rfl
    | ambiguous other _ _ => exact other rfl
  | field path other upstream node offered =>
    cases hleft with
    | blank mem => exact hblank mem
    | notUpstream _ away => exact away upstream
    | noField _ node' missing => exact missing (Option.some.inj (node.symm.trans node') ▸ offered)
  | only other upstream node offered =>
    cases hleft with
    | blank mem => exact hblank mem
    | notUpstream _ away => exact away upstream
    | ambiguous _ node' several =>
      rw [← Option.some.inj (node.symm.trans node'), offered] at several
      exact several rfl

/-- A placeholder is left as it is, or becomes what it denotes. -/
theorem lookup_cases (w : Workflow) (v : String) (inner : List Char) :
    (w.LeftAsIs v (Template.segments inner) ∧ ∃ f, (w.resolver v).lookup inner = .error f) ∨
    (¬w.LeftAsIs v (Template.segments inner) ∧ ∃ accessor,
      w.Denotes v (Template.segments inner) accessor ∧
      (w.resolver v).lookup inner = .ok accessor) := by
  obtain ⟨head, path, hpieces, hsegments⟩ := segments_eq inner
  have hblank : ((Text.trim head).isEmpty || path.any Text.isEmptyOrBlank) = true ↔
      "" ∈ Text.trim head :: path.map Text.trim := by
    rw [Bool.or_eq_true, String.isEmpty_iff, List.any_eq_true, List.mem_cons, List.mem_map,
      @eq_comm _ "" _]
    simp only [isEmptyOrBlank_iff]
  rw [hsegments, List.map_cons]
  simp only [Resolver.lookup, hpieces, List.headD_cons, List.drop_succ_cons, List.drop_zero,
    accessPath_eq]
  by_cases hempty : "" ∈ Text.trim head :: path.map Text.trim
  · rw [if_pos (hblank.mpr hempty)]
    exact .inl ⟨.blank hempty, _, rfl⟩
  rw [if_neg (mt hblank.mp hempty)]
  -- without blank names, what is denoted excludes that the placeholder is left
  have hdenotes : ∀ accessor, w.Denotes v (Text.trim head :: path.map Text.trim) accessor →
      ¬w.LeftAsIs v (Text.trim head :: path.map Text.trim) := fun _ h => h.not_leftAsIs hempty
  by_cases hinput : Text.trim head = inputName
  · rw [if_pos hinput]
    have hd : w.Denotes v (Text.trim head :: path.map Text.trim)
        (inputName ++ accesses (path.map Text.trim)) := by
      rw [hinput]
      exact .input _
    exact .inr ⟨hdenotes _ hd, _, hd, rfl⟩
  rw [if_neg hinput]
  rcases find_ancestor w v (Text.trim head) with ⟨n, hup, hn, hfind⟩ | ⟨haway, hfind⟩
  · simp only [resolver, hfind]
    cases path with
    | nil =>
      rcases hfields : (Ancestor.ofNode n).fields with _ | ⟨only, _ | ⟨second, more⟩⟩
      · refine .inl ⟨.ambiguous hinput hn ?_, _, rfl⟩
        rw [show n.fieldNames = [] from hfields]
        decide
      · have hd := Denotes.only hinput hup hn hfields
        exact .inr ⟨hdenotes _ hd, _, hd, rfl⟩
      · refine .inl ⟨.ambiguous hinput hn ?_, _, rfl⟩
        rw [show n.fieldNames = only :: second :: more from hfields]
        simp
    | cons field rest =>
      dsimp only
      by_cases hfield : Text.trim field ∈ (Ancestor.ofNode n).fields
      · rw [if_pos (List.contains_iff_mem.mpr hfield)]
        have hd := Denotes.field (rest.map Text.trim) hinput hup hn hfield
        exact .inr ⟨hdenotes _ hd, _, hd, rfl⟩
      · rw [if_neg (mt List.contains_iff_mem.mp hfield)]
        exact .inl ⟨.noField hinput hn hfield, _, rfl⟩
  · simp only [resolver, hfind]
    exact .inl ⟨.notUpstream hinput haway, _, rfl⟩

instance (w : Workflow) (v : String) (inner : List Char) :
    Decidable (w.LeftAsIs v (Template.segments inner)) :=
  decidable_of_iff (((w.resolver v).lookup inner).toOption = none) <| by
    rcases lookup_cases w v inner with ⟨hleft, f, hf⟩ | ⟨hleft, accessor, -, hok⟩
    · simp [hf, hleft, Except.toOption]
    · simp [hok, hleft, Except.toOption]

end Workflow

/-! ### Scanning a text -/

namespace Template

/-- Where the placeholders of a text are, and how many of its openers begin none; said of the text
itself and not of a scan.  The first two opening braces are an opener.  Up to the first two closing
braces behind it there is a placeholder, unless another brace stands between; then the opener begins
none, and what stands right behind it is looked at.  An opener with no closing braces behind it
begins none either, and there is nothing more in the text. -/
inductive Openers : List Char → List (List Char) → Nat → Prop
  | plain {cs : List Char} (none : ¬['\x7b', '\x7b'] <:+: cs) : Openers cs [] 0
  | placeholder {before inner rest : List Char} {inners : List (List Char)} {n : Nat}
    (first : Closed before) (free : BraceFree inner) (more : Openers rest inners n) :
    Openers (before ++ '\x7b' :: '\x7b' :: (inner ++ '\x7d' :: '\x7d' :: rest)) (inner :: inners) n
  | nested {before inner rest : List Char} {inners : List (List Char)} {n : Nat}
    (first : Closed before) (ends : ¬['\x7d', '\x7d'] <:+: inner ++ ['\x7d'])
    (brace : ¬BraceFree inner) (more : Openers (inner ++ '\x7d' :: '\x7d' :: rest) inners n) :
    Openers (before ++ '\x7b' :: '\x7b' :: (inner ++ '\x7d' :: '\x7d' :: rest)) inners (n + 1)
  | unterminated {before after : List Char} (first : Closed before)
    (never : ¬['\x7d', '\x7d'] <:+: after) : Openers (before ++ '\x7b' :: '\x7b' :: after) [] 1

theorem textToken_append (cs : List Char) (ts : List Token) :
    (textToken cs ++ ts).filterMap Token.inner? = ts.filterMap Token.inner? ∧
      (textToken cs ++ ts).countP Token.isMalformed = ts.countP Token.isMalformed := by
  rw [textToken]
  split
  · exact ⟨rfl, rfl⟩
  · exact ⟨rfl, List.countP_cons_of_neg Bool.false_ne_true⟩

/-- Every text has its placeholders and its other openers. -/
theorem exists_openers (cs : List Char) : ∃ inners n, Openers cs inners n := by
  -- by induction on the length, because behind an opener that begins none only the opener is left out
  induction hlength : cs.length using Nat.strongRecOn generalizing cs with
  | _ length ih =>
    rcases hopen : cutAtPair '\x7b' cs with _ | ⟨before, after⟩
    · exact ⟨_, _, .plain (cutAtPair_eq_none_iff.mp hopen)⟩
    obtain ⟨rfl, hbefore⟩ := cutAtPair_eq_some_iff.mp hopen
    rcases hclose : cutAtPair '\x7d' after with _ | ⟨inner, rest⟩
    · exact ⟨_, _, .unterminated hbefore (cutAtPair_eq_none_iff.mp hclose)⟩
    obtain ⟨rfl, hend⟩ := cutAtPair_eq_some_iff.mp hclose
    simp only [List.length_append, List.length_cons] at hlength
    by_cases hfree : BraceFree inner
    · obtain ⟨inners, n, hrest⟩ := ih rest.length (by omega) rest rfl
      exact ⟨_, _, .placeholder hbefore hfree hrest⟩
    · obtain ⟨inners, n, hmore⟩ := ih (inner ++ '\x7d' :: '\x7d' :: rest).length
        (by simp only [List.length_append, List.length_cons]; omega) _ rfl
      exact ⟨_, _, .nested hbefore hend hfree hmore⟩

theorem tokens_of_openers {cs : List Char} {inners : List (List Char)} {n : Nat}
    (h : Openers cs inners n) :
    placeholders cs = inners ∧ (tokens cs).countP Token.isMalformed = n := by
  induction h with
  | @plain cs none =>
    have happend := textToken_append cs []
    rwa [List.append_nil, ← tokens_of_notInfix none] at happend
  | @placeholder before inner rest inners n first free _ ih =>
    obtain ⟨hinner, hcount⟩ := textToken_append before (.placeholder inner :: tokens rest)
    rw [placeholders, tokens_append_placeholder first free, hinner, hcount,
      List.countP_cons_of_neg Bool.false_ne_true]
    exact ⟨congrArg (inner :: ·) ih.1, ih.2⟩
  | @nested before inner rest inners n first ends brace _ ih =>
    obtain ⟨hinner, hcount⟩ :=
      textToken_append before (.nested :: tokens (inner ++ '\x7d' :: '\x7d' :: rest))
    rw [placeholders, tokens_append_nested first ends brace, hinner, hcount,
      List.countP_cons_of_pos rfl]
    exact ⟨ih.1, congrArg (· + 1) ih.2⟩
  | @unterminated before after first never =>
    obtain ⟨hinner, hcount⟩ := textToken_append before [.unterminated after]
    rw [placeholders, tokens_append_unterminated first never, hinner, hcount]
    exact ⟨rfl, rfl⟩

/-- The placeholders of a text, and the openers of it that begin none, are as `Openers` says. -/
theorem openers_iff {cs : List Char} {inners : List (List Char)} {n : Nat} :
    Openers cs inners n ↔
      placeholders cs = inners ∧ (tokens cs).countP Token.isMalformed = n := by
  refine ⟨tokens_of_openers, ?_⟩
  rintro ⟨rfl, rfl⟩
  obtain ⟨inners, n, h⟩ := exists_openers cs
  obtain ⟨hinners, hn⟩ := tokens_of_openers h
  rwa [hinners, hn]

end Template

/-! ### Resolving a text -/

namespace Resolver

open Template

/-- What is wrong with a token. -/
def fault? (r : Resolver) : Token → Option ReferenceFault
  | .text _ => none
  | .placeholder inner =>
    match r.lookup inner with
    | .ok _ => none
    | .error f => some f
  | .nested => some (.nestedBraces "\x7b\x7b")
  | .unterminated rest => some (.unterminated ("\x7b\x7b" ++ String.ofList rest))

/-- What replaces a placeholder, with the placeholder. -/
def ref? (r : Resolver) (inner : List Char) : Option (String × String) :=
  (r.lookup inner).toOption.map (Prod.mk (placeholderText inner))

theorem faults_resolveTokens (r : Resolver) (ts : List Token) :
    (r.resolveTokens ts).2 = ts.filterMap r.fault? := by
  induction ts with
  | nil => rfl
  | cons t ts ih =>
    rw [resolveTokens, List.filterMap_cons, ← ih]
    cases t with
    | text cs => rfl
    | nested => rfl
    | unterminated rest => rfl
    | placeholder inner => cases hlookup : r.lookup inner <;> simp only [hlookup, fault?]

theorem refs_consLit (text : String) (parts : List Part) :
    (consLit text parts).filterMap Part.ref? = parts.filterMap Part.ref? := by
  rw [consLit.eq_def]
  split
  · rfl
  · split <;> rfl

theorem refs_resolveTokens (r : Resolver) (ts : List Token) :
    (r.resolveTokens ts).1.filterMap Part.ref? =
      (ts.filterMap Token.inner?).filterMap r.ref? := by
  induction ts with
  | nil => rfl
  | cons t ts ih =>
    cases t with
    | text cs => exact (refs_consLit _ _).trans ih
    | nested => exact (refs_consLit _ _).trans ih
    | unterminated rest => exact (refs_consLit _ _).trans ih
    | placeholder inner =>
      have hinner : (Token.placeholder inner :: ts).filterMap Token.inner? =
          inner :: ts.filterMap Token.inner? := rfl
      rw [resolveTokens, hinner, List.filterMap_cons, ← ih, ref?]
      cases hlookup : r.lookup inner with
      | ok accessor =>
        simp only [hlookup]
        rfl
      | error f =>
        simp only [hlookup]
        exact refs_consLit _ _

/-- A placeholder that cannot be looked up is a fault, and so is an opener that begins none. -/
theorem length_faults (r : Resolver) (ts : List Token) :
    (ts.filterMap r.fault?).length =
      (ts.filterMap Token.inner?).countP (fun inner => (r.ref? inner).isNone) +
        ts.countP Token.isMalformed := by
  induction ts with
  | nil => rfl
  | cons t ts ih =>
    rw [List.filterMap_cons, List.filterMap_cons, List.countP_cons]
    cases t with
    | text cs => exact ih
    | nested => exact congrArg (· + 1) ih
    | unterminated rest => exact congrArg (· + 1) ih
    | placeholder inner =>
      rw [fault?]
      cases hlookup : r.lookup inner with
      | ok accessor => simp [Token.inner?, Token.isMalformed, ref?, hlookup, Except.toOption, ih]
      | error f =>
        simp [Token.inner?, Token.isMalformed, ref?, hlookup, Except.toOption, ih,
          Nat.add_right_comm]

end Resolver

/-- Where some members of a list are mapped to something, the results are those of these members. -/
theorem forall₂_filter_filterMap {α β : Type} {R : α → β → Prop} {keep : α → Bool}
    {f : α → Option β} {l : List α} (hkeep : ∀ x ∈ l, keep x = true → ∃ y, f x = some y ∧ R x y)
    (hdrop : ∀ x ∈ l, keep x = false → f x = none) :
    List.Forall₂ R (l.filter keep) (l.filterMap f) := by
  induction l with
  | nil => exact .nil
  | cons x l ih =>
    have ih := ih (fun y hy => hkeep y (List.mem_cons_of_mem _ hy))
      fun y hy => hdrop y (List.mem_cons_of_mem _ hy)
    cases hx : keep x with
    | true =>
      obtain ⟨y, hy, hR⟩ := hkeep x List.mem_cons_self hx
      rw [List.filter_cons_of_pos hx, List.filterMap_cons_some hy]
      exact .cons hR ih
    | false =>
      rw [List.filter_cons_of_neg (by simp [hx]),
        List.filterMap_cons_none (hdrop x List.mem_cons_self hx)]
      exact ih

/-- As seen from a node, the references of a resolved text are its placeholders that are not left as
they are, in order, and each has become what it denotes; all else in the text is kept.  There is one
warning for each placeholder that is left and one for each opener that begins none; `Template.Openers`
says of the text which these are. -/
theorem resolve_refs (w : Workflow) (v text : String) :
    List.Forall₂
      (fun inner ref => ref.1 = Resolver.placeholderText inner ∧
        w.Denotes v (Template.segments inner) ref.2)
      ((Template.placeholders text.toList).filter fun inner =>
        ¬w.LeftAsIs v (Template.segments inner))
      (w.resolve v text).refs ∧
    String.join ((w.resolve v text).parts.map Part.source) = text ∧
    (w.resolve v text).warnings.length =
      (Template.placeholders text.toList).countP
        (fun inner => w.LeftAsIs v (Template.segments inner)) +
      (Template.tokens text.toList).countP Template.Token.isMalformed ∧
    Template.Openers text.toList (Template.placeholders text.toList)
      ((Template.tokens text.toList).countP Template.Token.isMalformed) := by
  have hleft : ∀ inner, (w.resolver v).ref? inner = none ↔
      w.LeftAsIs v (Template.segments inner) := by
    intro inner
    rcases w.lookup_cases v inner with ⟨hleft, f, hf⟩ | ⟨hleft, accessor, -, hok⟩
    · exact iff_of_true (by rw [Resolver.ref?, hf]; rfl) hleft
    · exact iff_of_false (by rw [Resolver.ref?, hok]; exact Option.some_ne_none _) hleft
  have hrefs : (w.resolve v text).refs =
      (Template.placeholders text.toList).filterMap (w.resolver v).ref? :=
    (w.resolver v).refs_resolveTokens _
  have hwarnings : (w.resolve v text).warnings.length =
      ((w.resolver v).resolveTokens (Template.tokens text.toList)).2.length := List.length_map _
  have hcount : (Template.placeholders text.toList).countP
        (fun inner => ((w.resolver v).ref? inner).isNone) =
      (Template.placeholders text.toList).countP
        fun inner => w.LeftAsIs v (Template.segments inner) :=
    List.countP_congr fun inner _ => by
      rw [Option.isNone_iff_eq_none, hleft, decide_eq_true_iff]
  refine ⟨?_, (w.resolver v).join_source_resolve text, ?_, Template.openers_iff.mpr ⟨rfl, rfl⟩⟩
  · rw [hrefs]
    refine forall₂_filter_filterMap (fun inner _ hkeep => ?_) fun inner _ hdrop => ?_
    · obtain ⟨hkept, -⟩ | ⟨-, accessor, hdenotes, hok⟩ := w.lookup_cases v inner
      · exact absurd hkept (by simpa using hkeep)
      · exact ⟨_, by rw [Resolver.ref?, hok]; rfl, rfl, hdenotes⟩
    · exact (hleft inner).mpr (by simpa using hdrop)
  · rw [hwarnings, Resolver.faults_resolveTokens, Resolver.length_faults, ← hcount]
    rfl

end Flowscript
