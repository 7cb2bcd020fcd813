/-
Resolving a template loses no text.

The scanner cuts a text into tokens, and what a token was read from is known from the token alone.
So the tokens of a text, one after the other, are the text again, and so are the parts that they
are resolved to, if a placeholder is counted as it was written:

* `Template.cutAtPair_eq_none_iff`, `cutAtPair_eq_some_iff` — where a text is cut;
* `Template.tokens_append_placeholder` and the like — the first tokens of a text with an opener;
* `Template.flatMap_source_tokens` — the tokens of a text make up the text;
* `Resolver.join_source_resolveTokens` — the resolved parts make up what the tokens do;
* `resolve_lossless` — what the parts of a resolved template look like.
-/
import Flowscript.Proofs.Reference.Template

namespace Flowscript

/-! ### Cutting -/

namespace Template

variable {c : Char} {cs before after : List Char}

theorem append_of_cutAtPair (h : cutAtPair c cs = some (before, after)) :
    cs = before ++ c :: c :: after := by
  fun_induction cutAtPair c cs generalizing before with
  | case1 x y rest hxy =>
    obtain ⟨rfl, rfl⟩ := Prod.mk.inj (Option.some.inj h)
    rw [hxy.1, hxy.2, List.nil_append]
  | case2 x y rest hxy ih =>
    simp only [Option.map_eq_some_iff, Prod.mk.injEq] at h
    obtain ⟨⟨b, a⟩, hab, rfl, rfl⟩ := h
    rw [List.cons_append, ← ih hab]
  | case3 => simp at h

/-- A text is cut wherever the character stands twice. -/
theorem cutAtPair_eq_none_iff : cutAtPair c cs = none ↔ ¬[c, c] <:+: cs := by
  fun_induction cutAtPair c cs with
  | case1 x y rest hxy =>
    obtain ⟨rfl, rfl⟩ := hxy
    simp only [reduceCtorEq, false_iff, not_not]
    exact ⟨[], rest, rfl⟩
  | case2 x y rest hxy ih =>
    have hfirst : ¬[c, c] <+: x :: y :: rest := by
      simpa [List.cons_prefix_cons, eq_comm] using hxy
    rw [Option.map_eq_none_iff, ih]
    exact not_congr ((or_iff_right hfirst).symm.trans List.infix_cons_iff.symm)
  | case3 cs hshort =>
    refine iff_of_true rfl fun hinfix => ?_
    have hlen := hinfix.length_le
    rcases cs with _ | ⟨x, _ | ⟨y, rest⟩⟩
    · simp at hlen
    · simp at hlen
    · exact hshort x y rest rfl

theorem notInfix_of_notMem (h : c ∉ before) : ¬[c, c] <:+: before ++ [c] := by
  intro hinfix
  have hcount := hinfix.sublist.count_le c
  rw [List.count_append, List.count_eq_zero_of_not_mem h] at hcount
  simp at hcount

theorem notInfix_of_cutAtPair (h : cutAtPair c cs = some (before, after)) :
    ¬[c, c] <:+: before ++ [c] := by
  fun_induction cutAtPair c cs generalizing before with
  | case1 x y rest hxy =>
    obtain ⟨rfl, -⟩ := Prod.mk.inj (Option.some.inj h)
    exact notInfix_of_notMem List.not_mem_nil
  | case2 x y rest hxy ih =>
    simp only [Option.map_eq_some_iff, Prod.mk.injEq] at h
    obtain ⟨⟨b, a⟩, hab, rfl, rfl⟩ := h
    intro hinfix
    rcases List.infix_cons_iff.mp hinfix with hfirst | hlater
    · -- the pair would be the first two characters
      have hrest : b ++ [c] <+: y :: rest :=
        ⟨c :: a, by rw [append_of_cutAtPair hab, List.append_assoc]; rfl⟩
      have hpair := hfirst.trans (List.cons_prefix_cons.mpr ⟨rfl, hrest⟩)
      obtain ⟨hx, hpair⟩ := List.cons_prefix_cons.mp hpair
      exact hxy ⟨hx.symm, (List.cons_prefix_cons.mp hpair).1.symm⟩
    · exact ih hab hlater
  | case3 => simp at h

theorem cutAtPair_of_notInfix (h : ¬[c, c] <:+: before ++ [c]) (after : List Char) :
    cutAtPair c (before ++ c :: c :: after) = some (before, after) := by
  induction before with
  | nil => simp [cutAtPair]
  | cons x before ih =>
    have hbefore : ¬[c, c] <:+: before ++ [c] := fun hinfix => h (List.infix_cons hinfix)
    have hstep : cutAtPair c (x :: (before ++ c :: c :: after)) =
        (cutAtPair c (before ++ c :: c :: after)).map fun found => (x :: found.1, found.2) := by
      cases before with
      | nil =>
        refine if_neg fun hx => h ?_
        rw [hx.1]
        exact List.infix_refl _
      | cons y before =>
        refine if_neg fun hxy => h ?_
        rw [hxy.1, hxy.2]
        exact ⟨[], before ++ [c], rfl⟩
    rw [List.cons_append, hstep, ih hbefore]
    rfl

/-- A text is cut at the first pair: none begins in what stands before. -/
theorem cutAtPair_eq_some_iff : cutAtPair c cs = some (before, after) ↔
    cs = before ++ c :: c :: after ∧ ¬[c, c] <:+: before ++ [c] := by
  constructor
  · exact fun h => ⟨append_of_cutAtPair h, notInfix_of_cutAtPair h⟩
  · rintro ⟨rfl, h⟩
    exact cutAtPair_of_notInfix h after

/-! ### Tokens -/

/-- A body of a placeholder, without braces. -/
def BraceFree (inner : List Char) : Prop := '\x7b' ∉ inner ∧ '\x7d' ∉ inner

instance (inner : List Char) : Decidable (BraceFree inner) := inferInstanceAs (Decidable (_ ∧ _))

theorem any_eq_false_iff {inner : List Char} :
    (inner.any fun c => c == '\x7b' || c == '\x7d') = false ↔ BraceFree inner := by
  simp only [List.any_eq_false, Bool.or_eq_true, beq_iff_eq, not_or, BraceFree]
  refine ⟨fun h => ⟨fun hmem => (h _ hmem).1 rfl, fun hmem => (h _ hmem).2 rfl⟩, fun h x hx => ?_⟩
  exact ⟨fun heq => h.1 (heq ▸ hx), fun heq => h.2 (heq ▸ hx)⟩

theorem flatMap_source_textToken (cs : List Char) : (textToken cs).flatMap Token.source = cs := by
  rw [textToken]
  split
  · rename_i hempty
    exact (List.isEmpty_iff.mp hempty).symm
  · exact List.append_nil cs

/-- The tokens of a text make up the text. -/
theorem flatMap_source_tokens (cs : List Char) : (tokens cs).flatMap Token.source = cs := by
  fun_induction tokens cs with
  | case1 cs hcut => exact flatMap_source_textToken cs
  | case2 cs before after hcut _ ihNested ihRest =>
    rw [List.flatMap_append, flatMap_source_textToken, append_of_cutAtPair hcut]
    congr 1
    split
    · rw [List.flatMap_singleton, Token.source]
    · rename_i inner rest hclose
      dsimp only
      split
      · rw [List.flatMap_cons, ihNested]
        rfl
      · rw [List.flatMap_cons, ihRest inner rest hclose, append_of_cutAtPair hclose]
        simp [Token.source]

theorem braceFree_of_mem_tokens {inner : List Char} (h : .placeholder inner ∈ tokens cs) :
    BraceFree inner := by
  have htext : ∀ {cs}, Token.placeholder inner ∉ textToken cs := by
    intro cs
    rw [textToken]
    split <;> simp
  fun_induction tokens cs with
  | case1 cs hcut => exact absurd h htext
  | case2 cs before after hcut _ ihNested ihRest =>
    have h := (List.mem_append.mp h).resolve_left htext
    split at h
    · simp at h
    · rename_i body rest hclose
      dsimp only at h
      split at h
      · exact ihNested ((List.mem_cons.mp h).resolve_left (by simp))
      · rename_i hbraces
        rcases List.mem_cons.mp h with heq | h
        · obtain rfl := Token.placeholder.inj heq
          exact any_eq_false_iff.mp (Bool.eq_false_iff.mpr hbraces)
        · exact ihRest body rest hclose h

/-- A text without opening braces is one token, if there is any text. -/
theorem tokens_of_notInfix (h : ¬['\x7b', '\x7b'] <:+: cs) : tokens cs = textToken cs := by
  have hnone := cutAtPair_eq_none_iff.mpr h
  rw [tokens]
  split
  · rfl
  · rename_i hcut
    rw [hnone] at hcut
    cases hcut

/-- The tokens of a text with an opener: what stands before it, and then what it begins. -/
theorem tokens_of_cutAtPair (hopen : cutAtPair '\x7b' cs = some (before, after)) :
    ∃ ts, tokens cs = textToken before ++ ts ∧
      (cutAtPair '\x7d' after = none → ts = [.unterminated after]) ∧
      ∀ inner rest, cutAtPair '\x7d' after = some (inner, rest) →
        (BraceFree inner → ts = .placeholder inner :: tokens rest) ∧
        (¬BraceFree inner → ts = .nested :: tokens after) := by
  rw [tokens]
  split
  · rename_i hcut
    rw [hopen] at hcut
    cases hcut
  · rename_i hcut
    rw [hopen] at hcut
    cases hcut
    refine ⟨_, rfl, fun hnone => ?_, fun inner rest hsome => ?_⟩
    · split
      · rfl
      · rename_i hcut
        rw [hnone] at hcut
        cases hcut
    · split
      · rename_i hcut
        rw [hsome] at hcut
        cases hcut
      · rename_i hcut
        rw [hsome] at hcut
        cases hcut
        constructor
        · intro hfree
          simp only [any_eq_false_iff.mpr hfree, Bool.false_eq_true, if_false]
        · intro hbraces
          have hany := Bool.of_not_eq_false (mt any_eq_false_iff.mp hbraces)
          simp only [hany, if_true]

/-- No pair of opening braces begins in the text, whatever follows it. -/
def Closed (xs : List Char) : Prop := ¬['\x7b', '\x7b'] <:+: xs ++ ['\x7b']

/-- A placeholder behind a closed text is found. -/
theorem tokens_append_placeholder {inner : List Char} (hbefore : Closed before)
    (hinner : BraceFree inner) (rest : List Char) :
    tokens (before ++ '\x7b' :: '\x7b' :: (inner ++ '\x7d' :: '\x7d' :: rest)) =
      textToken before ++ .placeholder inner :: tokens rest := by
  obtain ⟨ts, htokens, -, hclose⟩ := tokens_of_cutAtPair (cutAtPair_of_notInfix hbefore _)
  rw [htokens, (hclose _ _ (cutAtPair_of_notInfix (notInfix_of_notMem hinner.2) rest)).1 hinner]

/-- Behind an opener with another brace before the closing ones, scanning goes on. -/
theorem tokens_append_nested {inner : List Char} (hbefore : Closed before)
    (hend : ¬['\x7d', '\x7d'] <:+: inner ++ ['\x7d']) (hbraces : ¬BraceFree inner)
    (rest : List Char) :
    tokens (before ++ '\x7b' :: '\x7b' :: (inner ++ '\x7d' :: '\x7d' :: rest)) =
      textToken before ++ .nested :: tokens (inner ++ '\x7d' :: '\x7d' :: rest) := by
  obtain ⟨ts, htokens, -, hclose⟩ := tokens_of_cutAtPair (cutAtPair_of_notInfix hbefore _)
  rw [htokens, (hclose _ _ (cutAtPair_of_notInfix hend rest)).2 hbraces]

/-- An opener that is never closed takes all that is left. -/
theorem tokens_append_unterminated (hbefore : Closed before)
    (hnever : ¬['\x7d', '\x7d'] <:+: after) :
    tokens (before ++ '\x7b' :: '\x7b' :: after) = textToken before ++ [.unterminated after] := by
  obtain ⟨ts, htokens, hnone, -⟩ := tokens_of_cutAtPair (cutAtPair_of_notInfix hbefore after)
  rw [htokens, hnone (cutAtPair_eq_none_iff.mpr hnever)]

/-- A placeholder alone is one token. -/
theorem tokens_placeholder {inner : List Char} (h : BraceFree inner) :
    tokens (Token.placeholder inner).source = [.placeholder inner] := by
  have hend : tokens [] = [] := tokens_of_notInfix (by simp)
  have htokens := tokens_append_placeholder (notInfix_of_notMem List.not_mem_nil) h []
  rw [hend] at htokens
  exact htokens

end Template

/-! ### Parts -/

namespace Part

/-- What stands in the template where a part is. -/
def source : Part → String
  | .lit text => text
  | .ref placeholder _ => placeholder

/-- Literal text, as opposed to a placeholder that was replaced. -/
def isLit : Part → Bool
  | .lit _ => true
  | .ref _ _ => false

/-- No literal text is empty, and none stands beside another. -/
structure Tidy (parts : List Part) : Prop where
  lit_ne : ∀ text, .lit text ∈ parts → text ≠ ""
  apart : parts.IsChain fun p q => ¬(p.isLit ∧ q.isLit)

variable {parts : List Part}

theorem Tidy.cons_ref (h : Tidy parts) (placeholder accessor : String) :
    Tidy (.ref placeholder accessor :: parts) := by
  refine ⟨fun text hmem => h.lit_ne text (by simpa using hmem), List.isChain_cons.mpr ⟨?_, h.apart⟩⟩
  simp [isLit]

theorem Tidy.consLit (h : Tidy parts) (text : String) : Tidy (Resolver.consLit text parts) := by
  rw [Resolver.consLit.eq_def]
  split
  · -- the text that is there only grows
    rename_i rest parts
    obtain ⟨hfirst, hchain⟩ := List.isChain_cons.mp h.apart
    refine ⟨fun s hs => ?_, List.isChain_cons.mpr ⟨hfirst, hchain⟩⟩
    rcases List.mem_cons.mp hs with heq | hs
    · have hrest := h.lit_ne rest List.mem_cons_self
      rw [Part.lit.inj heq]
      simp [hrest]
    · exact h.lit_ne s (List.mem_cons_of_mem _ hs)
  · rename_i hlit
    split
    · exact h
    · rename_i hne
      refine ⟨fun s hs => ?_, List.isChain_cons.mpr ⟨fun p hp => ?_, h.apart⟩⟩
      · rcases List.mem_cons.mp hs with heq | hs
        · rw [Part.lit.inj heq]
          simpa using hne
        · exact h.lit_ne s hs
      · rintro ⟨-, hp'⟩
        cases p with
        | lit rest =>
          obtain ⟨behind, hparts⟩ := List.head?_eq_some_iff.mp hp
          exact hlit rest behind hparts
        | ref placeholder accessor => simp [isLit] at hp'

end Part

namespace Resolver

theorem join_source_consLit (text : String) (parts : List Part) :
    String.join ((consLit text parts).map Part.source) =
      text ++ String.join (parts.map Part.source) := by
  rw [consLit.eq_def]
  split
  · simp only [List.map_cons, String.join_cons, Part.source, String.append_assoc]
  · split
    · rename_i hempty
      rw [String.isEmpty_iff.mp hempty, String.empty_append]
    · simp only [List.map_cons, String.join_cons, Part.source]

/-- The parts that tokens are resolved to make up what the tokens were read from. -/
theorem join_source_resolveTokens (r : Resolver) (ts : List Template.Token) :
    String.join ((r.resolveTokens ts).1.map Part.source) =
      String.ofList (ts.flatMap Template.Token.source) := by
  induction ts with
  | nil => rfl
  | cons t ts ih =>
    rw [List.flatMap_cons, String.ofList_append, ← ih]
    rcases r.resolveTokens_cons t ts with ⟨inner, accessor, rfl, -, hparts⟩ | hparts
    · rw [hparts, List.map_cons, String.join_cons, ofList_source_placeholder]
      rfl
    · rw [hparts, join_source_consLit]

theorem tidy_resolveTokens (r : Resolver) (ts : List Template.Token) :
    Part.Tidy (r.resolveTokens ts).1 := by
  induction ts with
  | nil => exact ⟨by simp [resolveTokens], .nil⟩
  | cons t ts ih =>
    rcases r.resolveTokens_cons t ts with ⟨inner, accessor, -, -, hparts⟩ | hparts
    · exact hparts ▸ ih.cons_ref _ _
    · exact hparts ▸ ih.consLit _

theorem join_source_resolve (r : Resolver) (text : String) :
    String.join ((r.resolve text).parts.map Part.source) = text := by
  have hjoin := join_source_resolveTokens r (Template.tokens text.toList)
  rwa [Template.flatMap_source_tokens, String.ofList_toList] at hjoin

/-- What replaces a placeholder, and what the placeholder looks like. -/
theorem placeholder_of_ref {r : Resolver} {text placeholder accessor : String}
    (h : .ref placeholder accessor ∈ (r.resolve text).parts) :
    ∃ inner, Template.BraceFree inner ∧ placeholder = placeholderText inner ∧
      r.lookup inner = .ok accessor := by
  obtain ⟨inner, hmem, hinner⟩ := lookup_of_ref h
  exact ⟨inner, Template.braceFree_of_mem_tokens hmem, hinner⟩

theorem soleRef?_iff {r : Resolver} {text accessor : String} :
    (r.resolve text).soleRef? = some accessor ↔ ∃ inner, Template.BraceFree inner ∧
      text = placeholderText inner ∧ r.lookup inner = .ok accessor := by
  constructor
  · intro h
    rw [Resolved.soleRef?] at h
    split at h
    · rename_i placeholder found hparts
      obtain rfl := Option.some.inj h
      obtain ⟨inner, hfree, rfl, hlookup⟩ := placeholder_of_ref (hparts ▸ List.mem_singleton_self _)
      have hjoin := join_source_resolve r text
      rw [hparts, List.map_singleton, String.join_cons, String.join_nil,
        String.append_empty] at hjoin
      exact ⟨inner, hfree, hjoin.symm, hlookup⟩
    · simp at h
  · rintro ⟨inner, hfree, rfl, hlookup⟩
    have htokens : Template.tokens (placeholderText inner).toList = [.placeholder inner] := by
      rw [← ofList_source_placeholder, String.toList_ofList, Template.tokens_placeholder hfree]
    simp only [resolve, htokens, resolveTokens, hlookup, Resolved.soleRef?]

theorem resolve_of_notInfix {r : Resolver} {text : String}
    (h : ¬['\x7b', '\x7b'] <:+: text.toList) :
    r.resolve text = { parts := consLit text [], warnings := [] } := by
  rw [resolve, Template.tokens_of_notInfix h]
  by_cases hempty : text = ""
  · rw [hempty]
    rfl
  · have htoken : Template.textToken text.toList = [.text text.toList] :=
      if_neg (by simpa using hempty)
    simp only [htoken, resolveTokens, String.ofList_toList, List.map_nil]

end Resolver

/-- Template resolution keeps the text, for any ancestors and names: the parts make it up if a
placeholder is counted as it was written.  Literal texts are not empty and not side by side, and a
text that is one placeholder which can be looked up, and only such a text, is a sole reference. -/
theorem resolve_lossless (r : Resolver) (text : String) :
    String.join ((r.resolve text).parts.map Part.source) = text ∧
    (∀ s, .lit s ∈ (r.resolve text).parts → s ≠ "") ∧
    ((r.resolve text).parts.IsChain fun p q => ¬(p.isLit ∧ q.isLit)) ∧
    (∀ placeholder accessor, .ref placeholder accessor ∈ (r.resolve text).parts →
      ∃ inner, Template.BraceFree inner ∧
        placeholder = "\x7b\x7b" ++ String.ofList inner ++ "\x7d\x7d") ∧
    (∀ accessor, (r.resolve text).soleRef? = some accessor ↔
      ∃ inner, Template.BraceFree inner ∧
        text = "\x7b\x7b" ++ String.ofList inner ++ "\x7d\x7d" ∧
        r.lookup inner = .ok accessor) ∧
    (¬['\x7b', '\x7b'] <:+: text.toList →
      (r.resolve text).parts = (if text = "" then [] else [.lit text]) ∧
      (r.resolve text).expression = text ∧ (r.resolve text).warnings = []) := by
  have htidy : Part.Tidy (r.resolve text).parts := r.tidy_resolveTokens _
  refine ⟨r.join_source_resolve text, htidy.lit_ne, htidy.apart, ?_, ?_, ?_⟩
  · intro placeholder accessor hmem
    obtain ⟨inner, hfree, hplaceholder, -⟩ := Resolver.placeholder_of_ref hmem
    exact ⟨inner, hfree, hplaceholder⟩
  · exact fun accessor => Resolver.soleRef?_iff
  · intro hplain
    rw [Resolver.resolve_of_notInfix hplain]
    by_cases hempty : text = ""
    · rw [hempty]
      exact ⟨rfl, rfl, rfl⟩
    · have hparts : Resolver.consLit text [] = [.lit text] := if_neg (by simpa using hempty)
      rw [hparts, if_neg hempty]
      exact ⟨rfl, String.empty_append, rfl⟩

end Flowscript
