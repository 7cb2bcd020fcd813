/-
Accesses to properties can be read in one way only.

An expression is a base and the accesses behind it, written one after the other with nothing between
them.  `Spells` is the grammar of the accesses.  It does not say where an access ends; that follows
from what can stand in it and behind it:

* `Json.Source.quoted_append` — a quoted text ends at its quote, whatever comes behind;
* `Spells.breaks` — no access begins like the rest of an identifier or of a base;
* `Spells.unique` — a text spells one list of names at most;
* `access_unambiguous` — an expression is read as its own base and names, and as no others.
-/
import Flowscript.Proofs.Json.Scan
import Flowscript.Proofs.Text.OneLine

namespace Flowscript

/-! ### Where a quoted text ends -/

namespace Json.Source

/-- What is behind the closing quote has no influence on what is before it. -/
theorem pieces_append {cs rest : List Char} {ps : List Piece} (h : pieces cs = (ps, .ok rest))
    (more : List Char) : pieces (cs ++ more) = (ps, .ok (rest ++ more)) := by
  fun_induction pieces cs generalizing ps with
  | case2 after =>
    cases h
    rfl
  | case3 a b c d after n hunit qs e hafter ih =>
    obtain ⟨rfl, rfl⟩ := Prod.mk.inj h
    have hlater := ih hafter
    simp only [List.cons_append]
    rw [pieces_unit hunit, hlater]
  | case6 c after hbody hc x hx qs e hafter ih =>
    obtain ⟨rfl, rfl⟩ := Prod.mk.inj h
    have hlater := ih hafter
    simp only [List.cons_append]
    rw [pieces_simpleEscape hc hx, hlater]
  | case10 c after hquote _ _ hescape hend hc qs e hafter ih =>
    obtain ⟨rfl, rfl⟩ := Prod.mk.inj h
    have hlater := ih hafter
    have hslash : c ≠ '\\' := by
      intro hslash
      cases after with
      | nil => exact hend hslash rfl
      | cons d after => exact hescape d after hslash rfl
    rw [List.cons_append, pieces_plain hquote hslash hc, hlater]
  | case1 => cases h
  | case4 => cases h
  | case5 => cases h
  | case7 => cases h
  | case8 => cases h
  | case9 => cases h

theorem quoted_append {cs rest : List Char} {s : String}
    (h : quoted cs = (.string (.ok s), some rest)) (more : List Char) :
    quoted (cs ++ more) = (.string (.ok s), some (rest ++ more)) := by
  rw [quoted] at h ⊢
  split at h
  · next ps after hpieces =>
    obtain ⟨hjoin, hafter⟩ := Prod.mk.inj h
    obtain rfl := Option.some.inj hafter
    rw [pieces_append hpieces]
    exact Prod.ext hjoin rfl
  · split at h <;> cases h

end Json.Source

/-! ### The grammar of accesses -/

/-- Behind its opening quote, a quoted text stands for a name. -/
def Quotes (chars : List Char) (name : String) : Prop :=
  Json.Source.quoted chars = (.string (.ok name), some [])

/-- A text accesses properties of the given names one after the other: `.name` with an identifier,
`["name"]` with any quoted text. -/
inductive Spells : List Char → List String → Prop
  | nil : Spells [] []
  | point {name : String} {text : List Char} {names : List String}
    (identifier : Text.isIdentifier name.toList = true) (rest : Spells text names) :
    Spells ('.' :: (name.toList ++ text)) (name :: names)
  | bracket {chars text : List Char} {name : String} {names : List String}
    (quotes : Quotes chars name) (rest : Spells text names) :
    Spells ('[' :: '"' :: (chars ++ ']' :: text)) (name :: names)

/-- A text without a point and an opening bracket, as identifiers are in any alphabet. -/
def IsBase (base : String) : Prop := '.' ∉ base.toList ∧ '[' ∉ base.toList

theorem isBase_of_isIdentifier {base : String} (h : Text.isIdentifier base.toList = true) :
    IsBase base := by
  have hchars := Text.isIdentChar_of_isIdentifier h
  exact ⟨fun hmem => absurd (hchars _ hmem) (by decide),
    fun hmem => absurd (hchars _ hmem) (by decide)⟩

/-- An expression consists of a base and accesses to the given names. -/
def ReadAs (expression base : String) (names : List String) : Prop :=
  IsBase base ∧ ∃ text, expression = base ++ String.ofList text ∧ Spells text names

/-! ### What is written is in the grammar -/

theorem quotes_quote (name : String) :
    Quotes (name.toList.flatMap Text.escapeJson ++ ['"']) name :=
  Json.Source.quoted_quote name []

theorem spells_accesses (names : List String) : Spells (accesses names).toList names := by
  induction names with
  | nil => exact .nil
  | cons name names ih =>
    rw [accesses_cons, String.toList_append, memberAccess]
    split
    · next hname =>
      rw [String.toList_append]
      exact .point hname ih
    · have htext : ("[" ++ Text.quote name ++ "]").toList ++ (accesses names).toList =
          '[' :: '"' :: ((name.toList.flatMap Text.escapeJson ++ ['"']) ++
            ']' :: (accesses names).toList) := by
        simp [Text.quote, Text.quoteWith]
      rw [htext]
      exact .bracket (quotes_quote name) ih

theorem readAs_accesses {base : String} (hbase : IsBase base) (names : List String) :
    ReadAs (base ++ accesses names) base names :=
  ⟨hbase, _, by rw [String.ofList_toList], spells_accesses names⟩

/-! ### And in no other way -/

/-- A text is cut in one way only into characters of a class and something that begins with none. -/
theorem append_inj_of_head {p : Char → Bool} {xs ys xs' ys' : List Char}
    (hxs : ∀ c ∈ xs, p c = true) (hys : ∀ c ∈ ys.head?, p c = false)
    (hxs' : ∀ c ∈ xs', p c = true) (hys' : ∀ c ∈ ys'.head?, p c = false)
    (h : xs ++ ys = xs' ++ ys') : xs = xs' ∧ ys = ys' := by
  have htake : ∀ {us vs : List Char}, (∀ c ∈ us, p c = true) → (∀ c ∈ vs.head?, p c = false) →
      (us ++ vs).takeWhile p = us := by
    intro us vs hus hvs
    rw [List.takeWhile_append_of_pos hus]
    cases vs with
    | nil => exact List.append_nil us
    | cons c vs =>
      rw [List.takeWhile_cons_of_neg (by simp [hvs c rfl]), List.append_nil]
  have hfront : xs = xs' := by rw [← htake hxs hys, h, htake hxs' hys']
  subst hfront
  exact ⟨rfl, List.append_cancel_left h⟩

namespace Spells

variable {text : List Char} {names names' : List String}

theorem breaks (h : Spells text names) : ∀ c ∈ text.head?, c = '.' ∨ c = '[' := by
  intro c hc
  cases h with
  | nil => cases hc
  | point => exact .inl (Option.some.inj hc).symm
  | bracket => exact .inr (Option.some.inj hc).symm

theorem breaks_identifier (h : Spells text names) :
    ∀ c ∈ text.head?, Text.isIdentChar c = false := by
  intro c hc
  rcases h.breaks c hc with rfl | rfl <;> decide

/-- A text spells one list of names at most. -/
theorem unique (h : Spells text names) (h' : Spells text names') : names = names' := by
  induction h generalizing names' with
  | nil =>
    cases h'
    rfl
  | @point name text names hname hrest ih =>
    generalize htext : '.' :: (name.toList ++ text) = full at h'
    cases h' with
    | nil => cases htext
    | @point name' text' _ hname' hrest' =>
      -- both identifiers end where the next access begins
      obtain ⟨hchars, rfl⟩ := append_inj_of_head (Text.isIdentChar_of_isIdentifier hname)
        hrest.breaks_identifier (Text.isIdentChar_of_isIdentifier hname') hrest'.breaks_identifier
        (List.cons.inj htext).2
      rw [String.toList_inj.mp hchars, ih hrest']
    | bracket => exact absurd (List.cons.inj htext).1 (by decide)
  | @bracket chars text name names hname hrest ih =>
    generalize htext : '[' :: '"' :: (chars ++ ']' :: text) = full at h'
    cases h' with
    | nil => cases htext
    | point => exact absurd (List.cons.inj htext).1 (by decide)
    | @bracket chars' text' name' _ hname' hrest' =>
      -- both quoted texts end at the same quote
      have hread := Json.Source.quoted_append hname (']' :: text)
      have hread' := Json.Source.quoted_append hname' (']' :: text')
      rw [(List.cons.inj (List.cons.inj htext).2).2, hread'] at hread
      obtain ⟨hsource, hafter⟩ := Prod.mk.inj hread
      obtain rfl : name' = name := by simpa using hsource
      obtain rfl : text' = text := by simpa using hafter
      rw [ih hrest']

end Spells

theorem IsBase.chars {base : String} (h : IsBase base) :
    ∀ c ∈ base.toList, (c != '.' && c != '[') = true := by
  intro c hc
  have hpoint : c ≠ '.' := fun heq => h.1 (heq ▸ hc)
  have hbracket : c ≠ '[' := fun heq => h.2 (heq ▸ hc)
  simp [hpoint, hbracket]

/-- An expression has one base and one list of names at most. -/
theorem ReadAs.unique {expression base base' : String} {names names' : List String}
    (h : ReadAs expression base names) (h' : ReadAs expression base' names') :
    base' = base ∧ names' = names := by
  obtain ⟨hbase, text, rfl, htext⟩ := h
  obtain ⟨hbase', text', heq, htext'⟩ := h'
  have hstop : ∀ {text names}, Spells text names →
      ∀ c ∈ text.head?, (c != '.' && c != '[') = false := by
    intro text names hspells c hc
    rcases hspells.breaks c hc with rfl | rfl <;> decide
  have hchars := congrArg String.toList heq
  rw [String.toList_append, String.toList_append, String.toList_ofList,
    String.toList_ofList] at hchars
  obtain ⟨hfront, rfl⟩ :=
    append_inj_of_head hbase.chars (hstop htext) hbase'.chars (hstop htext') hchars
  exact ⟨(String.toList_inj.mp hfront).symm, htext'.unique htext⟩

/-- The expression of a base and of names, whatever is in the names, can be read as this base and
these names and in no other way; so two expressions are different if their bases or their names
are. -/
theorem access_unambiguous {base : String} (hbase : IsBase base) (names : List String) :
    (∀ base' names', ReadAs (base ++ accesses names) base' names' ↔
      base' = base ∧ names' = names) ∧
    ∀ base' names', IsBase base' → base' ++ accesses names' = base ++ accesses names →
      base' = base ∧ names' = names := by
  have hread := readAs_accesses hbase names
  refine ⟨fun base' names' => ⟨fun h => hread.unique h, ?_⟩, fun base' names' hbase' heq => ?_⟩
  · rintro ⟨rfl, rfl⟩
    exact hread
  · have hread' := readAs_accesses hbase' names'
    rw [heq] at hread'
    exact hread.unique hread'

/-- Names that look like accesses, quotes and the ends of brackets. -/
theorem access_unambiguous_step : IsBase "step_a" ∧
    "step_a" ++ accesses ["output", "b.c", "", "]", "\"].d", "1st"] =
      "step_a.output[\"b.c\"][\"\"][\"]\"][\"\\\"].d\"][\"1st\"]" ∧
    ∀ base names, ReadAs "step_a.output[\"b.c\"][\"\"][\"]\"][\"\\\"].d\"][\"1st\"]" base names ↔
      base = "step_a" ∧ names = ["output", "b.c", "", "]", "\"].d", "1st"] := by
  have hbase : IsBase "step_a" := isBase_of_isIdentifier (by decide)
  have htext : "step_a" ++ accesses ["output", "b.c", "", "]", "\"].d", "1st"] =
      "step_a.output[\"b.c\"][\"\"][\"]\"][\"\\\"].d\"][\"1st\"]" := by decide
  refine ⟨hbase, htext, ?_⟩
  rw [← htext]
  exact (access_unambiguous hbase _).1

end Flowscript
