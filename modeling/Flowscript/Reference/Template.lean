/-
Templates: texts with placeholders such as `{{node.field}}`.

A template is cut into tokens, and each placeholder is looked up among the
ancestors of the node that the template belongs to.  What cannot be looked up
stays as it is, with a warning.
-/
import Flowscript.Diagnostic
import Flowscript.Reference.Ancestor
import Flowscript.Reference.Names
import Flowscript.Text.Basic

namespace Flowscript

/-- Why a placeholder is left as it is. -/
inductive ReferenceFault
  | blankSegment (inner : String)
  | notAncestor (head node : String)
  | noField (head field : String) (available : List String)
  | ambiguous (head : String) (available : List String)
  | unterminated (raw : String)
  | nestedBraces (raw : String)
  deriving DecidableEq, Repr

namespace ReferenceFault

def code : ReferenceFault → String
  | blankSegment _ => "R001"
  | notAncestor _ _ => "R002"
  | noField _ _ _ => "R003"
  | ambiguous _ _ => "R004"
  | unterminated _ => "R005"
  | nestedBraces _ => "R005"

def message : ReferenceFault → String
  | blankSegment inner => "Malformed reference '\x7b\x7b" ++ inner ++ "\x7d\x7d'"
  | notAncestor head node => "'" ++ head ++ "' is not an upstream node of '" ++ node ++ "'"
  | noField head field available =>
    "Node '" ++ head ++ "' has no output field '" ++ field ++ "' (available: " ++
      String.intercalate ", " available ++ ")"
  | ambiguous head available =>
    "'\x7b\x7b" ++ head ++ "\x7d\x7d' is ambiguous; reference one of: " ++
      String.intercalate ", " available
  | unterminated raw => "Unterminated placeholder '" ++ raw ++ "'"
  | nestedBraces raw => "Placeholder starting at '" ++ raw ++ "' contains nested braces"

def toDiagnostic (node : String) (f : ReferenceFault) : Diagnostic :=
  { severity := .warning, code := f.code, phase := .resolve, message := f.message,
    nodeId := some node }

end ReferenceFault

namespace Template

/-- A part of a text as it is scanned. -/
inductive Token
  | text (chars : List Char)
  /-- What stands between the braces of a placeholder. -/
  | placeholder (inner : List Char)
  /-- Opening braces with another brace before the closing ones. -/
  | nested
  /-- Opening braces that are never closed, with all that follows. -/
  | unterminated (rest : List Char)
  deriving DecidableEq, Repr

/-- Cuts a text at the first place where `c` stands twice. -/
def cutAtPair (c : Char) : List Char → Option (List Char × List Char)
  | x :: y :: rest =>
    if x = c ∧ y = c then some ([], rest)
    else (cutAtPair c (y :: rest)).map fun (before, after) => (x :: before, after)
  | _ => none

theorem length_of_cutAtPair {c : Char} {cs before after : List Char}
    (h : cutAtPair c cs = some (before, after)) : after.length < cs.length := by
  fun_induction cutAtPair c cs generalizing before with
  | case1 x y rest hxy =>
    simp only [Option.some.injEq, Prod.mk.injEq] at h
    rw [← h.2, List.length_cons, List.length_cons]
    omega
  | case2 x y rest hxy ih =>
    simp only [Option.map_eq_some_iff, Prod.mk.injEq] at h
    obtain ⟨⟨b, a⟩, hab, -, rfl⟩ := h
    exact Nat.lt_trans (ih hab) (Nat.lt_succ_self _)
  | case3 => simp at h

/-- A text token, if there is any text. -/
def textToken (cs : List Char) : List Token := if cs.isEmpty then [] else [.text cs]

/-- Scans a text for placeholders. After opening braces that do not begin one the scan goes on
right behind them. -/
def tokens (cs : List Char) : List Token :=
  match h : cutAtPair '\x7b' cs with
  | none => textToken cs
  | some (before, after) =>
    have := length_of_cutAtPair h
    textToken before ++
      match h' : cutAtPair '\x7d' after with
      | none => [.unterminated after]
      | some (inner, rest) =>
        have := length_of_cutAtPair h'
        if inner.any fun c => c == '\x7b' || c == '\x7d' then .nested :: tokens after
        else .placeholder inner :: tokens rest
termination_by cs.length
decreasing_by all_goals omega

end Template

/-- A part of a resolved template. -/
inductive Part
  | lit (text : String)
  /-- A placeholder and the expression that it became. -/
  | ref (placeholder accessor : String)
  deriving DecidableEq, Repr

/-- A template with its placeholders looked up. -/
structure Resolved where
  parts : List Part
  warnings : List Diagnostic
  deriving DecidableEq, Repr

namespace Resolved

/-- The text with each placeholder replaced by its expression. -/
def expression (r : Resolved) : String :=
  String.join (r.parts.map fun
    | .lit text => text
    | .ref _ accessor => accessor)

/-- Whether any placeholder was replaced. -/
def hasRefs (r : Resolved) : Bool :=
  r.parts.any fun
    | .lit _ => false
    | .ref _ _ => true

/-- The expression of a template that is one placeholder and nothing else. -/
def soleRef? (r : Resolved) : Option String :=
  match r.parts with
  | [.ref _ accessor] => some accessor
  | _ => none

end Resolved

/-- What the templates of one node are resolved against. -/
structure Resolver where
  nodeId : String
  ancestors : List Ancestor
  names : Names

namespace Resolver

open Template

/-- Property accesses one after the other, blanks around the names dropped. -/
def accessPath (path : List String) : String :=
  String.join (path.map fun segment => memberAccess (Text.trim segment))

/-- The expression of a placeholder. -/
def lookup (r : Resolver) (inner : List Char) : Except ReferenceFault String :=
  let inner := Text.dropOuterBlanks inner
  let segments := (Text.pieces '.' inner).map String.ofList
  let head := Text.trim (segments.headD "")
  let path := segments.drop 1
  if head.isEmpty || path.any Text.isEmptyOrBlank then
    .error (.blankSegment (String.ofList inner))
  else if head = inputName then .ok (inputName ++ accessPath path)
  else
    match r.ancestors.find? fun a => !a.isInput && a.nodeId == head with
    | none => .error (.notAncestor head r.nodeId)
    | some a =>
      match path with
      | field :: rest =>
        let field := Text.trim field
        if a.fields.contains field then
          .ok (r.names.variableOf head ++ memberAccess field ++ accessPath rest)
        else .error (.noField head field a.fields)
      | [] =>
        match a.fields with
        | [only] => .ok (r.names.variableOf head ++ memberAccess only)
        | _ => .error (.ambiguous head a.fields)

/-- Puts literal text in front of parts, joined with literal text that is there. -/
def consLit (text : String) : List Part → List Part
  | .lit rest :: parts => .lit (text ++ rest) :: parts
  | parts => if text.isEmpty then parts else .lit text :: parts

/-- What stands for opening braces, a body and closing braces. -/
def placeholderText (inner : List Char) : String :=
  "\x7b\x7b" ++ String.ofList inner ++ "\x7d\x7d"

/-- Resolves tokens one after the other. -/
def resolveTokens (r : Resolver) : List Token → List Part × List ReferenceFault
  | [] => ([], [])
  | t :: ts =>
    let (parts, faults) := resolveTokens r ts
    match t with
    | .text cs => (consLit (String.ofList cs) parts, faults)
    | .nested => (consLit "\x7b\x7b" parts, .nestedBraces "\x7b\x7b" :: faults)
    | .unterminated rest =>
      let raw := "\x7b\x7b" ++ String.ofList rest
      (consLit raw parts, .unterminated raw :: faults)
    | .placeholder inner =>
      match r.lookup inner with
      | .ok accessor => (.ref (placeholderText inner) accessor :: parts, faults)
      | .error f => (consLit (placeholderText inner) parts, f :: faults)

/-- Looks up the placeholders of a text, with a warning for each one that is left. -/
def resolve (r : Resolver) (text : String) : Resolved :=
  let (parts, faults) := r.resolveTokens (tokens text.toList)
  { parts, warnings := faults.map (ReferenceFault.toDiagnostic r.nodeId) }

end Resolver

/-- Resolves a text as a template of the given node. -/
def Workflow.resolve (w : Workflow) (node text : String) : Resolved :=
  Resolver.resolve ⟨node, w.ancestors node, Names.ofWorkflow w⟩ text

end Flowscript
