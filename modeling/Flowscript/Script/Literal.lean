/-
Texts and templates as expressions of the emitted program.
-/
import Flowscript.Reference.Template

namespace Flowscript.Script

/-- Escapes what ends a template literal or begins a substitution in it. -/
def escapeTemplate : List Char → List Char
  | [] => []
  | '$' :: '\x7b' :: rest => '\\' :: '$' :: '\x7b' :: escapeTemplate rest
  | c :: rest =>
    if c = '\\' then '\\' :: '\\' :: escapeTemplate rest
    else if c = '\x60' then '\\' :: '\x60' :: escapeTemplate rest
    else c :: escapeTemplate rest

def templatePart : Part → List Char
  | .lit text => escapeTemplate text.toList
  | .ref _ accessor => '$' :: '\x7b' :: (accessor.toList ++ ['\x7d'])

/-- A template literal with a substitution for each reference. -/
def templateLiteral (parts : List Part) : String :=
  String.ofList ('\x60' :: (parts.flatMap templatePart ++ ['\x60']))

/-- A text value: the reference itself if there is nothing else, a string literal if there is no
reference, a template literal otherwise. -/
def textValue (r : Resolved) : String :=
  match r.soleRef? with
  | some accessor => accessor
  | none => if r.hasRefs then templateLiteral r.parts else Text.literal r.expression

/-- An expression: the text with its references put in, `false` if there is none. -/
def expressionValue (r : Resolved) : String :=
  let e := Text.trim r.expression
  if e.isEmpty then "false" else e

/-- The key of a property: bare if it is an identifier. -/
def keyText (name : String) : String :=
  if Text.isIdentifier name.toList then name else Text.literal name

/-- An array of string literals. -/
def textArray (values : List String) : String :=
  "[" ++ String.intercalate ", " (values.map Text.literal) ++ "]"

end Flowscript.Script
