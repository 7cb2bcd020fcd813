/-
What can be wrong with a JSON text that is read as something in particular,
and how it is told.

A `Fault` is either a flaw of the text itself or a mismatch between what was
found and what was wanted at one place.
-/
import Flowscript.Json.Source
import Flowscript.Text.Inspect

namespace Flowscript.Json

/-- What was found. -/
inductive Found
  | null
  | bool (value : Bool)
  | integer (value : Int)
  | real (value : Float)
  | string (value : String)
  | sequence
  | map
  deriving DecidableEq, Repr

/-- What was wanted in its place. -/
inductive Wanted
  | string
  | sequence
  | map
  | boolean
  | count
  | double
  | unit
  /-- A record of the given name. -/
  | record (name : String)
  /-- As many elements as a record has fields. -/
  | fields (name : String) (count : Nat)
  /-- No more elements than these. -/
  | elements (count : Nat)
  /-- One of several records, told apart by a tag. -/
  | tagged (name : String)
  | variant
  | variantIndex (count : Nat)
  | stringOrMap
  | singleKey
  deriving DecidableEq, Repr

/-- Why a text cannot be read as some kind of data. -/
inductive Fault
  | flaw (flaw : Flaw)
  | missing (field : String)
  | repeated (field : String)
  | unknownVariant (found : String) (known : List String)
  | wrongType (found : Found) (wanted : Wanted)
  | wrongValue (found : Found) (wanted : Wanted)
  | wrongLength (length : Nat) (wanted : Wanted)
  deriving DecidableEq, Repr

def Found.describe : Found → String
  | .null => "null"
  | .bool b => "boolean `" ++ (if b then "true" else "false") ++ "`"
  | .integer i => "integer `" ++ toString i ++ "`"
  | .real x => "floating point `" ++ realLayout.write x ++ "`"
  | .string s => "string " ++ Text.inspect s
  | .sequence => "sequence"
  | .map => "map"

/-- A number of elements in words. -/
def countElements (n : Nat) : String :=
  if n = 1 then "1 element" else toString n ++ " elements"

def Wanted.describe : Wanted → String
  | .string => "a string"
  | .sequence => "a sequence"
  | .map => "a map"
  | .boolean => "a boolean"
  | .count => "u32"
  | .double => "f64"
  | .unit => "unit"
  | .record name => "struct " ++ name
  | .fields name n => "struct " ++ name ++ " with " ++ countElements n
  | .elements n => countElements n ++ " in sequence"
  | .tagged name => "internally tagged enum " ++ name
  | .variant => "variant identifier"
  | .variantIndex n => "variant index 0 <= i < " ++ toString n
  | .stringOrMap => "string or map"
  | .singleKey => "map with a single key"

/-- The names between backquotes: none, one, two or more of them. -/
def describeNames (names : List String) : String :=
  match names.map fun n => "`" ++ n ++ "`" with
  | [] => "there are no variants"
  | [a] => "expected " ++ a
  | [a, b] => "expected " ++ a ++ " or " ++ b
  | quoted => "expected one of " ++ String.intercalate ", " quoted

/-- The words for a mismatch; a flaw of the text has none. -/
def Fault.describe? : Fault → Option String
  | .flaw _ => none
  | .missing field => some ("missing field `" ++ field ++ "`")
  | .repeated field => some ("duplicate field `" ++ field ++ "`")
  | .unknownVariant found known =>
    some ("unknown variant `" ++ found ++ "`, " ++ describeNames known)
  | .wrongType found wanted =>
    some ("invalid type: " ++ found.describe ++ ", expected " ++ wanted.describe)
  | .wrongValue found wanted =>
    some ("invalid value: " ++ found.describe ++ ", expected " ++ wanted.describe)
  | .wrongLength length wanted =>
    some ("invalid length " ++ toString length ++ ", expected " ++ wanted.describe)

end Flowscript.Json
