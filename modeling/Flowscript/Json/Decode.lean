/-
Reading what stands at one place of a JSON text as something in particular.

Data are read either straight from the text or from values that were read
before; the two modes differ where an array has more elements than wanted and
where one of several names is wanted.
-/
import Flowscript.Json.Fault

namespace Flowscript.Json

/-- Whether data come straight from a text or from values read before. -/
inductive Mode
  | streamed
  | buffered
  deriving DecidableEq, Repr

/-- A flaw as a fault. -/
def orFlaw {α : Type} : Except Flaw α → Except Fault α
  | .ok a => .ok a
  | .error f => .error (.flaw f)

/-- The flaw at the end of an array or object, if there is one. -/
def checkEnding : Option Flaw → Except Fault Unit
  | none => .ok ()
  | some f => .error (.flaw f)

namespace Source

/-- The fault of finding this where something else was wanted. A flaw in a number, a text or a
word shows first; arrays and objects are not looked into. -/
def mismatch (wanted : Wanted) : Source → Fault
  | .null => .wrongType .null wanted
  | .bool b => .wrongType (.bool b) wanted
  | .number (.ok (.integer i)) => .wrongType (.integer i) wanted
  | .number (.ok (.real x)) => .wrongType (.real x) wanted
  | .number (.error f) => .flaw f
  | .string (.ok s) => .wrongType (.string s) wanted
  | .string (.error f) => .flaw f
  | .array _ _ => .wrongType .sequence wanted
  | .object _ _ => .wrongType .map wanted
  | .broken _ f _ => .flaw f

/-! ### Plain data -/

def text : Source → Except Fault String
  | .string (.ok s) => .ok s
  | s => .error (s.mismatch .string)

def boolean : Source → Except Fault Bool
  | .bool b => .ok b
  | s => .error (s.mismatch .boolean)

/-- A natural number below `2^32`. -/
def count : Source → Except Fault Nat
  | .number (.ok (.integer i)) =>
    if 0 ≤ i ∧ i < 4294967296 then .ok i.toNat else .error (.wrongValue (.integer i) .count)
  | s => .error (s.mismatch .count)

/-- A double; integers are taken as doubles. -/
def double : Source → Except Fault Float
  | .number (.ok (.integer i)) => .ok (Float.ofInt i)
  | .number (.ok (.real x)) => .ok x
  | s => .error (s.mismatch .double)

/-- `null` stands for nothing. -/
def optional {α : Type} (read : Source → Except Fault α) : Source → Except Fault (Option α)
  | .null => .ok none
  | .broken .null f _ => .error (.flaw f)
  | s => (read s).map some

def list {α : Type} (read : Source → Except Fault α) : Source → Except Fault (List α)
  | .array items ending => do
    let as ← items.mapM read
    checkEnding ending
    return as
  | s => .error (s.mismatch .sequence)

/-- Members read as texts, ordered by name; the last of a name counts. -/
def textMap : Source → Except Fault (List (String × String))
  | .object members ending => do
    let pairs ← members.mapM fun (k, v) => do
      let n ← orFlaw k.name
      return (n, ← v.text)
    checkEnding ending
    return pairs.foldl (fun acc (n, t) => insertMember n t acc) []
  | s => .error (s.mismatch .map)

/-- Any value, its objects ordered by name. -/
def anything (s : Source) : Except Fault Value :=
  (orFlaw (s.read 128)).map Value.normal

/-! ### One of several names -/

/-- The entry of a name in a table. -/
def lookup {α : Type} (table : List (String × α)) (found : String) : Except Fault α :=
  match table.lookup found with
  | some a => .ok a
  | none => .error (.unknownVariant found (table.map (·.1)))

/-- The name of a tag. Among values read before, its number in the table will do. -/
def tag {α : Type} (mode : Mode) (table : List (String × α)) : Source → Except Fault α
  | .string (.ok s) => lookup table s
  | .number (.ok (.integer i)) =>
    match mode with
    | .streamed => .error (.wrongType (.integer i) .variant)
    | .buffered =>
      if 0 ≤ i then
        match table[i.toNat]? with
        | some (_, a) => .ok a
        | none => .error (.wrongValue (.integer i) (.variantIndex table.length))
      else .error (.wrongType (.integer i) .variant)
  | s => .error (s.mismatch .variant)

/-- The value that goes with a name in the long form of a choice: `null`, or among values read
before also an empty object. -/
def noPayload (mode : Mode) : Source → Except Fault Unit
  | .null => .ok ()
  | .object [] none =>
    match mode with
    | .streamed => .error (.wrongType .map .unit)
    | .buffered => .ok ()
  | s => .error (s.mismatch .unit)

/-- One name of a table, alone or as the only name of an object: `"x"` or `{"x": null}`. Straight
from a text the name of a member has to be a string, whatever the member is for. -/
def choice {α : Type} (mode : Mode) (table : List (String × α)) (s : Source) : Except Fault α :=
  match mode, s with
  | _, .string (.ok found) => lookup table found
  | .streamed, .string (.error f) => .error (.flaw f)
  | .streamed, .broken .nothing f _ => .error (.flaw f)
  | .streamed, .broken .text f _ => .error (.flaw f)
  | .streamed, .object [] ending => do
    checkEnding ending
    .error (.flaw .malformed)
  | .streamed, .object ((k, v) :: more) ending => do
    let a ← lookup table (← orFlaw k.name)
    noPayload .streamed v
    if more.isEmpty then
      checkEnding ending
      return a
    else .error (.flaw .malformed)
  | .streamed, _ => .error (.flaw .malformed)
  | .buffered, .object [(k, v)] _ => do
    let a ← tag .buffered table k
    noPayload .buffered v
    return a
  | .buffered, .object _ _ => .error (.wrongValue .map .singleKey)
  | .buffered, s => .error (s.mismatch .stringOrMap)

end Source

/-- Reads a whole text; anything but spaces behind the value is a flaw. -/
def readText {α : Type} (read : Source → Except Fault α) (text : String) : Except Fault α := do
  let (s, behind) := Source.ofText text
  let a ← read s
  checkEnding behind
  return a

end Flowscript.Json
