/-
Records: data with named fields, written as an object or as an array of the
fields in their order.

`Record.read` walks an object from left to right.  A name that is no field is
skipped, a field that comes twice is a fault, and so is a required field that
does not come at all.
-/
import Flowscript.Json.Decode

namespace Flowscript.Json

/-- What happens when a field is not given. -/
inductive Presence
  /-- It has to be given. -/
  | required
  /-- It has a default. -/
  | defaulted
  /-- An object may leave it out, an array may not. -/
  | omittable
  deriving DecidableEq, Repr

/-- A field of a record of type `α`. -/
structure Field (α : Type) where
  name : String
  presence : Presence
  /-- Puts what is read into the record. -/
  put : α → Source → Except Fault α
  /-- A second name for the field. -/
  alias? : Option String := none

/-- The fields in their order, and the record before any is read. -/
structure Record (α : Type) where
  fields : List (Field α)
  blank : α

namespace Record

variable {α : Type}

def field? (r : Record α) (key : String) : Option (Field α) :=
  r.fields.find? fun f => f.name == key || f.alias? == some key

/-- A record in the making, with the names of the fields it got. -/
structure Draft (α : Type) where
  record : α
  given : List String

/-- Takes one member into a draft. -/
def take (r : Record α) (d : Draft α) (key : String) (s : Source) : Except Fault (Draft α) :=
  match r.field? key with
  | none => do
    orFlaw s.skip
    return d
  | some f =>
    if d.given.contains f.name then .error (.repeated f.name)
    else do
      let a ← f.put d.record s
      return ⟨a, f.name :: d.given⟩

/-- Closes a draft made from an object. -/
def finish (r : Record α) (d : Draft α) : Except Fault α :=
  match r.fields.find? fun f => f.presence == .required && !d.given.contains f.name with
  | some f => .error (.missing f.name)
  | none => .ok d.record

/-- Takes members one after the other. -/
def takeAll (r : Record α) : Draft α → List (Source × Source) → Except Fault (Draft α)
  | d, [] => .ok d
  | d, (k, s) :: rest => do
    let key ← orFlaw k.name
    takeAll r (← r.take d key s) rest

/-- A record from the members of an object. -/
def ofMembers (r : Record α) (members : List (Source × Source)) : Except Fault α := do
  r.finish (← r.takeAll ⟨r.blank, []⟩ members)

/-- The number of the first field, from `index` on, that an array may not leave out. -/
def firstNeeded (index : Nat) : List (Field α) → Option Nat
  | [] => none
  | f :: rest => if f.presence = .defaulted then firstNeeded (index + 1) rest else some index

/-- Takes the elements of an array into the fields in their order. -/
def ofElements (mode : Mode) (title : String) (r : Record α) (all : List Source)
    (ending : Option Flaw) : α → Nat → List (Field α) → List Source → Except Fault α
  | a, _, [], [] => do
    checkEnding ending
    return a
  | _, _, [], _ :: _ =>
    match mode with
    | .streamed => .error (.flaw .malformed)
    | .buffered => .error (.wrongLength all.length (.elements r.fields.length))
  | a, index, f :: fs, [] => do
    checkEnding ending
    match firstNeeded index (f :: fs) with
    | some i => .error (.wrongLength i (.fields title r.fields.length))
    | none => return a
  | a, index, f :: fs, s :: rest => do
    let a ← f.put a s
    ofElements mode title r all ending a (index + 1) fs rest

/-- A record from an object or from an array. -/
def read (mode : Mode) (title : String) (r : Record α) : Source → Except Fault α
  | .object members ending => do
    let d ← r.takeAll ⟨r.blank, []⟩ members
    checkEnding ending
    r.finish d
  | .array items ending => ofElements mode title r items ending r.blank 0 r.fields items
  | s => .error (s.mismatch (.record title))

end Record

end Flowscript.Json
