/-
JSON texts as they are found, flaws included.

`Source.ofText` turns any text into a tree.  Where the text stops being JSON
the tree holds a `Flaw`, and nothing after that place is in the tree.  So a
reader that walks the tree from left to right meets a flaw exactly when it
would have met it in the text, after everything that stands before it.

Two readers differ in what they refuse.  Reading a value refuses a numeral too
large for a double, a surrogate without its partner and a nesting deeper than
the given room.  Skipping a value refuses none of these.  Hence a number or a
text that is complete keeps the outcome of reading it (`Except Flaw`), and a
place where the text breaks off keeps the flaw for each reader.
-/
import Flowscript.Json.Value

namespace Flowscript.Json

/-- How a text fails to be JSON: it ends too early, or it has something that cannot stand there. -/
inductive Flaw
  | truncated
  | malformed
  deriving DecidableEq, Repr

/-- What had begun at the place where a text breaks off. -/
inductive Begun
  | nothing
  | null
  | scalar
  | text
  deriving DecidableEq, Repr

/-- What stands at one place of a text. -/
inductive Source
  | null
  | bool (value : Bool)
  | number (value : Except Flaw Number)
  | string (value : Except Flaw String)
  /-- The ending is the flaw found where a comma or the closing bracket was due. -/
  | array (items : List Source) (ending : Option Flaw)
  /-- What stands for a name need not be a string; nothing follows one that is not. -/
  | object (members : List (Source × Source)) (ending : Option Flaw)
  | broken (begun : Begun) (read skip : Flaw)

namespace Source

/-- The four characters that may stand between the parts of a text. -/
def isSpace (c : Char) : Bool := c == ' ' || c == '\n' || c == '\t' || c == '\r'

/-! ### Words -/

/-- Reads the rest of a word such as `null`. -/
def word : List Char → List Char → Except Flaw (List Char)
  | [], cs => .ok cs
  | _ :: _, [] => .error .truncated
  | w :: ws, c :: cs => if c = w then word ws cs else .error .malformed

/-! ### Numbers -/

/-- The digits in front. -/
def digits (cs : List Char) : List Nat × List Char :=
  ((cs.takeWhile Char.isDigit).map fun c => c.toNat - '0'.toNat, cs.dropWhile Char.isDigit)

/-- One digit or more; at the end of the text the two readers disagree on the flaw. -/
def someDigits (cs : List Char) : Except (Flaw × Flaw) (List Nat × List Char) :=
  match cs with
  | [] => .error (.truncated, .malformed)
  | c :: _ => if c.isDigit then .ok (digits cs) else .error (.malformed, .malformed)

/-- Digits without a zero in front of another digit. -/
def wholeDigits (cs : List Char) : Except (Flaw × Flaw) (List Nat × List Char) :=
  match cs with
  | '0' :: c :: _ => if c.isDigit then .error (.malformed, .malformed) else someDigits cs
  | _ => someDigits cs

/-- The point and the digits after it, if there is a point. -/
def fractionPart (cs : List Char) : Except (Flaw × Flaw) (List Nat × List Char) :=
  match cs with
  | '.' :: rest => someDigits rest
  | _ => .ok ([], cs)

/-- The exponent mark, sign and digits, if there is a mark. -/
def exponentPart (cs : List Char) : Except (Flaw × Flaw) (Option Int × List Char) :=
  match cs with
  | c :: rest =>
    if c = 'e' || c = 'E' then do
      let (negative, rest) :=
        match rest with
        | '+' :: rest => (false, rest)
        | '-' :: rest => (true, rest)
        | _ => (false, rest)
      let (ds, rest) ← someDigits rest
      let e : Nat := ds.foldl (fun n d => n * 10 + d) 0
      return (some (if negative then -(e : Int) else e), rest)
    else .ok (none, cs)
  | [] => .ok (none, [])

/-- A number after its sign. -/
def numeral (negative : Bool) (cs : List Char) :
    Except (Flaw × Flaw) (Numeral × List Char) := do
  let (whole, cs) ← wholeDigits cs
  let (fraction, cs) ← fractionPart cs
  let (exponent, cs) ← exponentPart cs
  return (⟨negative, whole, fraction, exponent⟩, cs)

/-- Reading refuses a number that is too large. -/
def readNumeral (n : Numeral) : Except Flaw Number :=
  match n.value with
  | some x => .ok x
  | none => .error .malformed

/-! ### Texts between quotes -/

/-- A part of a quoted text: a character, or the 16-bit unit of a `\u` escape. -/
inductive Piece
  | char (c : Char)
  | unit (n : Nat)
  deriving DecidableEq, Repr

/-- The value of a hexadecimal digit. -/
def hexValue? (c : Char) : Option Nat :=
  if c.isDigit then some (c.toNat - '0'.toNat)
  else if 'a' ≤ c && c ≤ 'f' then some (c.toNat - 'a'.toNat + 10)
  else if 'A' ≤ c && c ≤ 'F' then some (c.toNat - 'A'.toNat + 10)
  else none

/-- The unit of four hexadecimal digits. -/
def unit? (a b c d : Char) : Option Nat := do
  return ((← hexValue? a) * 16 + (← hexValue? b)) * 256 + (← hexValue? c) * 16 + (← hexValue? d)

/-- The character that a backslash and one character stand for. -/
def simpleEscape? (c : Char) : Option Char :=
  if c = '"' || c = '\\' || c = '/' then some c
  else if c = 'b' then some (Char.ofNat 8)
  else if c = 'f' then some (Char.ofNat 12)
  else if c = 'n' then some '\n'
  else if c = 'r' then some '\r'
  else if c = 't' then some '\t'
  else none

/-- The number of bytes that characters take in UTF-8. -/
def byteCount (cs : List Char) : Nat := (String.ofList cs).utf8ByteSize

/-- The pieces up to the closing quote, and the text after it. -/
def pieces : List Char → List Piece × Except Flaw (List Char)
  | [] => ([], .error .truncated)
  | '"' :: rest => ([], .ok rest)
  | '\\' :: 'u' :: a :: b :: c :: d :: rest =>
    match unit? a b c d with
    | some n => let (ps, e) := pieces rest; (.unit n :: ps, e)
    | none => ([], .error .malformed)
  -- an escape needs four bytes after the `u`, whatever they are
  | '\\' :: 'u' :: rest => ([], .error (if byteCount rest < 4 then .truncated else .malformed))
  | '\\' :: c :: rest =>
    match simpleEscape? c with
    | some x => let (ps, e) := pieces rest; (.char x :: ps, e)
    | none => ([], .error .malformed)
  | ['\\'] => ([], .error .truncated)
  | c :: rest =>
    if c.toNat < 0x20 then ([], .error .malformed)
    else let (ps, e) := pieces rest; (.char c :: ps, e)

def isLeading (n : Nat) : Bool := 0xD800 ≤ n && n ≤ 0xDBFF

def isTrailing (n : Nat) : Bool := 0xDC00 ≤ n && n ≤ 0xDFFF

/-- The characters of the pieces; a surrogate has to be followed by its partner.
`flaw` is what broke the text off behind the pieces, if anything did. -/
def join (flaw : Option Flaw) : List Piece → Except Flaw (List Char)
  | [] =>
    match flaw with
    | some f => .error f
    | none => .ok []
  | .char c :: ps => return c :: (← join flaw ps)
  | .unit n :: .unit k :: ps =>
    if isTrailing n then .error .malformed
    else if isLeading n then
      if isTrailing k then
        return Char.ofNat (0x10000 + (n - 0xD800) * 0x400 + (k - 0xDC00)) :: (← join flaw ps)
      else .error .malformed
    else return Char.ofNat n :: (← join flaw (.unit k :: ps))
  | .unit n :: ps =>
    if isTrailing n then .error .malformed
    else if isLeading n then
      match ps, flaw with
      | [], some f => .error f
      | _, _ => .error .malformed
    else return Char.ofNat n :: (← join flaw ps)

/-- A text after its opening quote. -/
def quoted (cs : List Char) : Source × Option (List Char) :=
  match pieces cs with
  | (ps, .ok rest) => (.string ((join none ps).map String.ofList), some rest)
  | (ps, .error f) =>
    match join (some f) ps with
    | .error r => (.broken .text r f, none)
    | .ok _ => (.broken .text f f, none)

/-! ### Whole values

Each function gives what it found and the text that follows, which is absent
when the text broke off. -/

/-- A place with nothing that could begin a value. -/
def missing (f : Flaw) : Source := .broken .nothing f f

def ofWord (begun : Begun) (found : Source) (ws cs : List Char) : Source × Option (List Char) :=
  match word ws cs with
  | .ok rest => (found, some rest)
  | .error f => (.broken begun f f, none)

def ofNumeral (negative : Bool) (cs : List Char) : Source × Option (List Char) :=
  match numeral negative cs with
  | .ok (n, rest) => (.number (readNumeral n), some rest)
  | .error (r, s) => (.broken .scalar r s, none)

mutual

/-- The value in front, after any spaces. -/
def scan : Nat → List Char → Source × Option (List Char)
  | 0, _ => (missing .truncated, none)
  | fuel + 1, cs =>
    match cs.dropWhile isSpace with
    | [] => (missing .truncated, none)
    | 'n' :: rest => ofWord .null .null ['u', 'l', 'l'] rest
    | 't' :: rest => ofWord .scalar (.bool true) ['r', 'u', 'e'] rest
    | 'f' :: rest => ofWord .scalar (.bool false) ['a', 'l', 's', 'e'] rest
    | '"' :: rest => quoted rest
    | '[' :: rest =>
      let (vs, e, after) := scanItems fuel true rest
      (.array vs e, after)
    | '\x7b' :: rest =>
      let (ms, e, after) := scanMembers fuel true rest
      (.object ms e, after)
    | '-' :: rest => ofNumeral true rest
    | c :: rest => if c.isDigit then ofNumeral false (c :: rest) else (missing .malformed, none)

/-- The items up to the closing bracket; a comma stands before each but the first. -/
def scanItems : Nat → Bool → List Char → List Source × Option Flaw × Option (List Char)
  | 0, _, _ => ([], some .truncated, none)
  | fuel + 1, first, cs =>
    match cs.dropWhile isSpace with
    | [] => ([], some .truncated, none)
    | ']' :: rest => ([], none, some rest)
    | c :: rest =>
      if first || c = ',' then
        match scan fuel (if first then c :: rest else rest) with
        | (v, none) => ([v], some .malformed, none)
        | (v, some after) =>
          let (vs, e, last) := scanItems fuel false after
          (v :: vs, e, last)
      else ([], some .malformed, none)

/-- The members up to the closing brace; a comma stands before each but the first. -/
def scanMembers : Nat → Bool → List Char → List (Source × Source) × Option Flaw × Option (List Char)
  | 0, _, _ => ([], some .truncated, none)
  | fuel + 1, first, cs =>
    match cs.dropWhile isSpace with
    | [] => ([], some .truncated, none)
    | '\x7d' :: rest => ([], none, some rest)
    | c :: rest =>
      if first || c = ',' then
        match scan fuel (if first then c :: rest else rest) with
        | (.string k, some after) =>
          match after.dropWhile isSpace with
          | [] => ([(.string k, missing .truncated)], some .malformed, none)
          | ':' :: after =>
            match scan fuel after with
            | (v, none) => ([(.string k, v)], some .malformed, none)
            | (v, some after) =>
              let (ms, e, last) := scanMembers fuel false after
              ((.string k, v) :: ms, e, last)
          | _ :: _ => ([(.string k, missing .malformed)], some .malformed, none)
        | (k, _) => ([(k, missing .malformed)], some .malformed, none)
      else ([], some .malformed, none)

end

/-- A whole text: its value, and the flaw of anything but spaces behind it. -/
def ofText (text : String) : Source × Option Flaw :=
  let cs := text.toList
  match scan (2 * cs.length + 2) cs with
  | (s, none) => (s, none)
  | (s, some rest) =>
    if (rest.dropWhile isSpace).isEmpty then (s, none) else (s, some .malformed)

/-! ### The two readers -/

mutual

/-- Passes over a value. -/
def skip : Source → Except Flaw Unit
  | .null => .ok ()
  | .bool _ => .ok ()
  | .number _ => .ok ()
  | .string _ => .ok ()
  | .array items ending => do
    skipItems items
    match ending with
    | none => .ok ()
    | some f => .error f
  | .object members ending => do
    skipMembers members
    match ending with
    | none => .ok ()
    | some f => .error f
  | .broken _ _ f => .error f

def skipItems : List Source → Except Flaw Unit
  | [] => .ok ()
  | s :: rest => do skip s; skipItems rest

def skipMembers : List (Source × Source) → Except Flaw Unit
  | [] => .ok ()
  | (k, s) :: rest => do
    match k with
    | .string _ => .ok ()
    | .broken .nothing _ f => .error f
    | .broken .text _ f => .error f
    | _ => .error .malformed
    skip s
    skipMembers rest

end

/-- The name of a member. It has to be a string, and nothing else is looked into. -/
def name : Source → Except Flaw String
  | .string s => s
  | .broken .nothing f _ => .error f
  | .broken .text f _ => .error f
  | _ => .error .malformed

mutual

/-- Reads a value that nests at most `room` arrays and objects. -/
def read (room : Nat) : Source → Except Flaw Value
  | .null => .ok .null
  | .bool b => .ok (.bool b)
  | .number n => n.map .number
  | .string s => s.map .string
  | .array items ending =>
    match room with
    | 0 => .error .malformed
    | room + 1 => do
      let vs ← readItems room items
      match ending with
      | none => .ok (.array vs)
      | some f => .error f
  | .object members ending =>
    match room with
    | 0 => .error .malformed
    | room + 1 => do
      let ms ← readMembers room members
      match ending with
      | none => .ok (.object ms)
      | some f => .error f
  | .broken _ f _ => .error f

def readItems (room : Nat) : List Source → Except Flaw (List Value)
  | [] => .ok []
  | s :: rest => do
    let v ← read room s
    return v :: (← readItems room rest)

def readMembers (room : Nat) : List (Source × Source) → Except Flaw (List (String × Value))
  | [] => .ok []
  | (k, s) :: rest => do
    let n ← name k
    let v ← read room s
    return (n, v) :: (← readMembers room rest)

end

end Source

mutual

/-- A value as the source it would be read from. -/
def Value.source : Value → Source
  | .null => .null
  | .bool b => .bool b
  | .number n => .number (.ok n)
  | .string s => .string (.ok s)
  | .array items => .array (itemSources items) none
  | .object members => .object (memberSources members) none

def itemSources : List Value → List Source
  | [] => []
  | v :: vs => v.source :: itemSources vs

def memberSources : List (String × Value) → List (Source × Source)
  | [] => []
  | (n, v) :: rest => (.string (.ok n), v.source) :: memberSources rest

end

end Flowscript.Json
