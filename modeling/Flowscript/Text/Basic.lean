/-
Texts, as lists of characters: blanks, lines, identifiers and quotes.

Blanks are the characters with the Unicode property White_Space.  A line ends at
a line feed, and a carriage return right before that line feed belongs to the
ending; text after the last line feed is a line too, unless there is none.
Identifiers are those of the target language, as far as the program makes them:
ASCII letters, digits, `_` and `$`, with no digit in front.

There are two ways to quote a text.  `quote` is the JSON way: the quote, the
backslash and the characters below U+0020 are escaped, the rest stands for
itself.  `literal` is the way of the emitted program, which escapes the quote,
the backslash, the line feed, the carriage return and the tab only.
-/

namespace Flowscript.Text

/-! ### Blanks -/

/-- The 25 code points with the Unicode property White_Space. -/
def isBlank (c : Char) : Bool :=
  let n := c.toNat
  (9 ≤ n && n ≤ 13) || n == 0x20 || n == 0x85 || n == 0xA0 || n == 0x1680 ||
    (0x2000 ≤ n && n ≤ 0x200A) || n == 0x2028 || n == 0x2029 || n == 0x202F ||
    n == 0x205F || n == 0x3000

/-- Drops the blanks at the end. -/
def dropEndBlanks (cs : List Char) : List Char :=
  (cs.reverse.dropWhile isBlank).reverse

/-- Drops the blanks at both ends. -/
def dropOuterBlanks (cs : List Char) : List Char :=
  dropEndBlanks (cs.dropWhile isBlank)

/-- A text without the blanks at its end. -/
def trimEnd (s : String) : String := String.ofList (dropEndBlanks s.toList)

/-- A text without the blanks at its ends. -/
def trim (s : String) : String := String.ofList (dropOuterBlanks s.toList)

/-- A text with nothing but blanks in it. -/
def isEmptyOrBlank (s : String) : Bool := s.toList.all isBlank

/-! ### Lines -/

/-- The pieces between the occurrences of `sep`: one more than there are occurrences. -/
def pieces (sep : Char) : List Char → List (List Char)
  | [] => [[]]
  | c :: cs =>
    if c = sep then [] :: pieces sep cs
    else
      match pieces sep cs with
      | [] => [[c]]
      | p :: ps => (c :: p) :: ps

/-- Removes one carriage return at the end. -/
def dropReturn (cs : List Char) : List Char :=
  if cs.getLast? = some '\r' then cs.dropLast else cs

/-- The lines of the pieces between line feeds: every piece but the last was ended by one. -/
def linesOfPieces : List (List Char) → List (List Char)
  | [] => []
  | [last] => if last.isEmpty then [] else [last]
  | p :: q :: ps => dropReturn p :: linesOfPieces (q :: ps)

/-- The lines of a text, without their endings. -/
def lines (s : String) : List String :=
  (linesOfPieces (pieces '\n' s.toList)).map String.ofList

/-! ### Identifiers -/

/-- A character that an identifier may hold. -/
def isIdentChar (c : Char) : Bool :=
  c.isAlphanum || c == '_' || c == '$'

/-- Whether a text begins with a decimal digit. -/
def startsWithDigit : List Char → Bool
  | [] => false
  | c :: _ => c.isDigit

/-- A plain identifier. -/
def isIdentifier (cs : List Char) : Bool :=
  !cs.isEmpty && !startsWithDigit cs && cs.all isIdentChar

/-- Replaces what an identifier cannot hold by `_`, and puts one before a leading digit. -/
def identChars (cs : List Char) : List Char :=
  let out := cs.map fun c => if isIdentChar c then c else '_'
  if startsWithDigit out then '_' :: out else out

/-- An identifier for any text that is not empty. -/
def toIdentifier (s : String) : String := String.ofList (identChars s.toList)

/-! ### Quotes -/

/-- A hexadecimal digit in lower case. -/
def hexDigit (n : Nat) : Char :=
  if n < 10 then Char.ofNat ('0'.toNat + n) else Char.ofNat ('a'.toNat + (n - 10))

/-- How JSON writes one character of a text. -/
def escapeJson (c : Char) : List Char :=
  if c = '"' then ['\\', '"']
  else if c = '\\' then ['\\', '\\']
  else if c = '\n' then ['\\', 'n']
  else if c = '\r' then ['\\', 'r']
  else if c = '\t' then ['\\', 't']
  else if c.toNat = 8 then ['\\', 'b']
  else if c.toNat = 12 then ['\\', 'f']
  else if c.toNat < 0x20 then
    ['\\', 'u', '0', '0', hexDigit (c.toNat / 16), hexDigit (c.toNat % 16)]
  else [c]

/-- A text between quotes, each character written by `escape`. -/
def quoteWith (escape : Char → List Char) (cs : List Char) : List Char :=
  '"' :: (cs.flatMap escape ++ ['"'])

/-- A text as JSON quotes it. -/
def quote (s : String) : String := String.ofList (quoteWith escapeJson s.toList)

/-- How a string literal of the emitted program writes one character. -/
def escapeLiteral (c : Char) : List Char :=
  if c = '\\' then ['\\', '\\']
  else if c = '"' then ['\\', '"']
  else if c = '\n' then ['\\', 'n']
  else if c = '\r' then ['\\', 'r']
  else if c = '\t' then ['\\', 't']
  else [c]

/-- A text as a string literal of the emitted program. -/
def literal (s : String) : String := String.ofList (quoteWith escapeLiteral s.toList)

end Flowscript.Text
