/-
The emitted program as lines, before it is text.

Lines that open a bracket and lines that close one set the indentation of what
stands between them, two spaces for each level.
-/
import Flowscript.Text.Basic

namespace Flowscript.Script

/-- A line of a program, without its indentation. -/
inductive Line
  | plain (text : String)
  | blank
  /-- A comment; a text of several lines becomes a comment on each of them. -/
  | comment (text : String)
  /-- Opens a bracket. -/
  | opening (text : String)
  /-- Closes the bracket that was opened last. -/
  | closing (text : String)
  /-- Closes a bracket and opens another. -/
  | turning (text : String)
  deriving DecidableEq, Repr

/-- One line of text at some level. -/
def indented (depth : Nat) (text : String) : String :=
  String.ofList (List.replicate (2 * depth) ' ') ++ text ++ "\n"

/-- The comment lines of a text. -/
def commentLines (depth : Nat) (text : String) : String :=
  String.join ((Text.lines text).map fun part => indented depth ("// " ++ Text.trimEnd part))

namespace Line

/-- The text of a line at some level. -/
def render (depth : Nat) : Line → String
  | plain text => indented depth text
  | blank => "\n"
  | comment text => commentLines depth text
  | opening text => indented depth text
  | closing text => indented (depth - 1) text
  | turning text => indented (depth - 1) text

/-- The level behind a line. -/
def after (depth : Nat) : Line → Nat
  | opening _ => depth + 1
  | closing _ => depth - 1
  | turning _ => depth - 1 + 1
  | _ => depth

end Line

/-- The text of lines from some level on. -/
def renderFrom : Nat → List Line → String
  | _, [] => ""
  | depth, l :: ls => l.render depth ++ renderFrom (l.after depth) ls

def render (ls : List Line) : String := renderFrom 0 ls

/-- `text {` -/
def openBrace (text : String) : Line := .opening (text ++ " \x7b")

/-- `}` -/
def closeBrace : Line := .closing "\x7d"

end Flowscript.Script
