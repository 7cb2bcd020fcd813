/-
JSON values and their compact text.

An object is the list of its members as they were written, repetitions
included; `Value.normal` keeps the last member of each name and orders them by
name.
-/
import Flowscript.Json.Number
import Flowscript.Text.Basic

namespace Flowscript.Json

/-- A JSON value; the members of an object keep their order. -/
inductive Value
  | null
  | bool (value : Bool)
  | number (value : Number)
  | string (value : String)
  | array (items : List Value)
  | object (members : List (String × Value))
  deriving Repr, Inhabited, BEq

/-- Adds a member to members ordered by name, in place of one of its name. -/
def insertMember {β : Type} (name : String) (value : β) : List (String × β) → List (String × β)
  | [] => [(name, value)]
  | (n, v) :: rest =>
    if name = n then (name, value) :: rest
    else if name < n then (name, value) :: (n, v) :: rest
    else (n, v) :: insertMember name value rest

namespace Value

/-- Null for nothing. -/
def ofOption {β : Type} (f : β → Value) : Option β → Value
  | none => .null
  | some b => f b

mutual

/-- The same value with every object ordered by name and the last member of each name kept. -/
def normal : Value → Value
  | .null => .null
  | .bool b => .bool b
  | .number n => .number n
  | .string s => .string s
  | .array items => .array (normalItems items)
  | .object members => .object (normalMembers [] members)

def normalItems : List Value → List Value
  | [] => []
  | v :: vs => normal v :: normalItems vs

def normalMembers (acc : List (String × Value)) : List (String × Value) → List (String × Value)
  | [] => acc
  | (n, v) :: rest => normalMembers (insertMember n (normal v) acc) rest

end

mutual

/-- The text of a value without any blank. -/
def render : Value → String
  | .null => "null"
  | .bool true => "true"
  | .bool false => "false"
  | .number n => n.render
  | .string s => Text.quote s
  | .array items => "[" ++ String.intercalate "," (renderItems items) ++ "]"
  | .object members => "\x7b" ++ String.intercalate "," (renderMembers members) ++ "\x7d"

def renderItems : List Value → List String
  | [] => []
  | v :: vs => render v :: renderItems vs

def renderMembers : List (String × Value) → List String
  | [] => []
  | (n, v) :: rest => (Text.quote n ++ ":" ++ render v) :: renderMembers rest

end

end Value

end Flowscript.Json
