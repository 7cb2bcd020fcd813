/-
The control flow of a program as a tree of blocks.

A block runs a node, or several blocks one after the other, and goes on with
what follows.  A node is owned by the block that runs it; a path that comes to
a node after it was run ends in `visited`.
-/
import Flowscript.Workflow.Basic

namespace Flowscript

/-- A tree of blocks. -/
inductive Block
  /-- Runs a node, then `next`. -/
  | seq (node : String) (next : Block)
  /-- Runs a condition, then one of two blocks, then `next`. -/
  | branch (node : String) (onTrue onFalse next : Block)
  /-- Runs the arms of a parallel node at the same time, each under the name of its slot, then
  `next`. -/
  | fan (node : String) (arms : List (String × Block)) (merge : Merge) (next : Block)
  /-- Repeats `body` until the condition holds, at most `maxIterations` times, then `next`. -/
  | loop (node : String) (body : Block) (maxIterations : Nat) (stopCondition : String)
      (next : Block)
  /-- Runs blocks one after the other, then `next`. -/
  | fork (arms : List Block) (next : Block)
  /-- A node that another block runs. -/
  | visited (node : String)
  | done
  deriving Repr, Inhabited

namespace Block

/-- Whether nothing is left to do. -/
def isDone : Block → Bool
  | .done => true
  | _ => false

/-- The node that a block runs itself. -/
def owner? : Block → Option String
  | .seq node _ => some node
  | .branch node _ _ _ => some node
  | .fan node _ _ _ => some node
  | .loop node _ _ _ _ => some node
  | .fork _ _ => none
  | .visited _ => none
  | .done => none

/-- The blocks inside a block, in the order in which they run. -/
def children : Block → List Block
  | .seq _ next => [next]
  | .branch _ onTrue onFalse next => [onTrue, onFalse, next]
  | .fan _ arms _ next => arms.map Prod.snd ++ [next]
  | .loop _ body _ _ next => [body, next]
  | .fork arms next => arms ++ [next]
  | .visited _ => []
  | .done => []

mutual

/-- All nodes that are run, in the order in which they run. -/
def owned : Block → List String
  | .seq node next => node :: owned next
  | .branch node onTrue onFalse next => node :: (owned onTrue ++ owned onFalse ++ owned next)
  | .fan node arms _ next => node :: (ownedArms arms ++ owned next)
  | .loop node body _ _ next => node :: (owned body ++ owned next)
  | .fork arms next => ownedList arms ++ owned next
  | .visited _ => []
  | .done => []

def ownedArms : List (String × Block) → List String
  | [] => []
  | (_, b) :: rest => owned b ++ ownedArms rest

def ownedList : List Block → List String
  | [] => []
  | b :: rest => owned b ++ ownedList rest

end

mutual

/-- The nodes of the `visited` blocks. -/
def revisited : Block → List String
  | .seq _ next => revisited next
  | .branch _ onTrue onFalse next => revisited onTrue ++ revisited onFalse ++ revisited next
  | .fan _ arms _ next => revisitedArms arms ++ revisited next
  | .loop _ body _ _ next => revisited body ++ revisited next
  | .fork arms next => revisitedList arms ++ revisited next
  | .visited node => [node]
  | .done => []

def revisitedArms : List (String × Block) → List String
  | [] => []
  | (_, b) :: rest => revisited b ++ revisitedArms rest

def revisitedList : List Block → List String
  | [] => []
  | b :: rest => revisited b ++ revisitedList rest

end

mutual

/-- The last node on the main path, whose value is the value of the block. -/
def tail? : Block → Option String
  | .seq node next => (tail? next).or (some node)
  | .branch node _ _ next => (tail? next).or (some node)
  | .fan node _ _ next => (tail? next).or (some node)
  | .loop node _ _ _ next => (tail? next).or (some node)
  | .fork arms next => (tail? next).or (lastTail? arms)
  | .visited _ => none
  | .done => none

/-- The last node of the last block that has one. -/
def lastTail? : List Block → Option String
  | [] => none
  | b :: rest => (lastTail? rest).or (tail? b)

end

open Json

mutual

def toJson : Block → Value
  | .seq node next =>
    .object [("block", .string "seq"), ("nodeId", .string node), ("next", toJson next)]
  | .branch node onTrue onFalse next =>
    .object
      [ ("block", .string "branch"), ("nodeId", .string node), ("onTrue", toJson onTrue),
        ("onFalse", toJson onFalse), ("then", toJson next) ]
  | .fan node arms merge next =>
    .object
      [ ("block", .string "fan"), ("nodeId", .string node), ("branches", .array (armsToJson arms)),
        ("mergeStrategy", .string merge.name), ("then", toJson next) ]
  | .loop node body maxIterations stopCondition next =>
    .object
      [ ("block", .string "loop"), ("nodeId", .string node), ("body", toJson body),
        ("maxIterations", .number (.integer maxIterations)),
        ("stopCondition", .string stopCondition), ("then", toJson next) ]
  | .fork arms next =>
    .object
      [("block", .string "fork"), ("branches", .array (listToJson arms)), ("then", toJson next)]
  | .visited node => .object [("block", .string "visited"), ("nodeId", .string node)]
  | .done => .object [("block", .string "end")]

def armsToJson : List (String × Block) → List Value
  | [] => []
  | (slot, b) :: rest => .object [("slot", .string slot), ("block", toJson b)] :: armsToJson rest

def listToJson : List Block → List Value
  | [] => []
  | b :: rest => toJson b :: listToJson rest

end

end Block

end Flowscript
