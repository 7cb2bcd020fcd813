/-
Whether a tree of blocks runs every node once: no node twice, none left out,
and no reference to a node that is not run.
-/
import Flowscript.Diagnostic
import Flowscript.Plan.Block
import Flowscript.Sorting

namespace Flowscript

/-- What is wrong with a plan: a node is run twice or never, or a path ends at a node that no block
runs. -/
inductive PlanFault
  | repeated (node : String)
  | lost (node : String)
  | dangling (node : String)
  deriving DecidableEq, Repr

namespace PlanFault

def code : PlanFault → String
  | repeated _ => "E001"
  | lost _ => "E002"
  | dangling _ => "E003"

def message : PlanFault → String
  | repeated node => "Node '" ++ node ++ "' is emitted more than once"
  | lost node => "Node '" ++ node ++ "' is never emitted"
  | dangling node => "Reference to node '" ++ node ++ "' which no block owns"

def node : PlanFault → String
  | repeated node => node
  | lost node => node
  | dangling node => node

def toDiagnostic (f : PlanFault) : Diagnostic :=
  { severity := .error, code := f.code, phase := .plan, message := f.message,
    nodeId := some f.node }

end PlanFault

/-- What is wrong with a tree that should run the given nodes. -/
def Block.faults (b : Block) (ids : List String) : List PlanFault :=
  let owned := b.owned
  (sortedSet (repetitions [] owned)).map .repeated ++
    ((sortedSet ids).filter fun id => !owned.contains id).map .lost ++
    ((sortedSet b.revisited).filter fun id => !owned.contains id).map .dangling

end Flowscript
