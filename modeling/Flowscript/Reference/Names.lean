/-
The variables of the emitted program: `step_` and the id as an identifier.

Names are given out in the order of the ids.  An id whose name is taken gets
the first free one of `step_x_2`, `step_x_3`, and so on.
-/
import Flowscript.Sorting
import Flowscript.Text.Basic
import Flowscript.Workflow.Basic

namespace Flowscript

/-- The name of each node id. -/
structure Names where
  table : List (String × String)
  deriving DecidableEq, Repr, Inhabited

namespace Names

/-- The name of an id if it is free. -/
def plain (id : String) : String := "step_" ++ Text.toIdentifier id

/-- The candidates for a name: the plain one, then numbered from two on. -/
def candidate (base : String) (n : Nat) : String :=
  if n = 0 then base else base ++ "_" ++ toString (n + 1)

/-- The first candidate that is free; one of the first `taken.length + 1` is. -/
def firstFree (base : String) (taken : List String) : String :=
  (((List.range (taken.length + 1)).map (candidate base)).find? fun c =>
    !taken.contains c).getD base

/-- Gives names to ids, one after the other. -/
def assign : List (String × String) → List String → List (String × String)
  | table, [] => table
  | table, id :: ids => assign (table ++ [(id, firstFree (plain id) (table.map Prod.snd))]) ids

/-- Names for distinct ids, in the order of the ids. -/
def ofIds (ids : List String) : Names := ⟨assign [] (sortedSet ids)⟩

/-- Names for the nodes of a workflow. -/
def ofWorkflow (w : Workflow) : Names := ofIds (w.nodes.map Node.id)

/-- The variable of a node. -/
def variableOf (names : Names) (id : String) : String :=
  (names.table.lookup id).getD (plain id)

end Names

/-- Access to a property: `.name` for an identifier, `["name"]` for any other name. -/
def memberAccess (name : String) : String :=
  if Text.isIdentifier name.toList then "." ++ name else "[" ++ Text.quote name ++ "]"

end Flowscript
