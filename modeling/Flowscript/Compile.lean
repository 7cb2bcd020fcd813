/-
From a workflow to its program.

A workflow is put into a canonical order first, so the program does not depend
on the order in which nodes and edges were drawn.
-/
import Flowscript.Script.Emit
import Flowscript.Workflow.Read

namespace Flowscript

/-- Nothing comes before something. -/
def compareOption {α : Type} (compare : α → α → Ordering) : Option α → Option α → Ordering
  | none, none => .eq
  | none, some _ => .lt
  | some _, none => .gt
  | some a, some b => compare a b

/-- True comes before false. -/
def compareBranch : Bool → Bool → Ordering
  | true, false => .lt
  | false, true => .gt
  | _, _ => .eq

/-- By source, target, branch, slot and id. -/
def Edge.compare (a b : Edge) : Ordering :=
  (compareText a.source b.source).then <| (compareText a.target b.target).then <|
    (compareOption compareBranch a.branch b.branch).then <|
      (compareOption compareText a.slot b.slot).then <| compareText a.id b.id

/-- The same workflow with its nodes and edges in order. -/
def Workflow.canonical (w : Workflow) : Workflow where
  nodes := sortBy (fun a b => compareText a.id b.id != .gt) w.nodes
  edges := sortBy (fun a b => a.compare b != .gt) w.edges

/-- A program and all that is to be said about it. -/
structure Compiled where
  /-- Empty if one of the messages is an error. -/
  code : String
  diagnostics : List Diagnostic

/-- The program of a workflow without any node. -/
def blankProgram : String := "// This workflow is empty. Add a trigger to get started.\n"

/-- Compiles a workflow. -/
def Workflow.compile (w : Workflow) (options : Options) : Compiled :=
  if w.nodes.isEmpty then ⟨blankProgram, []⟩
  else
    match check w.canonical with
    | .error diagnostics => ⟨"", diagnostics⟩
    | .ok accepted =>
      let plan := accepted.plan
      let diagnostics := accepted.warnings ++ plan.diagnostics
      if hasErrors plan.diagnostics then ⟨"", diagnostics⟩
      else
        let emitted := Script.emit plan.block accepted options
        ⟨emitted.code, diagnostics ++ emitted.diagnostics⟩

/-- Compiles a request given as JSON text. -/
def compileText (text : String) : Except Json.Fault Compiled := do
  let request ← Request.parse text
  return request.workflow.compile request.options

end Flowscript
