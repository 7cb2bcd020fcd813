/-
Acceptance of a workflow.

`check` runs every rule.  A workflow with an error is refused with all that
was found; otherwise it is accepted, together with its graph and its loops.
-/
import Flowscript.Check.Config
import Flowscript.Loop

namespace Flowscript

/-- An accepted workflow. -/
structure Accepted where
  workflow : Workflow
  graph : Graph
  loops : Loops
  warnings : List Diagnostic
  deriving Repr, Inhabited

namespace Accepted

def node? (a : Accepted) (id : String) : Option Node := a.workflow.node? id

/-- The links that do not go back to the entry of a loop and leave a vertex, oldest first. -/
def forwardOut (a : Accepted) (id : String) : List Link :=
  (a.graph.outgoing id).filter fun l => !a.loops.isBack l

/-- The links that do not go back to the entry of a loop and enter a vertex, oldest first. -/
def forwardIn (a : Accepted) (id : String) : List Link :=
  (a.graph.incoming id).filter fun l => !a.loops.isBack l

end Accepted

/-- What the rules on shape and configuration have to say. -/
def graphDiagnostics (w : Workflow) (g : Graph) : List Diagnostic :=
  (Check.structuralFaults w g).map ShapeFault.toDiagnostic ++
    w.nodes.flatMap Check.nodeDiagnostics

/-- Accepts a workflow, or gives all that is to be said against it. -/
def check (w : Workflow) : Except (List Diagnostic) Accepted :=
  let graph := Graph.ofWorkflow w
  let (loops, faults) := Check.findLoops w graph
  let diagnostics := graphDiagnostics w graph ++ faults.map LoopFault.toDiagnostic
  if hasErrors diagnostics then .error diagnostics
  else .ok { workflow := w, graph, loops, warnings := diagnostics }

end Flowscript
