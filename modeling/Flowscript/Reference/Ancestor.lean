/-
The nodes that a node can refer to: all that lead to it, nearest first, and
behind them the value that the program is called with.
-/
import Flowscript.Graph.Search

namespace Flowscript

/-- Something that a template can refer to. -/
structure Ancestor where
  nodeId : String
  label : String
  /-- None for the value that the program is called with. -/
  kind : Option Kind
  fields : List String
  deriving DecidableEq, Repr, Inhabited

/-- The name of the value that the program is called with. -/
def inputName : String := "input"

namespace Ancestor

/-- A node as something to refer to. -/
def ofNode (n : Node) : Ancestor :=
  { nodeId := n.id, label := n.title, kind := some n.kind, fields := n.fieldNames }

/-- The value that the program is called with, as something to refer to. -/
def input : Ancestor :=
  { nodeId := inputName, label := "Workflow input", kind := none, fields := [] }

def isInput (a : Ancestor) : Bool := a.kind.isNone && a.nodeId == inputName

def toJson (a : Ancestor) : Json.Value :=
  .object
    ([("nodeId", .string a.nodeId), ("label", .string a.label)] ++
      (a.kind.toList.map fun k => ("kind", .string k.name)) ++
      [("fields", .array (a.fields.map .string))])

end Ancestor

/-- The vertices that lead to a vertex, in breadth-first order, the vertex itself in front. -/
def Graph.leadingTo (g : Graph) (id : String) : List String :=
  if g.contains id then g.reach (fun v => (g.incoming v).map Link.source) [id] else []

/-- What a node can refer to, by a graph of the workflow. -/
def Workflow.ancestorsBy (w : Workflow) (g : Graph) (id : String) : List Ancestor :=
  ((g.leadingTo id).drop 1).filterMap (fun v => (w.node? v).map Ancestor.ofNode) ++
    [Ancestor.input]

/-- What a node can refer to. -/
def Workflow.ancestors (w : Workflow) (id : String) : List Ancestor :=
  w.ancestorsBy (Graph.ofWorkflow w) id

end Flowscript
