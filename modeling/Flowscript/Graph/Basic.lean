/-
The graph of a workflow.

Vertices are node ids, each once; links are the edges between them, numbered
in the order in which they were drawn.  An edge that names an unknown node is
not part of the graph.
-/
import Flowscript.Workflow.Basic
import Flowscript.Sorting

namespace Flowscript

/-- An edge of the graph, with its number. -/
structure Link where
  index : Nat
  edge : Edge
  deriving DecidableEq, Repr, Inhabited

namespace Link

def source (l : Link) : String := l.edge.source

def target (l : Link) : String := l.edge.target

end Link

/-- The nodes of a workflow as vertices, and its edges as numbered links. -/
structure Graph where
  ids : List String
  links : List Link
  deriving Repr, Inhabited

namespace Graph

/-- The first node of an id is the vertex; edges from or to unknown nodes are left out. -/
def ofWorkflow (w : Workflow) : Graph :=
  let ids := distinct (w.nodes.map Node.id)
  let kept := w.edges.filter fun e => ids.contains e.source && ids.contains e.target
  { ids, links := kept.zipIdx.map fun (e, i) => ⟨i, e⟩ }

def contains (g : Graph) (id : String) : Bool := g.ids.contains id

/-- The number of a vertex. -/
def index? (g : Graph) (id : String) : Option Nat := g.ids.findIdx? (· == id)

/-- The links that leave a vertex, oldest first. -/
def outgoing (g : Graph) (id : String) : List Link := g.links.filter fun l => l.source == id

/-- The links that enter a vertex, oldest first. -/
def incoming (g : Graph) (id : String) : List Link := g.links.filter fun l => l.target == id

/-- The oldest link from one vertex to another. -/
def between? (g : Graph) (a b : String) : Option Link :=
  g.links.find? fun l => l.source == a && l.target == b

/-- The targets of the links that leave a vertex, newest first. -/
def nextNewest (g : Graph) (id : String) : List String :=
  (g.outgoing id).reverse.map Link.target

end Graph

end Flowscript
