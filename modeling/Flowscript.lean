import Flowscript.Text.Basic
import Flowscript.Decimal.Shortest
import Flowscript.Decimal.Layout
import Flowscript.Json.Number
import Flowscript.Json.Value
import Flowscript.Json.Source
import Flowscript.Text.Inspect
import Flowscript.Json.Fault
import Flowscript.Json.Decode
import Flowscript.Json.Record
import Flowscript.Workflow.Basic
import Flowscript.Workflow.Read
import Flowscript.Workflow.Write
import Flowscript.Options
import Flowscript.Diagnostic
import Flowscript.Sorting
import Flowscript.Graph.Basic
import Flowscript.Graph.Search
import Flowscript.Check.Structure
import Flowscript.Check.Config
import Flowscript.Loop
import Flowscript.Check
import Flowscript.Order
import Flowscript.Reference.Ancestor
import Flowscript.Reference.Names
import Flowscript.Reference.Template
import Flowscript.Plan.Block
import Flowscript.Plan.Audit
import Flowscript.Plan.Walk
import Flowscript.Script.Line
import Flowscript.Script.Literal
import Flowscript.Script.Emit
import Flowscript.Compile
import Flowscript.Proofs.Outcome
import Flowscript.Proofs.Graph
import Flowscript.Proofs.Acceptance
import Flowscript.Proofs.Search
import Flowscript.Proofs.Sorting
import Flowscript.Proofs.Loop
import Flowscript.Proofs.Cycle
import Flowscript.Proofs.Natural
import Flowscript.Proofs.Sound
import Flowscript.Proofs.Order
import Flowscript.Proofs.Plan.Step
import Flowscript.Proofs.Plan.Reach
import Flowscript.Proofs.Plan.Invariant
import Flowscript.Proofs.Plan.Rule
import Flowscript.Proofs.Plan.Coverage
import Flowscript.Proofs.Plan.Dependence
import Flowscript.Proofs.Compile
import Flowscript.Proofs.Plan.Guard
import Flowscript.Proofs.Plan.Sealed
import Flowscript.Proofs.Plan.Entered
import Flowscript.Proofs.Plan.Live
import Flowscript.Proofs.Plan.Tree
import Flowscript.Proofs.Plan.Part
import Flowscript.Proofs.Plan.Enclosed
import Flowscript.Proofs.Plan.Join
import Flowscript.Proofs.Plan.Nesting
import Flowscript.Proofs.Plan.Traced
import Flowscript.Proofs.Plan.Apart
import Flowscript.Proofs.Reference.Ancestor
import Flowscript.Proofs.Breadth
import Flowscript.Proofs.Reference.Nearest
import Flowscript.Proofs.Reference.Names
import Flowscript.Proofs.Reference.Template
import Flowscript.Proofs.Reference.Lossless
import Flowscript.Proofs.Plan.Sibling
import Flowscript.Proofs.Dominance
import Flowscript.Proofs.Shape
import Flowscript.Proofs.Reducible
import Flowscript.Proofs.Irreducible
import Flowscript.Proofs.LoopNest
import Flowscript.Proofs.Text.Bytes
import Flowscript.Proofs.Least
import Flowscript.Proofs.Redrawn.Graph
import Flowscript.Proofs.Redrawn.Loop
import Flowscript.Proofs.Redrawn.Plan
import Flowscript.Proofs.Canonical
import Flowscript.Proofs.Reconfigured.Check
import Flowscript.Proofs.Reconfigured.Plan
import Flowscript.Proofs.Renamed.Loop
import Flowscript.Proofs.Script.Assign
import Flowscript.Proofs.Script.Row
import Flowscript.Proofs.Json.Number
import Flowscript.Proofs.Json.Value
import Flowscript.Proofs.Json.Read
import Flowscript.Proofs.Json.Record
import Flowscript.Proofs.Json.Scan
import Flowscript.Proofs.Workflow.Written
import Flowscript.Proofs.Workflow.RoundTrip
import Flowscript.Proofs.Reference.Idempotent
import Flowscript.Proofs.Reference.Upstream
import Flowscript.Proofs.Renamed.Graph
import Flowscript.Proofs.Text.OneLine
import Flowscript.Proofs.Text.Trim
import Flowscript.Proofs.Plan.Headed
import Flowscript.Proofs.Plan.Race
import Flowscript.Proofs.Text.Literal
import Flowscript.Proofs.Reference.Access
import Flowscript.Proofs.Script.Template
import Flowscript.Proofs.Script.Comment
import Flowscript.Proofs.Reference.Table
import Flowscript.Proofs.Plan.Audit
import Flowscript.Proofs.Script.Silent
import Flowscript.Proofs.Script.Bracket
import Flowscript.Proofs.Plan.Calls
import Flowscript.Proofs.Script.Result
