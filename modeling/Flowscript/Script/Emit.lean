/-
The program of a tree of blocks.

Every block becomes lines, and every template in it is resolved on the way;
the warnings come in the order of the templates.  The tree need not come from
the workflow: a block of an unknown node is passed over.
-/
import Flowscript.Options
import Flowscript.Plan.Walk
import Flowscript.Script.Line
import Flowscript.Script.Literal

namespace Flowscript.Script

/-- Lines of a program, and the warnings that arose with them. -/
structure Piece where
  lines : List Line := []
  warnings : List Diagnostic := []

namespace Piece

def ofLines (lines : List Line) : Piece := { lines }

instance : Append Piece where
  append a b := ⟨a.lines ++ b.lines, a.warnings ++ b.warnings⟩

def concat : List Piece → Piece
  | [] => {}
  | p :: ps => p ++ concat ps

/-- A line with a resolved template in it. -/
def ofTemplate (line : String → Line) (write : Resolved → String) (r : Resolved) : Piece :=
  ⟨[line (write r)], r.warnings⟩

end Piece

/-- What the emission of a program looks at. -/
structure Context where
  accepted : Accepted
  names : Names
  options : Options

namespace Context

def variableOf (c : Context) (id : String) : String := c.names.variableOf id

def resolver (c : Context) (id : String) : Resolver :=
  { nodeId := id
    ancestors := c.accepted.workflow.ancestorsBy c.accepted.graph id
    names := c.names }

/-- A comment, if comments are wanted. -/
def comment (c : Context) (text : String) : List Line :=
  if c.options.emitComments then [.comment text] else []

/-- The line above the statements of a node. -/
def heading (c : Context) (n : Node) : List Line :=
  let label := String.ofList (n.title.toList.map fun x => if x = '\n' ∨ x = '\r' then ' ' else x)
  c.comment
    (if label = n.id then label ++ " [" ++ n.kind.name ++ "]"
    else label ++ " [" ++ n.kind.name ++ "] (" ++ n.id ++ ")")

end Context

/-! ### Single nodes -/

def outputFieldLines (fields : Option (List OutputField)) : List Line :=
  match fields with
  | none => []
  | some [] => []
  | some fields => [.plain ("outputFields: " ++ textArray (fields.map OutputField.name) ++ ",")]

/-- A property whose value is a template. -/
def templateProperty (r : Resolver) (name template : String) : Piece :=
  .ofTemplate (fun value => .plain (name ++ ": " ++ value ++ ",")) textValue (r.resolve template)

/-- A property whose value is a string literal. -/
def literalProperty (name value : String) : Line :=
  .plain (name ++ ": " ++ Text.literal value ++ ",")

def optionalLine {α : Type} (line : α → Line) (value : Option α) : List Line :=
  value.toList.map line

/-- A call of the runtime with one object, whose properties are given. -/
def callPiece (c : Context) (id method : String) (properties : Piece) : Piece :=
  .ofLines
      [ .opening (c.variableOf id ++ " = await runtime." ++ method ++ "(\x7b"),
        literalProperty "nodeId" id ] ++
    properties ++ .ofLines [.closing "\x7d);"]

def agentPiece (c : Context) (id : String) (config : Agent) : Piece :=
  let r := c.resolver id
  callPiece c id "runAgent"
    (.ofLines (optionalLine (literalProperty "model") config.model) ++
      .concat (config.systemPrompt.toList.map (templateProperty r "systemPrompt")) ++
      templateProperty r "prompt" config.prompt ++
      .ofLines
        ((if config.tools.isEmpty then []
          else [.plain ("tools: " ++ textArray config.tools ++ ",")]) ++
          optionalLine (fun t => .plain ("temperature: " ++ plainLayout.write t ++ ","))
            config.temperature ++
          optionalLine (fun n => .plain ("maxTokens: " ++ toString n ++ ",")) config.maxTokens ++
          outputFieldLines config.outputFields))

def toolCallPiece (c : Context) (id : String) (config : ToolCall) : Piece :=
  let r := c.resolver id
  let arguments : Piece :=
    if config.arguments.isEmpty then .ofLines [.plain "arguments: \x7b\x7d,"]
    else
      .ofLines [openBrace "arguments:"] ++
        .concat (config.arguments.map fun (name, template) =>
          templateProperty r (keyText name) template) ++
        .ofLines [.closing "\x7d,"]
  callPiece c id "callTool"
    (.ofLines [literalProperty "tool" config.tool] ++ arguments ++
      .ofLines (outputFieldLines config.outputFields))

def retrievalPiece (c : Context) (id : String) (config : Retrieval) : Piece :=
  callPiece c id "retrieve"
    (.ofLines [literalProperty "source" config.source] ++
      templateProperty (c.resolver id) "query" config.query ++
      .ofLines
        (optionalLine (fun n => .plain ("topK: " ++ toString n ++ ",")) config.topK ++
          outputFieldLines config.outputFields))

/-- A member of a team on one line. -/
def memberPiece (r : Resolver) (m : Member) : Piece :=
  let instructions := m.instructions.map r.resolve
  let properties :=
    ["name: " ++ Text.literal m.name] ++
      (m.role.toList.map fun v => "role: " ++ Text.literal v) ++
      (m.model.toList.map fun v => "model: " ++ Text.literal v) ++
      (instructions.toList.map fun v => "instructions: " ++ textValue v)
  { lines := [.plain ("\x7b " ++ String.intercalate ", " properties ++ " \x7d,")]
    warnings := instructions.toList.flatMap Resolved.warnings }

def teamPiece (c : Context) (id : String) (config : Team) : Piece :=
  let r := c.resolver id
  callPiece c id "runTeam"
    (.ofLines [literalProperty "strategy" config.strategy.name] ++
      templateProperty r "task" config.task ++
      .ofLines [.opening "members: ["] ++
      .concat (config.members.map (memberPiece r)) ++
      .ofLines
        ([.closing "],"] ++
          optionalLine (fun n => .plain ("maxRounds: " ++ toString n ++ ",")) config.maxRounds ++
          outputFieldLines config.outputFields))

def triggerPiece (c : Context) (id : String) (config : Trigger) : Piece :=
  let source :=
    match config.triggerType with
    | .manual => []
    | .webhook => c.comment "Invoked by webhook; `input` is the request payload."
    | .schedule => c.comment ("Invoked on schedule " ++ config.schedule.getD "")
  let schema := config.inputSchema.toList.flatMap fun v => c.comment ("Input schema: " ++ v.render)
  .ofLines (source ++ schema ++ [.plain (c.variableOf id ++ " = \x7b output: input \x7d;")])

/-- The statement of a node that steers nothing. -/
def nodePiece (c : Context) (n : Node) : Piece :=
  match n.config with
  | .trigger config => triggerPiece c n.id config
  | .agent config => agentPiece c n.id config
  | .toolCall config => toolCallPiece c n.id config
  | .retrieval config => retrievalPiece c n.id config
  | .team config => teamPiece c n.id config
  | _ => .ofLines [.plain (c.variableOf n.id ++ " = \x7b output: undefined \x7d;")]

/-! ### Blocks -/

/-- The heading of a node, if the workflow has it. -/
def headingOf (c : Context) (id : String) : Piece :=
  match c.accepted.node? id with
  | some n => .ofLines (c.heading n)
  | none => {}

/-- The expression and the labels of a condition; other nodes have none of their own. -/
def conditionOf (n : Node) : Condition :=
  match n.config with
  | .condition config => config
  | _ => {}

/-- A condition with its two arms, of which those with nothing to run are left out. -/
def branchPiece (c : Context) (id : String) (noTrue noFalse : Bool)
    (onTrue onFalse : Piece) : Piece :=
  match c.accepted.node? id with
  | none => {}
  | some n =>
    let config := conditionOf n
    let var := c.variableOf id
    let trueArm := .ofLines (c.comment config.trueLabel) ++ onTrue
    let falseArm := .ofLines (c.comment config.falseLabel) ++ onFalse
    let arms : Piece :=
      match noTrue, noFalse with
      | true, true => {}
      | false, true =>
        .ofLines [openBrace ("if (" ++ var ++ ".output)")] ++ trueArm ++ .ofLines [closeBrace]
      | true, false =>
        .ofLines [openBrace ("if (!" ++ var ++ ".output)")] ++ falseArm ++ .ofLines [closeBrace]
      | false, false =>
        .ofLines [openBrace ("if (" ++ var ++ ".output)")] ++ trueArm ++
          .ofLines [.turning "\x7d else \x7b"] ++ falseArm ++ .ofLines [closeBrace]
    .ofLines (c.heading n) ++
      .ofTemplate (fun value => .plain (var ++ " = \x7b output: Boolean(" ++ value ++ ") \x7d;"))
        expressionValue ((c.resolver id).resolve config.expression) ++
      arms

/-- One arm of a parallel node: a function that gives the value of its last node. -/
def armPiece (c : Context) (slot : String) (b : Block) (inner : Piece) : Piece :=
  .ofLines ([.opening "(async () => \x7b"] ++ c.comment ("slot: " ++ slot)) ++ inner ++
    .ofLines
      (optionalLine (fun id => .plain ("return " ++ c.variableOf id ++ ";")) b.tail? ++
        [.closing "\x7d)(),"])

/-- The name of the function that merges, and the value when there is nothing to merge. -/
def mergeWords : Merge → String × String
  | .all => ("Promise.all", "[]")
  | .first => ("Promise.race", "undefined")

/-- A parallel node; `arms` are those that run anything. -/
def fanPiece (c : Context) (id : String) (merge : Merge) (arms : List Piece) : Piece :=
  let (combine, nothing) := mergeWords merge
  headingOf c id ++
    if arms.isEmpty then
      .ofLines [.plain (c.variableOf id ++ " = \x7b output: " ++ nothing ++ " \x7d;")]
    else
      .ofLines
          [ .opening (c.variableOf id ++ " = \x7b"),
            .opening ("output: await " ++ combine ++ "([") ] ++
        .concat arms ++ .ofLines [.closing "]),", .closing "\x7d;"]

/-- A feedback loop around its body. -/
def loopPiece (c : Context) (id : String) (body : Block) (maxIterations : Nat)
    (stopCondition : String) (inner : Piece) : Piece :=
  let var := c.variableOf id
  let stop : Piece :=
    if Text.isEmptyOrBlank stopCondition then {}
    else
      .ofTemplate (fun value => openBrace ("if (" ++ value ++ ")")) expressionValue
          ((c.resolver id).resolve stopCondition) ++
        .ofLines [.plain "break;", closeBrace]
  headingOf c id ++
    .ofLines
      [ .plain (var ++ " = \x7b output: undefined, iterations: 0 \x7d;"),
        openBrace ("for (let i = 0; i < " ++ toString maxIterations ++ "; i++)") ] ++
    inner ++
    .ofLines
      ([.plain (var ++ ".iterations = i + 1;")] ++
        optionalLine (fun id => .plain (var ++ ".output = " ++ c.variableOf id ++ ";"))
          body.tail?) ++
    stop ++ .ofLines [closeBrace]

mutual

/-- The statements of a block and of all that follows it. -/
def blockPiece (c : Context) : Block → Piece
  | .seq id next =>
    (match c.accepted.node? id with
      | some n => .ofLines (c.heading n) ++ nodePiece c n
      | none => {}) ++ blockPiece c next
  | .branch id onTrue onFalse next =>
    branchPiece c id onTrue.isDone onFalse.isDone (blockPiece c onTrue) (blockPiece c onFalse) ++
      blockPiece c next
  | .fan id arms merge next => fanPiece c id merge (armPieces c arms) ++ blockPiece c next
  | .loop id body maxIterations stopCondition next =>
    loopPiece c id body maxIterations stopCondition (blockPiece c body) ++ blockPiece c next
  | .fork arms next => listPiece c arms ++ blockPiece c next
  | .visited id => .ofLines (c.comment ("'" ++ id ++ "' already ran on another path"))
  | .done => {}

/-- The arms that run anything. -/
def armPieces (c : Context) : List (String × Block) → List Piece
  | [] => []
  | (slot, b) :: rest =>
    let piece := armPiece c slot b (blockPiece c b)
    if b.owned.isEmpty then armPieces c rest else piece :: armPieces c rest

def listPiece (c : Context) : List Block → Piece
  | [] => {}
  | b :: rest => blockPiece c b ++ listPiece c rest

end

/-! ### Whole programs -/

/-- Everything above the first statement of a node. -/
def prologue (c : Context) : List Line :=
  let header := c.options.header.toList.filter fun h => !Text.isEmptyOrBlank h
  (header.map .comment) ++
    [ .plain ("import type \x7b Runtime \x7d from " ++ Text.literal c.options.runtimeImport ++ ";"),
      .blank,
      openBrace
        ("export async function " ++ c.options.entryName ++
          "(runtime: Runtime, input: unknown): Promise<Record<string, unknown>>") ] ++
    ((sortedSet (c.accepted.workflow.nodes.map Node.id)).map fun id =>
      .plain ("let " ++ c.variableOf id ++ ": any;")) ++
    [.blank]

/-- Gives back the values of the nodes that nothing follows, and closes the function. -/
def epilogue (c : Context) : List Line :=
  let leaves := (sortedSet (c.accepted.workflow.nodes.map Node.id)).filter fun id =>
    (c.accepted.graph.outgoing id).isEmpty
  let result : List Line :=
    if leaves.isEmpty then [.plain "return \x7b\x7d;"]
    else
      [openBrace "return"] ++
        (leaves.map fun id => .plain (Text.literal id ++ ": " ++ c.variableOf id ++ ",")) ++
        [.closing "\x7d;"]
  [.blank] ++ result ++ [closeBrace]

/-- The whole program as lines. -/
def programPiece (c : Context) (b : Block) : Piece :=
  .ofLines (prologue c) ++ blockPiece c b ++ .ofLines (epilogue c)

/-- A program text and the warnings that arose with it. -/
structure Emitted where
  code : String
  diagnostics : List Diagnostic

/-- The program of a tree of blocks for an accepted workflow. -/
def emit (b : Block) (a : Accepted) (options : Options) : Emitted :=
  let p := programPiece ⟨a, Names.ofWorkflow a.workflow, options⟩ b
  { code := render p.lines, diagnostics := p.warnings }

end Flowscript.Script
