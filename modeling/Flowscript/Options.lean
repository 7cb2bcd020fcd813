/-
What the user of the compiler chooses about the emitted program.
-/
import Flowscript.Json.Record
import Flowscript.Text.Basic

namespace Flowscript

/-- What can be chosen about the emitted program. -/
structure Options where
  /-- The name of the exported function, before it is made an identifier. -/
  functionName : String := "runWorkflow"
  /-- The module from which the type `Runtime` is imported. -/
  runtimeImport : String := "./runtime"
  emitComments : Bool := true
  /-- A comment above everything else. -/
  header : Option String := none
  deriving DecidableEq, Repr, Inhabited

namespace Options

/-- The exported function's name as an identifier. -/
def entryName (o : Options) : String :=
  let name := Text.toIdentifier (Text.trim o.functionName)
  if name.isEmpty then "runWorkflow" else name

open Json

def record : Record Options where
  blank := {}
  fields :=
    [ { name := "functionName", presence := .defaulted,
        put := fun o s => do return { o with functionName := ← s.text } },
      { name := "runtimeImport", presence := .defaulted,
        put := fun o s => do return { o with runtimeImport := ← s.text } },
      { name := "emitComments", presence := .defaulted,
        put := fun o s => do return { o with emitComments := ← s.boolean } },
      { name := "header", presence := .defaulted,
        put := fun o s => do return { o with header := ← s.optional Source.text } } ]

def read : Source → Except Fault Options := record.read .streamed "CompileOptions"

/-- Options from a JSON text. -/
def parse (text : String) : Except Fault Options := readText read text

def toJson (o : Options) : Value :=
  .object
    [ ("functionName", .string o.functionName),
      ("runtimeImport", .string o.runtimeImport),
      ("emitComments", .bool o.emitComments),
      ("header", Value.ofOption .string o.header) ]

end Options

end Flowscript
