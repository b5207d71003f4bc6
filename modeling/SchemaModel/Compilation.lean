import SchemaModel.Introspection.Reading
import SchemaModel.Resolution
import SchemaModel.Sdl.Grammar

/-! # Compilations

    From the text of a source to its model.

    * **Encoding**: the two ways to write a schema.
    * **compile**: reads a source under a policy and resolves it.
-/

namespace SchemaModel

/-- The ways to write a schema. -/
inductive Encoding where
  | sdl
  | introspection
  deriving Repr, DecidableEq

/-- A model with what was found on the way. -/
structure Compilation where
  model : Model
  findings : List Diagnostic
  /-- The number of constructs that were left out. -/
  skipped : Nat
  deriving Repr, DecidableEq

/-- Reads the text of a source under a policy. -/
def readSource : Encoding → Policy → String → Except Failure Schema
  | .sdl => Sdl.read
  | .introspection => Introspection.readText

/-- Compiles a schema. -/
def compileSchema (options : Options) (schema : Schema) : Except Failure Compilation := do
  let model ← resolve options schema
  return ⟨model, schema.findings, schema.skipped.length⟩

/-- Compiles the text of a source. -/
def compile (options : Options) (encoding : Encoding) (text : String) :
    Except Failure Compilation := do
  compileSchema options (← readSource encoding options.policy text)

end SchemaModel
