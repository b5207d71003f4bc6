import SchemaModel.Sdl.Document
import SchemaModel.Sdl.StringLiteral
import SchemaModel.Sdl.Token

/-! # Faults in Schema Definition Text

    A source is refused at the first token that cannot go on.

    * **Expected**: what could have stood there instead.
    * **GrammarFault**: why the token cannot stand where it does. Under a policy that refuses
      unsupported constructs, the first one of them is a fault as well.
    * **SourceFault**: a fault with the bytes that it points at.
-/

namespace SchemaModel.Sdl

/-- How many brackets and braces of a type or a value may be open at once. -/
def nestingLimit : Nat := 128

/-- What a place in the grammar asks for. -/
inductive Expected where
  | token (kind : TokenKind)
  | endOfInput
  | name
  | type
  | value
  | definition
  | extendedDefinition
  | rootOperation
  deriving Repr, DecidableEq

/-- The wording of an expectation. -/
def Expected.text : Expected → String
  | .token kind => "`" ++ kind.text ++ "`"
  | .endOfInput => "end of input"
  | .name => "a name"
  | .type => "a type"
  | .value => "a value"
  | .definition => "a type system definition"
  | .extendedDefinition => "a definition to extend"
  | .rootOperation => "`query`, `mutation` or `subscription`"

/-- Why a source is refused. -/
inductive GrammarFault where
  /-- A lexeme is no token. -/
  | lexical (fault : LexicalFault)
  /-- A quoted string stands for nothing. -/
  | escape (fault : EscapeFault)
  /-- Another token is expected. At the end of the input, none is found. -/
  | unexpected (expected : Expected) (found : Option String)
  | schemaRepeated
  | operationRepeated (operation : RootOperation)
  /-- An enum value has a name that stands for another kind of value. -/
  | reservedEnumValue (name : String)
  | nestedTooDeep
  /-- A construct that no model has room for is refused. -/
  | refused (usage : Usage)
  deriving Repr, DecidableEq

/-- The wording of a grammar fault. -/
def GrammarFault.message : GrammarFault → String
  | .lexical fault => fault.message
  | .escape fault => fault.message
  | .unexpected expected found =>
    let found := (found.map fun text => "`" ++ text ++ "`").getD "end of input"
    "expected " ++ expected.text ++ ", found " ++ found
  | .schemaRepeated => "schema is defined more than once"
  | .operationRepeated operation =>
    "root operation `" ++ operation.text ++ "` is defined more than once"
  | .reservedEnumValue name => s!"enum value cannot be named `{name}`"
  | .nestedTooDeep => s!"nesting exceeds {nestingLimit} levels"
  | .refused usage => "unsupported " ++ usage.construct.text ++ " `" ++ usage.name ++ "`"

/-- A grammar fault with the bytes that it points at. -/
structure SourceFault where
  fault : GrammarFault
  span : Span
  deriving Repr, DecidableEq

/-- A grammar fault with its place in the text. -/
structure PlacedFault where
  fault : GrammarFault
  span : Span
  position : LineCol
  deriving Repr, DecidableEq

/-- Looks up the place of a fault. -/
def SourceFault.placed (lines : LineTable) (fault : SourceFault) : PlacedFault :=
  ⟨fault.fault, fault.span, lines.position fault.span.start⟩

/-- The wording of a fault with its place. -/
def PlacedFault.message (fault : PlacedFault) : String :=
  s!"syntax error at {fault.position.line}:{fault.position.column}: " ++ fault.fault.message

end SchemaModel.Sdl
