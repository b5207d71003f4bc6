import SchemaModel.Introspection.Document
import SchemaModel.Json.Reader
import SchemaModel.Sdl.Fault

/-! # Faults in Introspection Documents

    A document is refused at its first fault, which is reported with its path.

    * **Envelope**: the keys around the schema of a document.
    * **DocumentFault**: what is wrong with a document, be it the JSON text, the shape of its
      values or what they say about types.
-/

namespace SchemaModel.Introspection

/-! ## Places -/

/-- The keys under which a document holds its schema. -/
inductive Envelope where
  /-- The document is the schema. -/
  | bare
  /-- The schema stands under `__schema`. -/
  | schemaKey
  /-- The schema stands under `data` and `__schema`, as in a full response. -/
  | response
  deriving Repr, DecidableEq

/-- The keys from the document to its schema. -/
def Envelope.keys : Envelope → List String
  | .bare => []
  | .schemaKey => ["__schema"]
  | .response => ["data", "__schema"]

/-- The text of a path inside the schema, seen from the document. -/
def Envelope.pathText (envelope : Envelope) (path : Json.Path) : String :=
  match envelope.keys, path with
  | [], path => Json.pathText path
  | keys, [] => ".".intercalate keys
  | keys, path => ".".intercalate keys ++ "." ++ Json.pathText path

/-! ## Faults -/

/-- What is wrong with a document. -/
inductive DocumentFault where
  /-- The text is no JSON. -/
  | notJson (fault : Json.PlacedFault)
  | notAnObject
  /-- A full response holds no schema. -/
  | noSchemaInData
  /-- Nothing in the document is a schema. -/
  | noSchema
  /-- A value is not of the shape that its place calls for. -/
  | shape (fault : Json.ShapeFault)
  | noQueryRoot
  /-- A type lacks the list of members that its kind calls for. -/
  | noMembers (kind : TypeKind) (key : String)
  /-- A type is of a kind that wraps another type. -/
  | wrapperKind (kind : TypeKind)
  | unnamedReference (kind : TypeKind)
  /-- A link that wraps a type has none inside. -/
  | emptyWrapper (kind : TypeKind)
  | repeatedNonNull
  | invalidDefault (text : String) (fault : Sdl.PlacedFault)
  deriving Repr

/-- The wording of a fault. -/
def DocumentFault.message : DocumentFault → String
  | .notJson fault => fault.message
  | .notAnObject => "expected a JSON object"
  | .noSchemaInData => "missing field `__schema`"
  | .noSchema => "expected `data.__schema`, `__schema` or a schema object with `types`"
  | .shape fault => fault.message
  | .noQueryRoot => "missing query root type"
  | .noMembers kind key => kind.text ++ " type without `" ++ key ++ "`"
  | .wrapperKind kind => kind.text ++ " is not a named type kind"
  | .unnamedReference kind => kind.text ++ " type reference without `name`"
  | .emptyWrapper kind => kind.text ++ " type reference without `ofType`"
  | .repeatedNonNull => "NON_NULL cannot wrap another NON_NULL"
  | .invalidDefault text fault => "invalid default value `" ++ text ++ "`: " ++ fault.message

/-- A fault with the path that it is reported at. -/
structure PlacedFault where
  path : String
  fault : DocumentFault
  deriving Repr

end SchemaModel.Introspection
