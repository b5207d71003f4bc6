import SchemaModel.Position
import SchemaModel.TypeRef
import SchemaModel.Value

/-! # Schemas as Declared

    What a schema source declares, before any name in it is resolved. Definition text and
    introspection documents are both read into the one `Schema` type below.

    * **Declaration**: a named object, input, enum or scalar type, in the order of the source.
    * **Skipped**: a construct that was recognised and left out.
    * **Policy**: whether such a construct is left out or refused.
    * **RootNames**: the types that answer queries, mutations and subscriptions.
-/

namespace SchemaModel

/-! ## Known Names -/

/-- The scalars that every schema has without declaring them. -/
def builtinScalars : List String := ["Int", "Float", "String", "Boolean", "ID"]

/-- Is `name` one of the built-in scalars? -/
def isBuiltinScalar (name : String) : Bool := builtinScalars.contains name

/-- The directives that carry no meaning for a type model and pass without a word. -/
def coreDirectives : List String := ["deprecated", "include", "skip", "specifiedBy", "oneOf"]

/-- Is `name` one of the core directives? -/
def isCoreDirective (name : String) : Bool := coreDirectives.contains name

/-! ## Unsupported Constructs -/

/-- The kinds of construct that no model has room for. -/
inductive Construct where
  | interface
  | union
  | directiveDefinition
  | extension
  | implements
  | directive
  deriving Repr, DecidableEq

/-- The name under which a construct is reported. -/
def Construct.text : Construct → String
  | .interface => "interface"
  | .union => "union"
  | .directiveDefinition => "directive definition"
  | .extension => "type extension"
  | .implements => "implements clause"
  | .directive => "directive"

/-- Does leaving the construct out remove a named type? -/
def Construct.declaresType : Construct → Bool
  | .interface | .union => true
  | _ => false

/-- A construct that was recognised and left out. -/
structure Skipped where
  construct : Construct
  name : String
  origin : Origin
  deriving Repr, DecidableEq

/-- What happens to a construct that no model has room for. -/
inductive Policy where
  /-- It is left out and recorded. -/
  | skip
  /-- The source is refused. -/
  | reject
  deriving Repr, DecidableEq

/-! ## Declarations -/

/-- An argument or a field of an input type. -/
structure InputValue where
  name : String
  type : TypeRef String
  defaultValue : Option Value
  origin : Origin
  deriving Repr, DecidableEq

/-- A field of an object type. -/
structure Field where
  name : String
  type : TypeRef String
  args : List InputValue
  origin : Origin
  deriving Repr, DecidableEq

/-- The body of a declaration. -/
inductive DeclarationKind where
  | object (fields : List Field)
  | input (fields : List InputValue)
  | enum (values : List String)
  | scalar
  deriving Repr, DecidableEq

/-- A named type. -/
structure Declaration where
  name : String
  kind : DeclarationKind
  origin : Origin
  deriving Repr, DecidableEq

/-- Does the declaration introduce an object type? -/
def Declaration.isObject (decl : Declaration) : Bool :=
  match decl.kind with
  | .object _ => true
  | _ => false

/-- Does the declaration introduce a scalar? -/
def Declaration.isScalar (decl : Declaration) : Bool :=
  match decl.kind with
  | .scalar => true
  | _ => false

/-! ## Schemas -/

/-- The operations that a schema can answer. -/
inductive RootOperation where
  | query
  | mutation
  | subscription
  deriving Repr, DecidableEq

/-- The word for an operation. -/
def RootOperation.text : RootOperation → String
  | .query => "query"
  | .mutation => "mutation"
  | .subscription => "subscription"

/-- The type that answers each operation, where one is named. -/
structure RootNames where
  query : Option String
  mutation : Option String
  subscription : Option String
  deriving Repr, DecidableEq

/-- No operation has a type. -/
def RootNames.empty : RootNames := ⟨none, none, none⟩

/-- Everything that one source declares, in its order. -/
structure Schema where
  declarations : List Declaration
  roots : RootNames
  /-- Where the root types are named. -/
  rootsOrigin : Origin
  skipped : List Skipped
  deriving Repr, DecidableEq

namespace Schema

/-- The first declaration of a name. -/
def find? (schema : Schema) (name : String) : Option Declaration :=
  schema.declarations.find? (·.name == name)

/-- The names of the types that were left out. -/
def skippedTypes (schema : Schema) : List String :=
  (schema.skipped.filter (·.construct.declaresType)).map Skipped.name

end Schema

end SchemaModel
