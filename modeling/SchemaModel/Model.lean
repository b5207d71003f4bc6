import SchemaModel.Scalars
import SchemaModel.Schema

/-! # Type Models

    A schema with every type reference resolved and every name given an identifier.

    * **NamedRef**: a resolved reference, with the type of the generated code that it stands for.
    * **Model**: the object, input, enum and scalar types, with the query and mutation roots apart.
    * **references**: every type reference of a model with a description of its place.
    * **equivalent**: a comparison that does not see the order of types and of enum values.
-/

namespace SchemaModel

/-! ## References -/

/-- What a reference leads to. -/
inductive NamedKind where
  | scalar
  | object
  | input
  | enum
  deriving Repr, DecidableEq

/-- The word for a kind. -/
def NamedKind.text : NamedKind → String
  | .scalar => "scalar"
  | .object => "object"
  | .input => "input"
  | .enum => "enum"

/-- A resolved reference. -/
structure NamedRef where
  /-- The name in the schema. -/
  name : String
  kind : NamedKind
  target : ScalarTarget
  deriving Repr, DecidableEq

/-- A reference under its wrappings. -/
abbrev ModelType := TypeRef NamedRef

/-- The text of a resolved type, in the words of the schema. -/
def modelTypeText (type : ModelType) : String :=
  type.textWith NamedRef.name

/-! ## Types -/

/-- An argument or a field of an input type. -/
structure ModelInput where
  name : String
  identifier : String
  type : ModelType
  defaultValue : Option Value
  deriving Repr, DecidableEq

/-- A field of an object type. -/
structure ModelField where
  name : String
  identifier : String
  type : ModelType
  args : List ModelInput
  deriving Repr, DecidableEq

structure ObjectType where
  name : String
  identifier : String
  fields : List ModelField
  deriving Repr, DecidableEq

structure InputType where
  name : String
  identifier : String
  fields : List ModelInput
  deriving Repr, DecidableEq

structure EnumType where
  name : String
  identifier : String
  values : List String
  deriving Repr, DecidableEq

structure ScalarType where
  name : String
  target : ScalarTarget
  deriving Repr, DecidableEq

/-- The first field of a given name. -/
def ObjectType.field? (object : ObjectType) (name : String) : Option ModelField :=
  object.fields.find? (·.name == name)

/-! ## Models -/

/-- A compiled schema. Each list is in the order of the source. -/
structure Model where
  /-- The object types that are no roots. -/
  types : List ObjectType
  inputs : List InputType
  enums : List EnumType
  scalars : List ScalarType
  query : ObjectType
  /-- The mutation root. It has no fields if the schema names none. -/
  mutation : ObjectType
  deriving Repr, DecidableEq

namespace Model

/-- The object types, roots first. -/
def objects (model : Model) : List ObjectType :=
  model.query :: model.mutation :: model.types

/-- Is there a type of the given name? -/
def containsType (model : Model) (name : String) : Bool :=
  isBuiltinScalar name ||
    model.objects.any (·.name == name) ||
    model.inputs.any (·.name == name) ||
    model.enums.any (·.name == name) ||
    model.scalars.any (·.name == name)

/-- A type reference with a description of its place. -/
abbrev Reference := String × ModelType

/-- The references of a field of an object type: its own type, then those of its arguments. -/
def fieldReferences (owner : String) (field : ModelField) : List Reference :=
  let place := owner ++ "." ++ field.name
  (place, field.type) ::
    field.args.map fun arg => (place ++ "(" ++ arg.name ++ ")", arg.type)

/-- Every type reference, with those of object types first. -/
def references (model : Model) : List Reference :=
  (model.objects.flatMap fun object => object.fields.flatMap (fieldReferences object.name)) ++
    model.inputs.flatMap fun input =>
      input.fields.map fun field => (input.name ++ "." ++ field.name, field.type)

/-! ## Equivalence -/

/-- Do two lists hold the same items under the same names, in any order? -/
def sameByName {α : Type} (name : α → String) (same : α → α → Bool) (xs ys : List α) : Bool :=
  xs.length == ys.length &&
    xs.all fun x => (ys.find? (name · == name x)).any (same x)

/-- Are two enums the same but for the order of their values? -/
def sameEnum (a b : EnumType) : Bool :=
  a.name == b.name && a.identifier == b.identifier && a.values.length == b.values.length &&
    a.values.all b.values.contains

/-- Are two models the same but for the order of their types and of their enum values? -/
def equivalent (a b : Model) : Bool :=
  sameByName ObjectType.name (· == ·) a.types b.types &&
    sameByName InputType.name (· == ·) a.inputs b.inputs &&
    sameByName EnumType.name sameEnum a.enums b.enums &&
    sameByName ScalarType.name (· == ·) a.scalars b.scalars &&
    a.query == b.query && a.mutation == b.mutation

end Model

end SchemaModel
