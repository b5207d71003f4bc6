import SchemaModel.Json.Basic
import SchemaModel.Model

/-! # Models as JSON

    The form in which a model is handed on to other tools. Types are listed as objects keyed by
    their names, in the order of the source, and an absent default is left out.
-/

namespace SchemaModel

/-- A value as an object keyed by its kind. Null is a bare string. -/
def Value.toJson : Value → Json
  | .int digits => .object [("Int", .string digits)]
  | .float digits => .object [("Float", .string digits)]
  | .string contents => .object [("String", .string contents)]
  | .boolean value => .object [("Boolean", .boolean value)]
  | .null => .string "Null"
  | .enum name => .object [("Enum", .string name)]
  | .list items => .object [("List", .array (itemsToJson items))]
  | .object entries => .object [("Object", .array (entriesToJson entries))]
where
  itemsToJson : List Value → List Json
    | [] => []
    | item :: items => item.toJson :: itemsToJson items
  entriesToJson : List (String × Value) → List Json
    | [] => []
    | (name, value) :: entries => .array [.string name, value.toJson] :: entriesToJson entries

/-- A type as its leaf under objects keyed by the wrappings. -/
def TypeRef.toJson {α : Type} (leafToJson : α → Json) : TypeRef α → Json
  | .named leaf => .object [("Named", leafToJson leaf)]
  | .list item => .object [("List", item.toJson leafToJson)]
  | .nonNull inner => .object [("NonNull", inner.toJson leafToJson)]

def ScalarTarget.toJson (target : ScalarTarget) : Json :=
  .object [("name", .string target.name), ("value_type", .boolean target.valueType)]

def NamedRef.toJson (ref : NamedRef) : Json :=
  .object
    [("name", .string ref.name), ("kind", .string ref.kind.text),
     ("target", .string ref.target.name), ("value_type", .boolean ref.target.valueType)]

def ModelInput.toJson (input : ModelInput) : Json :=
  .object <|
    [("name", .string input.name), ("identifier", .string input.identifier),
     ("ty", input.type.toJson NamedRef.toJson)] ++
    (input.defaultValue.map fun value => ("default_value", value.toJson)).toList

def ModelField.toJson (field : ModelField) : Json :=
  .object
    [("name", .string field.name), ("identifier", .string field.identifier),
     ("ty", field.type.toJson NamedRef.toJson), ("args", .array (field.args.map ModelInput.toJson))]

def ObjectType.toJson (object : ObjectType) : Json :=
  .object
    [("name", .string object.name), ("identifier", .string object.identifier),
     ("fields", .array (object.fields.map ModelField.toJson))]

def InputType.toJson (input : InputType) : Json :=
  .object
    [("name", .string input.name), ("identifier", .string input.identifier),
     ("fields", .array (input.fields.map ModelInput.toJson))]

def EnumType.toJson (enum : EnumType) : Json :=
  .object
    [("name", .string enum.name), ("identifier", .string enum.identifier),
     ("values", .array (enum.values.map .string))]

def ScalarType.toJson (scalar : ScalarType) : Json :=
  .object [("name", .string scalar.name), ("target", scalar.target.toJson)]

/-- Items as the members of an object, each under its name. -/
def keyedByName {α : Type} (name : α → String) (toJson : α → Json) (items : List α) : Json :=
  .object (items.map fun item => (name item, toJson item))

/-- A whole model. -/
def Model.toJson (model : Model) : Json :=
  .object
    [("types", keyedByName ObjectType.name ObjectType.toJson model.types),
     ("inputs", keyedByName InputType.name InputType.toJson model.inputs),
     ("enums", keyedByName EnumType.name EnumType.toJson model.enums),
     ("scalars", keyedByName ScalarType.name ScalarType.toJson model.scalars),
     ("query", model.query.toJson),
     ("mutation", model.mutation.toJson)]

end SchemaModel
