import SchemaModel.Model

/-! # The Text of Models

    Fields and arguments in the words of a schema, and the summary of a whole model, one line to
    a type or field.
-/

namespace SchemaModel

/-- The text of an argument or input field, with its default. -/
def ModelInput.text (input : ModelInput) : String :=
  let default := (input.defaultValue.map fun value => " = " ++ value.text).getD ""
  input.name ++ ": " ++ modelTypeText input.type ++ default

/-- The text of a field, with its arguments. -/
def ModelField.text (field : ModelField) : String :=
  let args :=
    if field.args.isEmpty then ""
    else "(" ++ ", ".intercalate (field.args.map ModelInput.text) ++ ")"
  field.name ++ args ++ ": " ++ modelTypeText field.type

/-- The lines about a type with members. -/
def memberLines (keyword name : String) (members : List String) : List String :=
  (keyword ++ " " ++ name) :: members.map ("  " ++ ·)

/-- The lines about an object type. -/
def ObjectType.lines (keyword : String) (object : ObjectType) : List String :=
  memberLines keyword object.name (object.fields.map ModelField.text)

/-- The lines about an input type. -/
def InputType.lines (input : InputType) : List String :=
  memberLines "input" input.name (input.fields.map ModelInput.text)

/-- The line about an enum. -/
def EnumType.line (enum : EnumType) : String :=
  "enum " ++ enum.name ++ " \x7b " ++ ", ".intercalate enum.values ++ " \x7d"

/-- The line about a scalar. -/
def ScalarType.line (scalar : ScalarType) : String :=
  "scalar " ++ scalar.name ++ " -> " ++ scalar.target.text

namespace Model

/-- The lines of a summary. -/
def summaryLines (model : Model) : List String :=
  model.query.lines "query" ++ model.mutation.lines "mutation" ++
    model.types.flatMap (ObjectType.lines "type") ++ model.inputs.flatMap InputType.lines ++
    model.enums.map EnumType.line ++ model.scalars.map ScalarType.line

/-- A listing of all types for a reader. Every line is ended by a line feed. -/
def summary (model : Model) : String :=
  String.join (model.summaryLines.map (· ++ "\n"))

end Model

end SchemaModel
