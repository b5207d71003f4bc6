import SchemaModel.Decimal.Shortest
import SchemaModel.Json.Basic
import SchemaModel.Text.Quoted

/-! # The Shape of JSON Values

    Typed data read from JSON values, with the path to the first value that does not fit.

    * **Path**: the keys and indices that lead from a value to a part of it.
    * **Shape**: a way to read a type from a value, or to find the first misfit.
    * **Record**: named fields. They are written as an object, or as an array of all fields in
      order. An object is looked through member by member, and only then for missing fields; an
      array is looked through from its first item.
-/

namespace SchemaModel.Json

/-! ## Paths -/

/-- A step from a value to one of its parts. -/
inductive Step where
  | key (name : String)
  | index (position : Nat)
  deriving Repr, DecidableEq

/-- The way from a value to a part of it. -/
abbrev Path := List Step

/-- The text of the steps after the first one. -/
def tailText : Path → String
  | [] => ""
  | .key name :: path => "." ++ name ++ tailText path
  | .index position :: path => s!"[{position}]" ++ tailText path

/-- The text of a path. The empty path is a single point. -/
def pathText : Path → String
  | [] => "."
  | .key name :: path => name ++ tailText path
  | .index position :: path => s!"[{position}]" ++ tailText path

/-! ## Misfits -/

/-- The description of a value that is not of the type it should be. -/
def describe : Json → String
  | .null => "null"
  | .boolean value => if value then "boolean `true`" else "boolean `false`"
  | .integer value => s!"integer `{value}`"
  | .real value => "floating point `" ++ Decimal.floatText value ++ "`"
  | .string contents => "string " ++ Quoted.quote contents
  | .array _ => "sequence"
  | .object _ => "map"

/-- Why a value does not have a shape. -/
inductive ShapeFault where
  | missingField (name : String)
  /-- A value of another type stands there. -/
  | wrongType (found : Json) (expected : String)
  /-- An array has fewer items than a record has fields. -/
  | tooShort (found : Nat) (record : String) (fields : Nat)
  /-- An array has more items than a record has fields. -/
  | tooLong (found : Nat)
  | unknownVariant (name : String) (known : List String)
  /-- A variant is written as an object that does not have one member. -/
  | notSingleMember
  deriving Repr

/-- The wording of a misfit. -/
def ShapeFault.message : ShapeFault → String
  | .missingField name => s!"missing field `{name}`"
  | .wrongType found expected => "invalid type: " ++ found.describe ++ ", expected " ++ expected
  | .tooShort found record fields =>
    let noun := if fields = 1 then "element" else "elements"
    s!"invalid length {found}, expected struct {record} with {fields} {noun}"
  | .tooLong found => s!"invalid length {found}, expected fewer elements in array"
  | .unknownVariant name known =>
    let known := known.map fun variant => "`" ++ variant ++ "`"
    s!"unknown variant `{name}`, expected one of " ++ ", ".intercalate known
  | .notSingleMember => "invalid value: map, expected map with a single key"

/-- A misfit, with the path that leads to it. -/
structure Misfit where
  path : Path
  fault : ShapeFault
  deriving Repr

/-! ## Shapes -/

/-- A way to read a type from a value. -/
abbrev Shape (α : Type) := Json → Except Misfit α

namespace Shape

variable {α : Type}

/-- A misfit in the value itself. -/
def misfit (fault : ShapeFault) : Except Misfit α :=
  .error ⟨[], fault⟩

/-- What is found in a part, seen from the whole. -/
def under (step : Step) (result : Except Misfit α) : Except Misfit α :=
  result.mapError fun misfit => { misfit with path := step :: misfit.path }

/-- A string. -/
def string : Shape String
  | .string contents => .ok contents
  | json => misfit (.wrongType json "a string")

/-- A value that may be null. -/
def nullable (shape : Shape α) : Shape (Option α)
  | .null => .ok none
  | json => (shape json).map some

/-- The items of an array, of which the first one has the given index. -/
def listFrom (shape : Shape α) (index : Nat) : List Json → Except Misfit (List α)
  | [] => .ok []
  | item :: items => do
    let first ← under (.index index) (shape item)
    return first :: (← listFrom shape (index + 1) items)

/-- An array. -/
def list (shape : Shape α) : Shape (List α)
  | .array items => listFrom shape 0 items
  | json => misfit (.wrongType json "a sequence")

end Shape

/-! ## Records -/

/-- A field of a record: its place among the fields, its name, and whether an array may end before
    it. -/
structure FieldSpec where
  index : Nat
  name : String
  /-- May the field be missing from an object? -/
  optional : Bool
  /-- May the field be missing from an array? -/
  mayEnd : Bool
  deriving Repr, DecidableEq

/-- What a record has in place of a field, if anything. -/
def part? (json : Json) (field : FieldSpec) : Option Json :=
  match json with
  | .object members => members.lookup field.name
  | .array items => items[field.index]?
  | _ => none

/-- The step from a record to one of its fields. -/
def partStep (json : Json) (field : FieldSpec) : Step :=
  match json with
  | .array _ => .index field.index
  | _ => .key field.name

/-- A field as it was read. There is no result if the field is missing. -/
structure Slot (α : Type) where
  field : FieldSpec
  result? : Option (Except Misfit α)

namespace Slot

variable {α : Type}

/-- Reads a field of a record. -/
def read (json : Json) (field : FieldSpec) (shape : Shape α) : Slot α :=
  ⟨field, (json.part? field).map fun part => Shape.under (json.partStep field) (shape part)⟩

/-- The contents of a field that has to be there. -/
def get (slot : Slot α) : Except Misfit α :=
  slot.result?.getD (Shape.misfit (.missingField slot.field.name))

/-- The contents of a field that may be missing. -/
def getD (slot : Slot α) (default : α) : Except Misfit α :=
  slot.result?.getD (.ok default)

/-- The same field without its contents. -/
def erase (slot : Slot α) : Slot Unit :=
  ⟨slot.field, slot.result?.map (·.map fun _ => ())⟩

/-- The misfit inside a field, if there is one. -/
def misfit? (slot : Slot α) : Option Misfit :=
  match slot.result? with
  | some (.error misfit) => some misfit
  | _ => none

end Slot

/-- Refuses a record with the first misfit in its order of reading: in an object, that of the first
    member, then the first missing field; in an array, that of the first item, then its length. -/
def checkRecord (json : Json) (record : String) (slots : List (Slot Unit)) : Except Misfit Unit :=
  match json with
  | .object members =>
    let visited := members.filterMap fun member => slots.find? (·.field.name == member.1)
    match visited.findSome? Slot.misfit? with
    | some misfit => .error misfit
    | none =>
      match slots.find? fun slot => slot.result?.isNone && !slot.field.optional with
      | some slot => Shape.misfit (.missingField slot.field.name)
      | none => .ok ()
  | .array items =>
    match slots.findSome? Slot.misfit? with
    | some misfit => .error misfit
    | none =>
      if slots.any fun slot => slot.result?.isNone && !slot.field.mayEnd then
        Shape.misfit (.tooShort items.length record slots.length)
      else if slots.length < items.length then Shape.misfit (.tooLong items.length)
      else .ok ()
  | _ => Shape.misfit (.wrongType json s!"struct {record}")

end SchemaModel.Json
