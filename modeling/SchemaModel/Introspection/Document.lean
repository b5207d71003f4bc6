import SchemaModel.Json.Shape

/-! # Introspection Documents

    The part of an introspection result that describes types, read from JSON. Descriptions,
    deprecations and unknown keys are passed over.

    * **TypeKind**: the kinds of type, two of which wrap another type.
    * **TypeChain**: a type reference, link by link.
    * **SchemaNode**: the types, roots and directives of a schema.
-/

namespace SchemaModel.Introspection

open Json (Shape FieldSpec Slot)

/-! ## Kinds -/

/-- The kinds of type that a result tells apart. -/
inductive TypeKind where
  | scalar
  | object
  | interface
  | union
  | enum
  | inputObject
  | list
  | nonNull
  deriving Repr, DecidableEq

/-- The word for a kind. -/
def TypeKind.text : TypeKind → String
  | .scalar => "SCALAR"
  | .object => "OBJECT"
  | .interface => "INTERFACE"
  | .union => "UNION"
  | .enum => "ENUM"
  | .inputObject => "INPUT_OBJECT"
  | .list => "LIST"
  | .nonNull => "NON_NULL"

/-- Every kind. -/
def TypeKind.all : List TypeKind :=
  [.scalar, .object, .interface, .union, .enum, .inputObject, .list, .nonNull]

/-- Does a type of this kind wrap another one? -/
def TypeKind.isWrapper : TypeKind → Bool
  | .list | .nonNull => true
  | _ => false

/-- The kind with a given word. -/
def TypeKind.ofText (text : String) : Except Json.Misfit TypeKind :=
  match TypeKind.all.find? (·.text == text) with
  | some kind => .ok kind
  | none => Shape.misfit (.unknownVariant text (TypeKind.all.map TypeKind.text))

/-- A kind, written as its word or as an object whose only member has the word as its key and null
    as its value. -/
def TypeKind.shape : Shape TypeKind
  | .string text => TypeKind.ofText text
  | .object [(text, value)] => do
    let kind ← TypeKind.ofText text
    match value with
    | .null => return kind
    | value => Shape.under (.key text) (Shape.misfit (.wrongType value "unit"))
  | .object _ => Shape.misfit .notSingleMember
  | json => Shape.misfit (.wrongType json "string or map")

/-! ## Type Chains -/

/-- A type reference: a link with its kind and name, and perhaps the type that it wraps. -/
inductive TypeChain where
  | last (kind : TypeKind) (name : Option String)
  | wrapping (kind : TypeKind) (name : Option String) (inner : TypeChain)
  deriving Repr, DecidableEq

/-- The kind of the outermost link. -/
def TypeChain.kind : TypeChain → TypeKind
  | .last kind _ | .wrapping kind _ _ => kind

/-- The name of the outermost link. -/
def TypeChain.name : TypeChain → Option String
  | .last _ name | .wrapping _ name _ => name

/-- The outermost link, around what it wraps. -/
def TypeChain.ofLink (kind : TypeKind) (name : Option String) : Option TypeChain → TypeChain
  | none => .last kind name
  | some inner => .wrapping kind name inner

/-- A member's value is smaller than the object that holds it. -/
theorem sizeOf_lookup_lt {members : List (String × Json)} {key : String} {part : Json}
    (h : members.lookup key = some part) : sizeOf part < sizeOf (Json.object members) := by
  have hmem : (key, part) ∈ members := by
    induction members with
    | nil => simp at h
    | cons member members ih =>
      obtain ⟨k, v⟩ := member
      rw [List.lookup_cons] at h
      split at h
      · rename_i hk
        obtain rfl : key = k := by simpa using hk
        simp_all
      · exact List.mem_cons_of_mem _ (ih h)
  have := List.sizeOf_lt_of_mem hmem
  simp at this ⊢
  omega

/-- The part that fills a field is smaller than the whole. -/
theorem sizeOf_part_lt {json part : Json} {field : FieldSpec} (h : json.part? field = some part) :
    sizeOf part < sizeOf json := by
  unfold Json.part? at h
  split at h
  · exact sizeOf_lookup_lt h
  · rename_i items
    have := List.sizeOf_lt_of_mem (List.mem_of_getElem? h)
    simp
    omega
  · simp at h

/-- The kind of a type or link: required. -/
def kindField : FieldSpec := ⟨0, "kind", false, false⟩
/-- The name of a link: wrappers have none. -/
def linkNameField : FieldSpec := ⟨1, "name", true, false⟩
/-- What a link wraps: only wrappers have it. -/
def ofTypeField : FieldSpec := ⟨2, "ofType", true, false⟩

/-- A type chain, as deep as the objects under `ofType` nest. -/
def TypeChain.shape (json : Json) : Except Json.Misfit TypeChain := do
  let kind := Slot.read json kindField TypeKind.shape
  let name := Slot.read json linkNameField (Shape.nullable Shape.string)
  let inner : Slot (Option TypeChain) := ⟨ofTypeField,
    match _h : json.part? ofTypeField with
    | some part =>
      some (Shape.under (json.partStep ofTypeField)
        (if part matches .null then .ok none else (TypeChain.shape part).map some))
    | none => none⟩
  json.checkRecord "TypeRefJson" [kind.erase, name.erase, inner.erase]
  return .ofLink (← kind.get) (← name.getD none) (← inner.getD none)
termination_by sizeOf json
decreasing_by exact sizeOf_part_lt _h

/-! ## Schemas -/

/-- An argument or a field of an input type, with its default as literal text. -/
structure InputValueNode where
  name : String
  type : TypeChain
  defaultValue : Option String
  deriving Repr, DecidableEq

/-- A field of an object type. -/
structure FieldNode where
  name : String
  args : List InputValueNode
  type : TypeChain
  deriving Repr, DecidableEq

/-- A type with the members that its kind calls for. -/
structure TypeNode where
  kind : TypeKind
  name : String
  fields : Option (List FieldNode)
  inputFields : Option (List InputValueNode)
  enumValues : Option (List String)
  interfaces : Option (List TypeChain)
  deriving Repr, DecidableEq

/-- A whole schema. Root types, enum values and directives are given by their names. -/
structure SchemaNode where
  queryType : Option String
  mutationType : Option String
  subscriptionType : Option String
  types : List TypeNode
  directives : List String
  deriving Repr, DecidableEq

/-- A record whose only field is a name. -/
def nameShape (record : String) : Shape String := fun json => do
  let name := Slot.read json ⟨0, "name", false, false⟩ Shape.string
  json.checkRecord record [name.erase]
  name.get

/-- An argument or input field; a default may be absent or null. -/
def InputValueNode.shape : Shape InputValueNode := fun json => do
  let name := Slot.read json ⟨0, "name", false, false⟩ Shape.string
  let type := Slot.read json ⟨1, "type", false, false⟩ TypeChain.shape
  let defaultValue := Slot.read json ⟨2, "defaultValue", true, false⟩ (Shape.nullable Shape.string)
  json.checkRecord "InputValue" [name.erase, type.erase, defaultValue.erase]
  return ⟨← name.get, ← type.get, ← defaultValue.getD none⟩

/-- A field, whose arguments must be listed even when there are none. -/
def FieldNode.shape : Shape FieldNode := fun json => do
  let name := Slot.read json ⟨0, "name", false, false⟩ Shape.string
  let args := Slot.read json ⟨1, "args", false, false⟩ (Shape.list InputValueNode.shape)
  let type := Slot.read json ⟨2, "type", false, false⟩ TypeChain.shape
  json.checkRecord "Field" [name.erase, args.erase, type.erase]
  return ⟨← name.get, ← args.get, ← type.get⟩

/-- A type: only its kind and name are required. -/
def TypeNode.shape : Shape TypeNode := fun json => do
  let kind := Slot.read json kindField TypeKind.shape
  let name := Slot.read json ⟨1, "name", false, false⟩ Shape.string
  let fields := Slot.read json ⟨2, "fields", true, false⟩
    (Shape.nullable (Shape.list FieldNode.shape))
  let inputFields := Slot.read json ⟨3, "inputFields", true, false⟩
    (Shape.nullable (Shape.list InputValueNode.shape))
  let enumValues := Slot.read json ⟨4, "enumValues", true, false⟩
    (Shape.nullable (Shape.list (nameShape "EnumValue")))
  let interfaces := Slot.read json ⟨5, "interfaces", true, false⟩
    (Shape.nullable (Shape.list TypeChain.shape))
  json.checkRecord "FullType"
    [kind.erase, name.erase, fields.erase, inputFields.erase, enumValues.erase, interfaces.erase]
  return ⟨← kind.get, ← name.get, ← fields.getD none, ← inputFields.getD none,
    ← enumValues.getD none, ← interfaces.getD none⟩

/-- A schema: only its types are required. -/
def SchemaNode.shape : Shape SchemaNode := fun json => do
  let root := Shape.nullable (nameShape "RootType")
  let queryType := Slot.read json ⟨0, "queryType", true, false⟩ root
  let mutationType := Slot.read json ⟨1, "mutationType", true, false⟩ root
  let subscriptionType := Slot.read json ⟨2, "subscriptionType", true, false⟩ root
  let types := Slot.read json ⟨3, "types", false, false⟩ (Shape.list TypeNode.shape)
  let directives := Slot.read json ⟨4, "directives", true, true⟩
    (Shape.list (nameShape "DirectiveDef"))
  json.checkRecord "IntrospectionSchema"
    [queryType.erase, mutationType.erase, subscriptionType.erase, types.erase, directives.erase]
  return ⟨← queryType.getD none, ← mutationType.getD none, ← subscriptionType.getD none,
    ← types.get, ← directives.getD []⟩

end SchemaModel.Introspection
