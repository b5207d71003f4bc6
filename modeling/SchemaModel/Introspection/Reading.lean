import SchemaModel.Sdl.Grammar

/-! # Reading Introspection Documents

    * **locate**: finds the schema inside a document.
    * **Item**: what a type or a directive comes to, a declaration or a skipped construct.
    * **items**: the items of a schema in the order of the document, with a fault in place of any
      that cannot be had.
    * **admit**: what becomes of a construct that no model has room for.
    * **readItems**: the schema that the items add up to. A fault ends it, and so does a skipped
      construct under a policy that refuses them.
    * **readValue** and **readText**: whole documents.
-/

namespace SchemaModel

/-- Records an unsupported construct in a schema, or refuses it, as the policy asks. -/
def Schema.admit (schema : Schema) (policy : Policy) (skipped : Skipped) : Except Failure Schema :=
  match policy with
  | .skip => .ok { schema with skipped := schema.skipped ++ [skipped] }
  | .reject => .error (.unsupported skipped)

namespace Introspection

open Json (Path)

/-! ## Type References -/

/-- A path and the fault that lies there. -/
abbrev Fallible (α : Type) := Except (Path × DocumentFault) α

/-- The type that a chain stands for. A non-null link never wraps another one directly. -/
def TypeChain.toTypeRef (path : Path) : TypeChain → Fallible (TypeRef String)
  | .last kind name =>
    if kind.isWrapper then .error (path, .emptyWrapper kind) else leaf kind name
  | .wrapping kind name inner =>
    if kind.isWrapper then do
      let innerPath := path ++ [.key "ofType"]
      let type ← inner.toTypeRef innerPath
      if kind = .nonNull then
        match type.nonNull? with
        | some type => return type
        | none => throw (innerPath, .repeatedNonNull)
      else return .list type
    else leaf kind name
where
  /-- The name at the end of a chain. -/
  leaf (kind : TypeKind) : Option String → Fallible (TypeRef String)
    | some name => .ok (.named name)
    | none => .error (path, .unnamedReference kind)

/-! ## Members -/

/-- Converts the items of a list at `path`, each with its own path, where the first one has the
    given index. -/
def convertFrom {α β : Type} (path : Path) (convert : Path → α → Fallible β) (index : Nat) :
    List α → Fallible (List β)
  | [] => .ok []
  | item :: items => do
    let first ← convert (path ++ [.index index]) item
    return first :: (← convertFrom path convert (index + 1) items)

/-- The default value of an argument or input field. -/
def defaultValue (path : Path) : Option String → Fallible (Option Value)
  | none => .ok none
  | some text =>
    match Sdl.readValue text with
    | .ok value => .ok (some value)
    | .error fault => .error (path ++ [.key "defaultValue"], .invalidDefault text fault)

variable (envelope : Envelope)

/-- The origin that lies at a path. -/
def originAt (path : Path) : Origin :=
  .introspection (envelope.pathText path)

/-- The argument or input field at a path. -/
def inputValue (path : Path) (node : InputValueNode) : Fallible InputValue := do
  let defaultValue ← defaultValue path node.defaultValue
  let type ← node.type.toTypeRef (path ++ [.key "type"])
  return ⟨node.name, type, defaultValue, originAt envelope path⟩

/-- The field at a path. -/
def field (path : Path) (node : FieldNode) : Fallible Field := do
  let type ← node.type.toTypeRef (path ++ [.key "type"])
  let args ← convertFrom (path ++ [.key "args"]) (inputValue envelope) 0 node.args
  return ⟨node.name, type, args, originAt envelope path⟩

/-! ## Items -/

/-- What a part of a document comes to. -/
inductive Item where
  | declared (declaration : Declaration)
  | skipped (skipped : Skipped)
  deriving Repr

/-- The declaration of an item, if it is one. -/
def Item.declaration? : Item → Option Declaration
  | .declared declaration => some declaration
  | .skipped _ => none

/-- The skipped construct of an item, if it is one. -/
def Item.skipped? : Item → Option Skipped
  | .declared _ => none
  | .skipped construct => some construct

/-- The item that declares a type at a path. -/
def declare (path : Path) (name : String) (kind : Fallible DeclarationKind) : Fallible Item :=
  kind.map fun kind => .declared ⟨name, kind, originAt envelope path⟩

/-- The item that skips a construct at a path. -/
def skip (path : Path) (construct : Construct) (name : String) : Fallible Item :=
  .ok (.skipped ⟨construct, name, originAt envelope path⟩)

/-- Members that a type of the given kind has to list under `key`. -/
def require {α : Type} (path : Path) (kind : TypeKind) (key : String) (members : Option α) :
    Fallible α :=
  match members with
  | some members => .ok members
  | none => .error (path, .noMembers kind key)

/-- The items of a type: the interfaces that an object implements, then the type itself. -/
def typeItems (path : Path) (node : TypeNode) : List (Fallible Item) :=
  match node.kind with
  | .scalar => [declare envelope path node.name (.ok .scalar)]
  | .object =>
    match require path .object "fields" node.fields with
    | .error fault => [.error fault]
    | .ok fields =>
      let implemented := (node.interfaces.getD []).mapIdx fun k chain =>
        skip envelope (path ++ [.key "interfaces", .index k]) .implements (chain.name.getD "")
      let fields := convertFrom (path ++ [.key "fields"]) (field envelope) 0 fields
      implemented ++ [declare envelope path node.name (fields.map .object)]
  | .inputObject =>
    [declare envelope path node.name do
      let fields ← require path .inputObject "inputFields" node.inputFields
      return .input (← convertFrom (path ++ [.key "inputFields"]) (inputValue envelope) 0 fields)]
  | .enum =>
    [declare envelope path node.name do
      return .enum (← require path .enum "enumValues" node.enumValues)]
  | .interface => [skip envelope path .interface node.name]
  | .union => [skip envelope path .union node.name]
  | .list | .nonNull => [.error (path ++ [.key "kind"], .wrapperKind node.kind)]

/-- Is a type part of the introspection system itself? -/
def isMetaName (name : String) : Bool :=
  "__".toList.isPrefixOf name.toList

/-- The items of a schema. Types of the introspection system and core directives have none. -/
def items (node : SchemaNode) : List (Fallible Item) :=
  let root : List (Fallible Item) :=
    if node.queryType.isNone then [.error ([.key "queryType"], .noQueryRoot)] else []
  let types := node.types.mapIdx fun i type =>
    if isMetaName type.name then [] else typeItems envelope [.key "types", .index i] type
  let directives := node.directives.mapIdx fun i name =>
    if isCoreDirective name then []
    else [skip envelope [.key "directives", .index i] .directiveDefinition name]
  root ++ types.flatten ++ directives.flatten

/-! ## Documents -/

/-- The schema inside a document, and the keys around it. -/
def locate (document : Json) : Except PlacedFault (Envelope × Json) :=
  match document with
  | .object _ =>
    match document.member? "data" with
    | some data =>
      match data.member? "__schema" with
      | some schema => .ok (.response, schema)
      | none => .error ⟨"data", .noSchemaInData⟩
    | none =>
      match document.member? "__schema" with
      | some schema => .ok (.schemaKey, schema)
      | none =>
        if (document.member? "types").isSome then .ok (.bare, document)
        else .error ⟨".", .noSchema⟩
  | _ => .error ⟨".", .notAnObject⟩

/-- The schema with one more item. -/
def Item.addTo (policy : Policy) (schema : Schema) : Item → Except Failure Schema
  | .declared declaration =>
    .ok { schema with declarations := schema.declarations ++ [declaration] }
  | .skipped construct => schema.admit policy construct

/-- Adds items to a schema, one after the other. -/
def readItems (policy : Policy) (schema : Schema) : List (Fallible Item) → Except Failure Schema
  | [] => .ok schema
  | .error (path, fault) :: _ => .error (.malformedDocument ⟨envelope.pathText path, fault⟩)
  | .ok item :: items => do readItems policy (← item.addTo policy schema) items

/-- The schema that names its roots and nothing else. -/
def rootsSchema (node : SchemaNode) : Schema where
  declarations := []
  roots := ⟨node.queryType, node.mutationType, node.subscriptionType⟩
  rootsOrigin := originAt envelope [.key "queryType"]
  skipped := []

/-- Reads the schema inside a document. -/
def readNode (policy : Policy) (node : SchemaNode) : Except Failure Schema :=
  readItems envelope policy (rootsSchema envelope node) (items envelope node)

/-- Reads a schema from a document under a policy. -/
def readValue (policy : Policy) (document : Json) : Except Failure Schema :=
  match locate document with
  | .error fault => .error (.malformedDocument fault)
  | .ok (envelope, schema) =>
    match SchemaNode.shape schema with
    | .error misfit =>
      .error (.malformedDocument ⟨envelope.pathText misfit.path, .shape misfit.fault⟩)
    | .ok node => readNode envelope policy node

/-- Reads a schema from the text of a document under a policy. -/
def readText (policy : Policy) (text : String) : Except Failure Schema :=
  match Json.read text with
  | .error fault => .error (.malformedDocument ⟨".", .notJson fault⟩)
  | .ok document => readValue policy document

end Introspection

end SchemaModel
