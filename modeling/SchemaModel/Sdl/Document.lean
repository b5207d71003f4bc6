import SchemaModel.Schema

/-! # Schema Definition Documents

    The tree of a definition text, with the byte offset of everything that can be reported later,
    and what the tree declares.

    * **Definition**: a named type, a schema block or a directive definition.
    * **Entry**: a definition, or an extension of one.
    * **Usage**: a construct that no model has room for, at the place where it is written.
    * **toSchema**: the declarations and roots of a document, next to what was skipped on the way.
      An extension declares nothing.
-/

namespace SchemaModel.Sdl

/-! ## The Tree -/

/-- A name with the byte offset at which it is written. -/
structure Name where
  text : String
  offset : Nat
  deriving Repr, DecidableEq

/-- An argument or a field of an input type. Each directive lies at its at sign. -/
structure InputValueDef where
  name : Name
  type : TypeRef String
  defaultValue : Option Value
  directives : List Name
  deriving Repr, DecidableEq

/-- A field of an object or interface. -/
structure FieldDef where
  name : Name
  args : List InputValueDef
  type : TypeRef String
  directives : List Name
  deriving Repr, DecidableEq

/-- A value of an enum. -/
structure EnumValueDef where
  name : Name
  directives : List Name
  deriving Repr, DecidableEq

/-- What a definition says beyond its name and directives. -/
inductive Body where
  | schema (operations : List (RootOperation × String))
  | object (interfaces : List Name) (fields : List FieldDef)
  | interface (interfaces : List Name) (fields : List FieldDef)
  | union (members : List Name)
  | enum (values : List EnumValueDef)
  | input (fields : List InputValueDef)
  | scalar
  | directive (args : List InputValueDef) (locations : List Name)
  deriving Repr, DecidableEq

/-- A definition, which lies at its keyword. A schema block goes by the name of its keyword. -/
structure Definition where
  offset : Nat
  name : String
  directives : List Name
  body : Body
  deriving Repr, DecidableEq

/-- An item of a document. -/
inductive Entry where
  | definition (definition : Definition)
  /-- An extension, which lies at its own keyword. -/
  | extension (offset : Nat) (definition : Definition)
  deriving Repr, DecidableEq

/-- The items of a source, in its order. -/
abbrev Document := List Entry

/-! ## Unsupported Constructs -/

/-- A construct that no model has room for, at the place where it is written. -/
structure Usage where
  construct : Construct
  name : String
  offset : Nat
  deriving Repr, DecidableEq

/-- The entry that a usage makes in the list of skipped constructs. -/
def Usage.skipped (lines : LineTable) (usage : Usage) : Skipped :=
  ⟨usage.construct, usage.name, .sdl (lines.position usage.offset)⟩

/-- The usages of directives that are not core ones. -/
def directiveUsages (directives : List Name) : List Usage :=
  (directives.filter fun d => !isCoreDirective d.text).map fun d => ⟨.directive, d.text, d.offset⟩

/-- The usages inside an argument or an input field. -/
def InputValueDef.usages (value : InputValueDef) : List Usage :=
  directiveUsages value.directives

/-- The usages inside a field, arguments first. -/
def FieldDef.usages (field : FieldDef) : List Usage :=
  field.args.flatMap InputValueDef.usages ++ directiveUsages field.directives

/-- The interfaces that a definition implements. -/
def Body.interfaces : Body → List Name
  | .object interfaces _ | .interface interfaces _ => interfaces
  | _ => []

/-- The usages inside the braces or parentheses of a definition. -/
def Body.memberUsages : Body → List Usage
  | .object _ fields | .interface _ fields => fields.flatMap FieldDef.usages
  | .enum values => values.flatMap fun value => directiveUsages value.directives
  | .input fields => fields.flatMap InputValueDef.usages
  | .directive args _ => args.flatMap InputValueDef.usages
  | .schema _ | .union _ | .scalar => []

/-- The construct that a definition itself is, if no model has room for it. -/
def Body.construct? : Body → Option Construct
  | .interface .. => some .interface
  | .union _ => some .union
  | .directive .. => some .directiveDefinition
  | _ => none

/-- The usages of a definition in the order of the text, with the definition itself last. -/
def Definition.usages (d : Definition) : List Usage :=
  d.body.interfaces.map (fun name => ⟨.implements, name.text, name.offset⟩) ++
    directiveUsages d.directives ++ d.body.memberUsages ++
    (d.body.construct?.map fun construct => ⟨construct, d.name, d.offset⟩).toList

/-- What an item of a document adds to the skipped constructs. Usages inside an extension go with
    the extension. -/
def Entry.usages : Entry → List Usage
  | .definition d => d.usages
  | .extension offset d => [⟨.extension, d.name, offset⟩]

/-- Every usage that is met in an item, those inside an extension included. -/
def Entry.allUsages : Entry → List Usage
  | .definition d => d.usages
  | .extension offset d => d.usages ++ [⟨.extension, d.name, offset⟩]

/-! ## Declarations -/

/-- The argument or input field that a definition declares. -/
def InputValueDef.toInputValue (lines : LineTable) (value : InputValueDef) : InputValue :=
  ⟨value.name.text, value.type, value.defaultValue, .sdl (lines.position value.name.offset)⟩

/-- The field that a definition declares. -/
def FieldDef.toField (lines : LineTable) (field : FieldDef) : Field :=
  ⟨field.name.text, field.type, field.args.map (·.toInputValue lines),
    .sdl (lines.position field.name.offset)⟩

/-- The body of the type that a definition declares, if it declares one that a model has room
    for. -/
def Body.declarationKind? (lines : LineTable) : Body → Option DeclarationKind
  | .object _ fields => some (.object (fields.map (·.toField lines)))
  | .input fields => some (.input (fields.map (·.toInputValue lines)))
  | .enum values => some (.enum (values.map (·.name.text)))
  | .scalar => some .scalar
  | .schema _ | .interface .. | .union _ | .directive .. => none

/-- The type that a definition declares, if any. -/
def Definition.declaration? (lines : LineTable) (d : Definition) : Option Declaration :=
  (d.body.declarationKind? lines).map fun kind => ⟨d.name, kind, .sdl (lines.position d.offset)⟩

/-- The type that an item of a document declares, if any. -/
def Entry.declaration? (lines : LineTable) : Entry → Option Declaration
  | .definition d => d.declaration? lines
  | .extension .. => none

/-! ## Roots -/

/-- The offset and the operations of a schema block. -/
def Entry.schemaBlock? : Entry → Option (Nat × List (RootOperation × String))
  | .definition ⟨offset, _, _, .schema operations⟩ => some (offset, operations)
  | _ => none

/-- The root types that a schema block names. -/
def rootsOfOperations (operations : List (RootOperation × String)) : RootNames :=
  ⟨operations.lookup .query, operations.lookup .mutation, operations.lookup .subscription⟩

/-- A type of the given name, if its first declaration is an object. -/
def objectNamed? (declarations : List Declaration) (name : String) : Option String :=
  match declarations.find? (·.name == name) with
  | some decl => if decl.isObject then some name else none
  | none => none

/-- The root types of a source without a schema block: objects of the conventional names. -/
def conventionalRoots (declarations : List Declaration) : RootNames :=
  ⟨objectNamed? declarations "Query", objectNamed? declarations "Mutation",
    objectNamed? declarations "Subscription"⟩

/-- What a document declares, where the given usages were skipped. Root types are named by its
    schema block, or else by convention. -/
def Document.toSchema (lines : LineTable) (usages : List Usage) (document : Document) : Schema :=
  let declarations := document.filterMap (Entry.declaration? lines)
  let skipped := usages.map (Usage.skipped lines)
  match document.findSome? Entry.schemaBlock? with
  | some (offset, operations) =>
    ⟨declarations, rootsOfOperations operations, .sdl (lines.position offset), skipped⟩
  | none => ⟨declarations, conventionalRoots declarations, .sdl ⟨1, 1⟩, skipped⟩

end SchemaModel.Sdl
