import SchemaModel.Diagnostic
import SchemaModel.Identifier
import SchemaModel.Model

/-! # Resolution

    From the declarations of a schema to a model.

    * **checkDeclarations**: no type is declared twice, and no two types share an identifier.
    * **Roots**: the query and mutation roots have to be declared object types.
    * **Members**: fields and arguments of a skipped type are dropped. Those that are kept claim
      their identifiers one by one, and each is resolved before the next one claims its own.
    * **resolve**: the model of a schema, or the first failure.
    * **findings**: what is reported about a schema that has a model.
-/

namespace SchemaModel

/-! ## Declarations -/

/-- Checks declarations in order. `seen` holds the names that were declared before, and a built-in
    scalar may be declared as a scalar any number of times. -/
def checkDeclarations (seen : List String) (scope : Scope) :
    List Declaration → Except Failure Unit
  | [] => .ok ()
  | decl :: decls =>
    if isBuiltinScalar decl.name then
      if decl.isScalar then checkDeclarations seen scope decls
      else .error (.duplicate decl.name decl.origin)
    else if seen.contains decl.name then .error (.duplicate decl.name decl.origin)
    else if decl.isScalar then checkDeclarations (decl.name :: seen) scope decls
    else do
      let scope ← scope.claim decl.name (identifier .typeMember decl.name) decl.origin
      checkDeclarations (decl.name :: seen) scope decls

/-! ## References -/

/-- The kind of reference that a declaration is the goal of. -/
def DeclarationKind.namedKind : DeclarationKind → NamedKind
  | .object _ => .object
  | .input _ => .input
  | .enum _ => .enum
  | .scalar => .scalar

section

variable (options : Options) (schema : Schema)

/-- The reference that a name stands for. -/
def resolveName (site : ReferenceSite) (origin : Origin) (name : String) :
    Except Failure NamedRef :=
  if isBuiltinScalar name then .ok ⟨name, .scalar, options.builtinTarget name⟩
  else
    match schema.find? name with
    | none => .error (.unresolved name site origin)
    | some decl =>
      if decl.isScalar then .ok ⟨name, .scalar, options.customTarget name⟩
      else
        let target := (options.override? name).getD ⟨identifier .typeMember name, false⟩
        .ok ⟨name, decl.kind.namedKind, target⟩

/-- The type that a reference under its wrappings stands for. -/
def resolveType (site : ReferenceSite) (origin : Origin) (type : TypeRef String) :
    Except Failure ModelType :=
  type.mapM (resolveName options schema site origin)

/-- Does the type refer to one that was left out? -/
def isDropped (type : TypeRef String) : Bool :=
  schema.skippedTypes.contains type.base

/-! ## Members -/

/-- A member to be resolved: its name and origin, and what it becomes with its identifier. -/
structure Claimant (α : Type) where
  name : String
  origin : Origin
  resolve : String → Except Failure α

/-- Lets members claim their identifiers and resolves them, one after the other. -/
def resolveMembers {α : Type} (role : IdentifierRole) (scope : Scope) :
    List (Claimant α) → Except Failure (List α)
  | [] => .ok []
  | member :: members => do
    let ident := identifier role member.name
    let scope ← scope.claim member.name ident member.origin
    let resolved ← member.resolve ident
    return resolved :: (← resolveMembers role scope members)

/-- An argument or input field that claims its identifier. -/
def inputClaimant (site : String → ReferenceSite) (value : InputValue) : Claimant ModelInput where
  name := value.name
  origin := value.origin
  resolve ident := do
    let type ← resolveType options schema (site value.name) value.origin value.type
    return ⟨value.name, ident, type, value.defaultValue⟩

/-- The kept ones among arguments or input fields. -/
def keptInputs (values : List InputValue) : List InputValue :=
  values.filter fun value => !isDropped schema value.type

/-- The kept ones among fields. -/
def keptFields (fields : List Field) : List Field :=
  fields.filter fun field => !isDropped schema field.type

/-- The arguments of a field. -/
def resolveArgs (owner : String) (field : Field) : Except Failure (List ModelInput) :=
  let path := owner ++ "." ++ field.name
  resolveMembers .localVariable (.members ("arguments of `" ++ path ++ "`") path)
    ((keptInputs schema field.args).map
      (inputClaimant options schema (.argument owner field.name)))

/-- A field that claims its identifier. -/
def fieldClaimant (owner : String) (field : Field) : Claimant ModelField where
  name := field.name
  origin := field.origin
  resolve ident := do
    let type ← resolveType options schema (.field owner field.name) field.origin field.type
    let args ← resolveArgs options schema owner field
    return ⟨field.name, ident, type, args⟩

/-- The scope of the fields of a type. -/
def fieldScope (owner : String) : Scope :=
  .members ("fields of `" ++ owner ++ "`") owner

/-! ## Definitions -/

/-- A resolved declaration. -/
inductive ModelDefinition where
  | object (object : ObjectType)
  | input (input : InputType)
  | enum (enum : EnumType)
  | scalar (scalar : ScalarType)
  deriving Repr, DecidableEq

/-- Checks that no value of an enum is listed twice. `seen` holds the earlier values. -/
def checkEnumValues (decl : Declaration) (seen : List String) :
    List String → Except Failure Unit
  | [] => .ok ()
  | value :: values =>
    if seen.contains value then .error (.duplicate (decl.name ++ "." ++ value) decl.origin)
    else checkEnumValues decl (value :: seen) values

/-- The definition that a declaration comes to. -/
def resolveDeclaration (decl : Declaration) : Except Failure ModelDefinition :=
  let ident := identifier .typeMember decl.name
  match decl.kind with
  | .object fields => do
    let fields ← resolveMembers .typeMember (fieldScope decl.name)
      ((keptFields schema fields).map (fieldClaimant options schema decl.name))
    return .object ⟨decl.name, ident, fields⟩
  | .input fields => do
    let fields ← resolveMembers .typeMember (fieldScope decl.name)
      ((keptInputs schema fields).map (inputClaimant options schema (.inputField decl.name)))
    return .input ⟨decl.name, ident, fields⟩
  | .enum values => do
    checkEnumValues decl [] values
    return .enum ⟨decl.name, ident, values⟩
  | .scalar => return .scalar ⟨decl.name, options.customTarget decl.name⟩

/-- The definitions that a list of declarations comes to. Built-in scalars have none. -/
def resolveDeclarations : List Declaration → Except Failure (List ModelDefinition)
  | [] => .ok []
  | decl :: decls =>
    if isBuiltinScalar decl.name then resolveDeclarations decls
    else do
      let definition ← resolveDeclaration options schema decl
      return definition :: (← resolveDeclarations decls)

/-! ## Roots -/

/-- Checks that a root type is a declared object. -/
def checkRoot (site : ReferenceSite) (name : String) : Except Failure Unit :=
  if (schema.find? name).any Declaration.isObject then .ok ()
  else .error (.unresolved name site schema.rootsOrigin)

/-- The name of the query root, once both roots have been checked. -/
def checkRoots : Except Failure String := do
  match schema.roots.query with
  | none => throw (.unresolved "Query" .absentQueryRoot schema.rootsOrigin)
  | some query =>
    checkRoot schema .queryRoot query
    if let some mutation := schema.roots.mutation then
      checkRoot schema .mutationRoot mutation
    return query

/-! ## Models -/

/-- The object types among definitions. -/
def objectsOf (definitions : List ModelDefinition) : List ObjectType :=
  definitions.filterMap fun
    | .object object => some object
    | _ => none

/-- The input types among definitions. -/
def inputsOf (definitions : List ModelDefinition) : List InputType :=
  definitions.filterMap fun
    | .input input => some input
    | _ => none

/-- The enums among definitions. -/
def enumsOf (definitions : List ModelDefinition) : List EnumType :=
  definitions.filterMap fun
    | .enum enum => some enum
    | _ => none

/-- The scalars among definitions. -/
def scalarsOf (definitions : List ModelDefinition) : List ScalarType :=
  definitions.filterMap fun
    | .scalar scalar => some scalar
    | _ => none

/-- The root of the given name among object types. -/
def rootOf (site : ReferenceSite) (objects : List ObjectType) (name : String) :
    Except Failure ObjectType :=
  match objects.find? (·.name == name) with
  | some object => .ok object
  | none => .error (.unresolved name site schema.rootsOrigin)

/-- The mutation root of a schema that names none. -/
def emptyMutation : ObjectType := ⟨"Mutation", "Mutation", []⟩

/-- The model of a schema. -/
def resolve : Except Failure Model := do
  checkDeclarations [] .types schema.declarations
  let queryName ← checkRoots schema
  let definitions ← resolveDeclarations options schema schema.declarations
  let objects := objectsOf definitions
  let isRoot (object : ObjectType) :=
    object.name == queryName || schema.roots.mutation == some object.name
  let query ← rootOf schema .queryRoot objects queryName
  let mutation ← match schema.roots.mutation with
    | some name => rootOf schema .mutationRoot objects name
    | none => pure emptyMutation
  return {
    types := objects.filter fun object => !isRoot object
    inputs := inputsOf definitions
    enums := enumsOf definitions
    scalars := scalarsOf definitions
    query
    mutation }

end

/-! ## Findings -/

namespace Schema

variable (schema : Schema)

/-- The finding about a member that refers to a skipped type. -/
def dropped (code noun path : String) (type : TypeRef String) (origin : Origin) : Diagnostic :=
  .warningAt code ("dropped " ++ noun ++ " `" ++ path ++ "` of skipped type `" ++ type.base ++ "`")
    origin

/-- The findings about an argument at `path`, or about an input field. -/
def inputFindings (code noun path : String) (value : InputValue) : List Diagnostic :=
  if isDropped schema value.type then [dropped code noun path value.type value.origin] else []

/-- The findings about a field, or about its arguments if the field itself is kept. -/
def fieldFindings (owner : String) (field : Field) : List Diagnostic :=
  let path := owner ++ "." ++ field.name
  if isDropped schema field.type then
    [dropped Diagnostic.droppedField "field" path field.type field.origin]
  else
    field.args.flatMap fun arg =>
      schema.inputFindings Diagnostic.droppedArgument "argument" (path ++ "(" ++ arg.name ++ ")")
        arg

/-- The findings about a declaration. -/
def declarationFindings (decl : Declaration) : List Diagnostic :=
  match decl.kind with
  | .object fields => fields.flatMap (schema.fieldFindings decl.name)
  | .input fields =>
    fields.flatMap fun field =>
      schema.inputFindings Diagnostic.droppedField "input field" (decl.name ++ "." ++ field.name)
        field
  | .enum _ | .scalar => []

/-- The finding about a subscription root. -/
def subscriptionFindings : List Diagnostic :=
  match schema.roots.subscription with
  | none => []
  | some name =>
    [⟨.info, Diagnostic.plainSubscription,
      "subscription root `" ++ name ++ "` is compiled as a plain object type",
      [⟨schema.rootsOrigin, "declared here"⟩]⟩]

/-- Everything that is reported about a schema: skipped constructs, the subscription root, and
    dropped members in the order of the source. -/
def findings : List Diagnostic :=
  schema.skipped.map Diagnostic.ofSkipped ++ schema.subscriptionFindings ++
    schema.declarations.flatMap schema.declarationFindings

end Schema

end SchemaModel
