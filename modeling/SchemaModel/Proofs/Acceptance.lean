import SchemaModel.Compilation
import SchemaModel.Proofs.Scopes

/-! # Acceptance

    Which schemas have a model, and which model they have:

    * **Known names**: a reference resolves if its base name is built in or declared.
    * **Fitting members**: the kept members of a type have their own identifiers and known types.
    * **Acceptable schemas**: everything that `resolve` asks of a schema, clause by clause.
    * **modelOf**: the model, written down without a way to fail. `resolve` gives it for every
      acceptable schema and fails for any other, so that all else about models is read off it. -/

namespace SchemaModel

/-! ## Type References -/

/-- A type converts if its one leaf does. -/
theorem TypeRef.mapM_eq_ok {α β ε : Type} {f : α → Except ε β} {type : TypeRef α}
    {result : TypeRef β} :
    type.mapM f = .ok result ↔
      ∃ leaf, f type.base = .ok leaf ∧ result = type.map fun _ => leaf := by
  induction type generalizing result with
  | named leaf => simp only [TypeRef.mapM, TypeRef.base, TypeRef.map, map_eq_ok, @eq_comm _ result]
  | list item ih | nonNull item ih =>
    simp only [TypeRef.mapM, TypeRef.base, TypeRef.map, map_eq_ok, ih]
    constructor
    · rintro ⟨_, ⟨leaf, hleaf, rfl⟩, rfl⟩
      exact ⟨leaf, hleaf, rfl⟩
    · rintro ⟨leaf, hleaf, rfl⟩
      exact ⟨_, ⟨leaf, hleaf, rfl⟩, rfl⟩

@[simp] theorem TypeRef.base_map {α β : Type} (f : α → β) (type : TypeRef α) :
    (type.map f).base = f type.base := by
  induction type with
  | named leaf => rfl
  | list item ih | nonNull item ih => exact ih

/-! ## Known Names -/

namespace Schema

/-- The name is that of a built-in scalar or of a declared type. -/
def Known (schema : Schema) (name : String) : Prop :=
  isBuiltinScalar name ∨ ∃ decl ∈ schema.declarations, decl.name = name

/-- The name is that of a declared object type. -/
def DeclaresObject (schema : Schema) (name : String) : Prop :=
  ∃ decl ∈ schema.declarations, decl.name = name ∧ decl.isObject

/-- The kind of the type that a declared name stands for. -/
def kindOf (schema : Schema) (name : String) : NamedKind :=
  ((schema.find? name).map fun decl => decl.kind.namedKind).getD .scalar

theorem find?_eq_none {schema : Schema} {name : String} :
    schema.find? name = none ↔ ∀ decl ∈ schema.declarations, decl.name ≠ name := by
  simp [find?]

theorem find?_eq_some {schema : Schema} {name : String} {decl : Declaration}
    (h : schema.find? name = some decl) : decl ∈ schema.declarations ∧ decl.name = name :=
  ⟨List.mem_of_find?_eq_some h, by simpa using List.find?_some h⟩

end Schema

/-- A declaration is that of a scalar if its body is. -/
theorem isScalar_iff {decl : Declaration} : decl.isScalar ↔ decl.kind = .scalar := by
  unfold Declaration.isScalar
  cases decl.kind <;> simp

/-- A declaration is that of an object if its body is. -/
theorem isObject_iff {decl : Declaration} :
    decl.isObject ↔ ∃ fields, decl.kind = .object fields := by
  unfold Declaration.isObject
  cases decl.kind <;> simp

/-! ## Models without Failures -/

section

variable (options : Options) (schema : Schema)

/-- The reference that a known name stands for. -/
def referenceTo (name : String) : NamedRef :=
  if isBuiltinScalar name then ⟨name, .scalar, options.builtinTarget name⟩
  else
    match schema.kindOf name with
    | .scalar => ⟨name, .scalar, options.customTarget name⟩
    | kind => ⟨name, kind, (options.override? name).getD ⟨identifier .typeMember name, false⟩⟩

/-- The type that a reference with a known base stands for. -/
def typeOf (type : TypeRef String) : ModelType :=
  type.map fun _ => referenceTo options schema type.base

/-- The argument or input field that a declared one becomes. -/
def inputOf (role : IdentifierRole) (value : InputValue) : ModelInput :=
  ⟨value.name, identifier role value.name, typeOf options schema value.type, value.defaultValue⟩

/-- The field that a declared one becomes. -/
def fieldOf (field : Field) : ModelField :=
  ⟨field.name, identifier .typeMember field.name, typeOf options schema field.type,
    (keptInputs schema field.args).map (inputOf options schema .localVariable)⟩

/-- The definition that a declaration becomes. -/
def definitionOf (decl : Declaration) : ModelDefinition :=
  let ident := identifier .typeMember decl.name
  match decl.kind with
  | .object fields =>
    .object ⟨decl.name, ident, (keptFields schema fields).map (fieldOf options schema)⟩
  | .input fields =>
    .input ⟨decl.name, ident, (keptInputs schema fields).map (inputOf options schema .typeMember)⟩
  | .enum values => .enum ⟨decl.name, ident, values⟩
  | .scalar => .scalar ⟨decl.name, options.customTarget decl.name⟩

/-- The definitions that the declarations of a schema become. -/
def definitionsOf : List ModelDefinition :=
  (Schema.named schema.declarations).map (definitionOf options schema)

/-- The root of a given name. Without a name or an object of that name it is empty. -/
def rootNamed (objects : List ObjectType) (name : Option String) : ObjectType :=
  (name.bind fun name => objects.find? (·.name == name)).getD emptyMutation

/-- The model of an acceptable schema. -/
def modelOf : Model :=
  let definitions := definitionsOf options schema
  let objects := objectsOf definitions
  { types := objects.filter fun object =>
      !(schema.roots.query == some object.name || schema.roots.mutation == some object.name)
    inputs := inputsOf definitions
    enums := enumsOf definitions
    scalars := scalarsOf definitions
    query := rootNamed objects schema.roots.query
    mutation := rootNamed objects schema.roots.mutation }

end

/-! ## Acceptable Schemas -/

namespace Schema

variable (schema : Schema)

/-- **Fitting inputs**: the arguments or input fields of types that are not skipped have
    identifiers of their own and known types. -/
structure FittingInputs (role : IdentifierRole) (values : List InputValue) : Prop where
  distinct : ((keptInputs schema values).map fun value => identifier role value.name).Nodup
  known : ∀ value ∈ keptInputs schema values, schema.Known value.type.base

/-- **Fitting fields**: the fields of types that are not skipped have identifiers of their own,
    known types and fitting arguments. -/
structure FittingFields (fields : List Field) : Prop where
  distinct : ((keptFields schema fields).map fun field => identifier .typeMember field.name).Nodup
  known : ∀ field ∈ keptFields schema fields, schema.Known field.type.base
  args : ∀ field ∈ keptFields schema fields, schema.FittingInputs .localVariable field.args

/-- The body of a declaration fits: its members do, or its values are not repeated. -/
def Fitting : DeclarationKind → Prop
  | .object fields => schema.FittingFields fields
  | .input fields => schema.FittingInputs .typeMember fields
  | .enum values => values.Nodup
  | .scalar => True

/-- A scalar has no members that might not fit. -/
theorem fitting_of_isScalar {schema : Schema} {decl : Declaration} (h : decl.isScalar) :
    schema.Fitting decl.kind := by
  rw [isScalar_iff.mp h]
  trivial

/-- **Acceptable schemas**: what it takes to have a model, whatever the options are. -/
structure Acceptable : Prop where
  /-- Built-in scalars are only declared as scalars. -/
  builtins : ∀ decl ∈ schema.declarations, isBuiltinScalar decl.name → decl.isScalar
  /-- No other name is declared twice. -/
  names : ((named schema.declarations).map Declaration.name).Nodup
  /-- No two object, input or enum types share an identifier. -/
  identifiers : ((identified schema.declarations).map fun decl =>
    identifier .typeMember decl.name).Nodup
  /-- There is a query root, and it is a declared object type. -/
  query : ∃ name, schema.roots.query = some name ∧ schema.DeclaresObject name
  /-- A mutation root is a declared object type. -/
  mutation : ∀ name, schema.roots.mutation = some name → schema.DeclaresObject name
  /-- The members of every type fit. -/
  fitting : ∀ decl ∈ schema.declarations, schema.Fitting decl.kind

end Schema

/-! ## Resolution of Members -/

section

variable {options : Options} {schema : Schema}

@[simp] theorem namedKind_eq_scalar {decl : Declaration} :
    decl.kind.namedKind = .scalar ↔ decl.isScalar := by
  rw [isScalar_iff]
  cases decl.kind <;> simp [DeclarationKind.namedKind]

theorem namedKind_eq_object {decl : Declaration} :
    decl.kind.namedKind = .object ↔ decl.isObject := by
  rw [isObject_iff]
  cases decl.kind <;> simp [DeclarationKind.namedKind]

/-- A name resolves if it is known. -/
theorem resolveName_eq_ok {site : ReferenceSite} {origin : Origin} {name : String}
    {ref : NamedRef} :
    resolveName options schema site origin name = .ok ref ↔
      schema.Known name ∧ ref = referenceTo options schema name := by
  unfold resolveName referenceTo
  by_cases hb : isBuiltinScalar name
  · simp [hb, Schema.Known, eq_comm]
  · -- a name that is not built in is known if and only if a declaration of it is found
    rw [if_neg hb, if_neg hb]
    cases hf : schema.find? name with
    | none =>
      have hnone := Schema.find?_eq_none.mp hf
      have hunknown : ¬schema.Known name := by
        rintro (h | ⟨decl, hmem, hname⟩)
        · exact hb h
        · exact hnone decl hmem hname
      simp [hunknown]
    | some decl =>
      have hknown : schema.Known name := .inr ⟨decl, Schema.find?_eq_some hf⟩
      have hkind : schema.kindOf name = decl.kind.namedKind := by
        simp [Schema.kindOf, hf]
      rw [hkind]
      cases hd : decl.kind <;>
        simp [Declaration.isScalar, DeclarationKind.namedKind, hd, hknown, @eq_comm _ ref]

theorem resolveType_eq_ok {site : ReferenceSite} {origin : Origin} {type : TypeRef String}
    {result : ModelType} :
    resolveType options schema site origin type = .ok result ↔
      schema.Known type.base ∧ result = typeOf options schema type := by
  unfold resolveType typeOf
  rw [TypeRef.mapM_eq_ok]
  simp only [resolveName_eq_ok]
  constructor
  · rintro ⟨_, ⟨hknown, rfl⟩, rfl⟩
    exact ⟨hknown, rfl⟩
  · rintro ⟨hknown, rfl⟩
    exact ⟨_, ⟨hknown, rfl⟩, rfl⟩

/-- Converting item by item under a condition is mapping, if the condition holds of all items. -/
theorem forall₂_and_eq {α β : Type} {P : α → Prop} {f : α → β} {xs : List α} {ys : List β} :
    List.Forall₂ (fun x y => P x ∧ y = f x) xs ys ↔ (∀ x ∈ xs, P x) ∧ ys = xs.map f := by
  induction xs generalizing ys with
  | nil => simp [List.forall₂_nil_left_iff]
  | cons x xs ih =>
    simp only [List.forall₂_cons_left_iff, ih, List.forall_mem_cons, List.map_cons]
    constructor
    · rintro ⟨_, _, ⟨hx, rfl⟩, ⟨hxs, rfl⟩, rfl⟩
      exact ⟨⟨hx, hxs⟩, rfl⟩
    · rintro ⟨⟨hx, hxs⟩, rfl⟩
      exact ⟨_, _, ⟨hx, rfl⟩, ⟨hxs, rfl⟩, rfl⟩

/-- Claimants resolve if their identifiers are distinct and what each of them needs is there. -/
theorem resolveClaimants_eq_ok {α β : Type} {role : IdentifierRole} {label owner : String}
    {items : List α} {claimant : α → Claimant β} {P : α → Prop} {f : α → β} {results : List β}
    (hresolve : ∀ item result, (claimant item).resolve (identifier role (claimant item).name) =
      .ok result ↔ P item ∧ result = f item) :
    resolveMembers role (.members label owner) (items.map claimant) = .ok results ↔
      (items.map fun item => identifier role (claimant item).name).Nodup ∧
        (∀ item ∈ items, P item) ∧ results = items.map f := by
  rw [resolveMembers_eq_ok, allFree_members, List.map_map, List.forall₂_map_left_iff]
  simp only [Function.comp_def, hresolve, forall₂_and_eq]

/-- Arguments or input fields resolve if they fit. -/
theorem resolveInputs_eq_ok {role : IdentifierRole} {label owner : String}
    {site : String → ReferenceSite} {values : List InputValue} {results : List ModelInput} :
    resolveMembers role (.members label owner)
        ((keptInputs schema values).map (inputClaimant options schema site)) = .ok results ↔
      schema.FittingInputs role values ∧
        results = (keptInputs schema values).map (inputOf options schema role) := by
  -- what a claimant makes of its identifier does not depend on the scope
  have hresolve : ∀ (value : InputValue) (result : ModelInput),
      (inputClaimant options schema site value).resolve (identifier role value.name) =
        .ok result ↔ schema.Known value.type.base ∧ result = inputOf options schema role value := by
    intro value result
    simp only [inputClaimant, bind_eq_ok, pure_eq_ok, resolveType_eq_ok]
    constructor
    · rintro ⟨_, ⟨hknown, rfl⟩, rfl⟩
      exact ⟨hknown, rfl⟩
    · rintro ⟨hknown, rfl⟩
      exact ⟨_, ⟨hknown, rfl⟩, rfl⟩
  rw [resolveClaimants_eq_ok hresolve]
  constructor
  · rintro ⟨hdistinct, hknown, hresults⟩
    exact ⟨⟨hdistinct, hknown⟩, hresults⟩
  · rintro ⟨⟨hdistinct, hknown⟩, hresults⟩
    exact ⟨hdistinct, hknown, hresults⟩

/-- Fields resolve if they fit. -/
theorem resolveFields_eq_ok {label owner : String} {fields : List Field}
    {results : List ModelField} :
    resolveMembers .typeMember (.members label owner)
        ((keptFields schema fields).map (fieldClaimant options schema owner)) = .ok results ↔
      schema.FittingFields fields ∧
        results = (keptFields schema fields).map (fieldOf options schema) := by
  -- the arguments of a field are resolved in a scope of their own
  have hresolve : ∀ (field : Field) (result : ModelField),
      (fieldClaimant options schema owner field).resolve (identifier .typeMember field.name) =
        .ok result ↔
      (schema.Known field.type.base ∧ schema.FittingInputs .localVariable field.args) ∧
        result = fieldOf options schema field := by
    intro field result
    simp only [fieldClaimant, resolveArgs, bind_eq_ok, pure_eq_ok, resolveType_eq_ok,
      resolveInputs_eq_ok]
    constructor
    · rintro ⟨_, ⟨hknown, rfl⟩, _, ⟨hargs, rfl⟩, rfl⟩
      exact ⟨⟨hknown, hargs⟩, rfl⟩
    · rintro ⟨⟨hknown, hargs⟩, rfl⟩
      exact ⟨_, ⟨hknown, rfl⟩, _, ⟨hargs, rfl⟩, rfl⟩
  rw [resolveClaimants_eq_ok hresolve]
  constructor
  · rintro ⟨hdistinct, hfit, hresults⟩
    exact ⟨⟨hdistinct, fun f hf => (hfit f hf).1, fun f hf => (hfit f hf).2⟩, hresults⟩
  · rintro ⟨⟨hdistinct, hknown, hargs⟩, hresults⟩
    exact ⟨hdistinct, fun f hf => ⟨hknown f hf, hargs f hf⟩, hresults⟩

/-! ## Resolution of Declarations -/

/-- A declaration resolves if its body fits. -/
theorem resolveDeclaration_eq_ok {decl : Declaration} {result : ModelDefinition} :
    resolveDeclaration options schema decl = .ok result ↔
      schema.Fitting decl.kind ∧ result = definitionOf options schema decl := by
  unfold resolveDeclaration definitionOf
  cases decl.kind with
  | object fields =>
    simp only [fieldScope, bind_eq_ok, pure_eq_ok, resolveFields_eq_ok, Schema.Fitting]
    constructor
    · rintro ⟨_, ⟨hfit, rfl⟩, rfl⟩
      exact ⟨hfit, rfl⟩
    · rintro ⟨hfit, rfl⟩
      exact ⟨_, ⟨hfit, rfl⟩, rfl⟩
  | input fields =>
    simp only [fieldScope, bind_eq_ok, pure_eq_ok, resolveInputs_eq_ok, Schema.Fitting]
    constructor
    · rintro ⟨_, ⟨hfit, rfl⟩, rfl⟩
      exact ⟨hfit, rfl⟩
    · rintro ⟨hfit, rfl⟩
      exact ⟨_, ⟨hfit, rfl⟩, rfl⟩
  | enum values =>
    have hcheck : ∀ u : Unit, checkEnumValues decl [] values = .ok u ↔ values.Nodup :=
      fun _ => checkEnumValues_eq_ok.trans allNew_nil_left
    simp only [bind_eq_ok, pure_eq_ok, hcheck, Schema.Fitting]
    constructor
    · rintro ⟨_, hnodup, rfl⟩
      exact ⟨hnodup, rfl⟩
    · rintro ⟨hnodup, rfl⟩
      exact ⟨(), hnodup, rfl⟩
  | scalar => simp only [Schema.Fitting, pure_eq_ok, true_and, @eq_comm _ result]

/-- Declarations resolve if the bodies of all but the built-in scalars fit. -/
theorem resolveDeclarations_eq_ok {decls : List Declaration} {results : List ModelDefinition} :
    resolveDeclarations options schema decls = .ok results ↔
      (∀ decl ∈ Schema.named decls, schema.Fitting decl.kind) ∧
        results = (Schema.named decls).map (definitionOf options schema) := by
  induction decls generalizing results with
  | nil => simp [resolveDeclarations, Schema.named, eq_comm]
  | cons decl decls ih =>
    unfold resolveDeclarations
    by_cases hb : isBuiltinScalar decl.name
    · have hnamed : Schema.named (decl :: decls) = Schema.named decls := by
        simp [Schema.named, hb]
      rw [if_pos hb, ih, hnamed]
    · have hnamed : Schema.named (decl :: decls) = decl :: Schema.named decls := by
        simp [Schema.named, hb]
      -- the first body fits, and so do those of the other declarations
      rw [if_neg hb, hnamed, List.forall_mem_cons, List.map_cons]
      simp only [bind_eq_ok, pure_eq_ok, resolveDeclaration_eq_ok, ih]
      constructor
      · rintro ⟨_, ⟨hfit, rfl⟩, _, ⟨hfits, rfl⟩, rfl⟩
        exact ⟨⟨hfit, hfits⟩, rfl⟩
      · rintro ⟨⟨hfit, hfits⟩, rfl⟩
        exact ⟨_, ⟨hfit, rfl⟩, _, ⟨hfits, rfl⟩, rfl⟩

/-! ## Definitions and Declarations -/

theorem mem_named {decls : List Declaration} {decl : Declaration} :
    decl ∈ Schema.named decls ↔ decl ∈ decls ∧ ¬isBuiltinScalar decl.name := by
  simp [Schema.named]

/-- What is picked from the definitions is picked from that of a named declaration. -/
theorem mem_picked {α : Type} {pick : ModelDefinition → Option α} {x : α} :
    x ∈ (definitionsOf options schema).filterMap pick ↔
      ∃ decl ∈ Schema.named schema.declarations,
        pick (definitionOf options schema decl) = some x := by
  simp [definitionsOf]

theorem mem_objectsOf {object : ObjectType} :
    object ∈ objectsOf (definitionsOf options schema) ↔
      ∃ decl ∈ Schema.named schema.declarations, ∃ fields, decl.kind = .object fields ∧
        object = ⟨decl.name, identifier .typeMember decl.name,
          (keptFields schema fields).map (fieldOf options schema)⟩ := by
  refine mem_picked.trans (exists_congr fun decl => and_congr_right fun _ => ?_)
  cases hkind : decl.kind <;> simp [definitionOf, hkind, @eq_comm _ object]

theorem mem_inputsOf {input : InputType} :
    input ∈ inputsOf (definitionsOf options schema) ↔
      ∃ decl ∈ Schema.named schema.declarations, ∃ fields, decl.kind = .input fields ∧
        input = ⟨decl.name, identifier .typeMember decl.name,
          (keptInputs schema fields).map (inputOf options schema .typeMember)⟩ := by
  refine mem_picked.trans (exists_congr fun decl => and_congr_right fun _ => ?_)
  cases hkind : decl.kind <;> simp [definitionOf, hkind, @eq_comm _ input]

theorem mem_enumsOf {enum : EnumType} :
    enum ∈ enumsOf (definitionsOf options schema) ↔
      ∃ decl ∈ Schema.named schema.declarations, ∃ values, decl.kind = .enum values ∧
        enum = ⟨decl.name, identifier .typeMember decl.name, values⟩ := by
  refine mem_picked.trans (exists_congr fun decl => and_congr_right fun _ => ?_)
  cases hkind : decl.kind <;> simp [definitionOf, hkind, @eq_comm _ enum]

theorem mem_scalarsOf {scalar : ScalarType} :
    scalar ∈ scalarsOf (definitionsOf options schema) ↔
      ∃ decl ∈ Schema.named schema.declarations, decl.kind = .scalar ∧
        scalar = ⟨decl.name, options.customTarget decl.name⟩ := by
  refine mem_picked.trans (exists_congr fun decl => and_congr_right fun _ => ?_)
  cases hkind : decl.kind <;> simp [definitionOf, hkind, @eq_comm _ scalar]

/-! ## Roots -/

theorem isObject_ne_isScalar {decl : Declaration} (h : decl.isObject) : ¬decl.isScalar := by
  intro hscalar
  obtain ⟨fields, hfields⟩ := isObject_iff.mp h
  rw [isScalar_iff.mp hscalar] at hfields
  cases hfields

/-- If no name is repeated, the first declaration of a name is the only one. -/
theorem eq_of_named {decls : List Declaration}
    (hnames : ((Schema.named decls).map Declaration.name).Nodup) {d e : Declaration}
    (hd : d ∈ Schema.named decls) (he : e ∈ Schema.named decls) (h : d.name = e.name) : d = e :=
  List.inj_on_of_nodup_map hnames hd he h

/-- Among declarations that pass the first check, a root is found if it is a declared object. -/
theorem find?_isObject {name : String}
    (hbuiltins : ∀ decl ∈ schema.declarations, isBuiltinScalar decl.name → decl.isScalar)
    (hnames : ((Schema.named schema.declarations).map Declaration.name).Nodup) :
    (schema.find? name).any Declaration.isObject ↔ schema.DeclaresObject name := by
  constructor
  · intro h
    obtain ⟨decl, hfind, hobject⟩ := (Option.any_eq_true _ _).mp h
    obtain ⟨hmem, hname⟩ := Schema.find?_eq_some hfind
    exact ⟨decl, hmem, hname, hobject⟩
  · rintro ⟨decl, hmem, rfl, hobject⟩
    have hb : ¬isBuiltinScalar decl.name := fun hb =>
      isObject_ne_isScalar hobject (hbuiltins decl hmem hb)
    cases hf : schema.find? decl.name with
    | none => exact absurd rfl (Schema.find?_eq_none.mp hf decl hmem)
    | some other =>
      -- the lookup stops at the first declaration of the name, which is the only one
      obtain ⟨hother, hname⟩ := Schema.find?_eq_some hf
      have : other = decl :=
        eq_of_named hnames (mem_named.mpr ⟨hother, hname ▸ hb⟩) (mem_named.mpr ⟨hmem, hb⟩) hname
      simp [this, hobject]

/-- The roots pass their check if they are declared objects. -/
theorem checkRoots_eq_ok
    (hbuiltins : ∀ decl ∈ schema.declarations, isBuiltinScalar decl.name → decl.isScalar)
    (hnames : ((Schema.named schema.declarations).map Declaration.name).Nodup) {query : String} :
    checkRoots schema = .ok query ↔
      schema.roots.query = some query ∧ schema.DeclaresObject query ∧
        ∀ name, schema.roots.mutation = some name → schema.DeclaresObject name := by
  have hroot : ∀ (site : ReferenceSite) (name : String) (u : Unit),
      checkRoot schema site name = .ok u ↔ schema.DeclaresObject name := by
    intro site name u
    rw [← find?_isObject hbuiltins hnames, checkRoot]
    split <;> simp_all
  unfold checkRoots
  cases hq : schema.roots.query with
  | none => simp [throw, throwThe, MonadExceptOf.throw]
  | some name =>
    cases hm : schema.roots.mutation with
    | none =>
      -- a schema without a mutation root has nothing more to check
      simp only [bind_eq_ok, pure_eq_ok, hroot, Option.some.injEq]
      constructor
      · rintro ⟨_, hquery, rfl⟩
        exact ⟨rfl, hquery, by simp⟩
      · rintro ⟨rfl, hquery, -⟩
        exact ⟨(), hquery, rfl⟩
    | some mutation =>
      simp only [bind_eq_ok, pure_eq_ok, hroot, Option.some.injEq]
      constructor
      · rintro ⟨_, hquery, _, hmutation, rfl⟩
        exact ⟨rfl, hquery, fun _ h => h ▸ hmutation⟩
      · rintro ⟨rfl, hquery, hmutation⟩
        exact ⟨(), hquery, (), hmutation _ rfl, rfl⟩

/-- An object among the declarations is an object among the definitions. -/
theorem find?_objectsOf (options : Options)
    (hbuiltins : ∀ decl ∈ schema.declarations, isBuiltinScalar decl.name → decl.isScalar)
    {name : String} (h : schema.DeclaresObject name) :
    ∃ object, (objectsOf (definitionsOf options schema)).find? (·.name == name) = some object := by
  obtain ⟨decl, hmem, rfl, hobject⟩ := h
  have hnamed : decl ∈ Schema.named schema.declarations :=
    mem_named.mpr ⟨hmem, fun hb => isObject_ne_isScalar hobject (hbuiltins decl hmem hb)⟩
  obtain ⟨fields, hkind⟩ := isObject_iff.mp hobject
  have hmem : ⟨decl.name, identifier .typeMember decl.name,
      (keptFields schema fields).map (fieldOf options schema)⟩ ∈
        objectsOf (definitionsOf options schema) :=
    mem_objectsOf.mpr ⟨decl, hnamed, fields, hkind, rfl⟩
  exact Option.isSome_iff_exists.mp (List.find?_isSome.mpr ⟨_, hmem, by simp⟩)

/-- The roots are found again among the definitions. -/
theorem rootOf_definitionsOf (options : Options)
    (hbuiltins : ∀ decl ∈ schema.declarations, isBuiltinScalar decl.name → decl.isScalar)
    (site : ReferenceSite) {name : String} (h : schema.DeclaresObject name) :
    rootOf schema site (objectsOf (definitionsOf options schema)) name =
      .ok (rootNamed (objectsOf (definitionsOf options schema)) (some name)) := by
  obtain ⟨object, hfind⟩ := find?_objectsOf options hbuiltins h
  simp [rootOf, rootNamed, hfind]

/-! ## Main Results -/

namespace Schema.Acceptable

theorem check_eq_ok (h : schema.Acceptable) :
    checkDeclarations [] .types schema.declarations = .ok () :=
  checkDeclarations_eq_ok.mpr
    ⟨h.builtins, allNew_nil_left.mpr h.names, allFree_types.mpr h.identifiers⟩

theorem definitions_eq_ok (h : schema.Acceptable) (options : Options) :
    resolveDeclarations options schema schema.declarations = .ok (definitionsOf options schema) :=
  resolveDeclarations_eq_ok.mpr
    ⟨fun decl hdecl => h.fitting decl (mem_named.mp hdecl).1, rfl⟩

/-- An acceptable schema resolves to its model. -/
theorem resolve_eq (h : schema.Acceptable) (options : Options) :
    resolve options schema = .ok (modelOf options schema) := by
  obtain ⟨query, hq, hquery⟩ := h.query
  have hroots : checkRoots schema = .ok query :=
    (checkRoots_eq_ok h.builtins h.names).mpr ⟨hq, hquery, h.mutation⟩
  have hqueryRoot := rootOf_definitionsOf options h.builtins .queryRoot hquery
  -- names are compared in one direction by `resolve`, and in the other by `modelOf`
  have hcomm : ∀ object : ObjectType, (query == object.name) = (object.name == query) :=
    fun _ => BEq.comm
  cases hm : schema.roots.mutation with
  | none =>
    simp [resolve, modelOf, h.check_eq_ok, hroots, h.definitions_eq_ok options, hqueryRoot, hq, hm,
      hcomm, bind, Except.bind, pure, Except.pure, rootNamed]
  | some mutation =>
    have hmutationRoot :=
      rootOf_definitionsOf options h.builtins .mutationRoot (h.mutation mutation hm)
    simp [resolve, modelOf, h.check_eq_ok, hroots, h.definitions_eq_ok options, hqueryRoot,
      hmutationRoot, hq, hm, hcomm, bind, Except.bind, pure, Except.pure]

end Schema.Acceptable

/-- A schema is acceptable if its declarations and its roots pass their checks and its declarations
    resolve. What comes after these steps cannot fail. -/
theorem acceptable_of_steps {query : String} {definitions : List ModelDefinition}
    (hcheck : checkDeclarations [] .types schema.declarations = .ok ())
    (hroots : checkRoots schema = .ok query)
    (hdefinitions : resolveDeclarations options schema schema.declarations = .ok definitions) :
    schema.Acceptable := by
  obtain ⟨hbuiltins, hnew, hfree⟩ := checkDeclarations_eq_ok.mp hcheck
  have hnames := allNew_nil_left.mp hnew
  obtain ⟨hq, hquery, hmutation⟩ := (checkRoots_eq_ok hbuiltins hnames).mp hroots
  obtain ⟨hfitting, -⟩ := resolveDeclarations_eq_ok.mp hdefinitions
  refine ⟨hbuiltins, hnames, allFree_types.mp hfree, ⟨query, hq, hquery⟩, hmutation, ?_⟩
  intro decl hdecl
  -- declarations of built-in scalars are passed over, but have no members
  by_cases hb : isBuiltinScalar decl.name
  · exact Schema.fitting_of_isScalar (hbuiltins decl hdecl hb)
  · exact hfitting decl (mem_named.mpr ⟨hdecl, hb⟩)

/-- A schema that resolves is acceptable. -/
theorem acceptable_of_resolve {model : Model} (h : resolve options schema = .ok model) :
    schema.Acceptable := by
  unfold resolve at h
  obtain ⟨_, hcheck, h⟩ := bind_eq_ok.mp h
  obtain ⟨query, hroots, h⟩ := bind_eq_ok.mp h
  obtain ⟨_, hdefinitions, -⟩ := bind_eq_ok.mp h
  exact acceptable_of_steps hcheck hroots hdefinitions

/-- **Resolution**: a schema resolves if it is acceptable, and to `modelOf` then. -/
theorem resolve_eq_ok {model : Model} :
    resolve options schema = .ok model ↔ schema.Acceptable ∧ model = modelOf options schema := by
  constructor
  · intro h
    have hacceptable := acceptable_of_resolve h
    rw [hacceptable.resolve_eq options] at h
    exact ⟨hacceptable, (Except.ok.inj h).symm⟩
  · rintro ⟨h, rfl⟩
    exact h.resolve_eq options

/-- A schema compiles if it is acceptable, with everything that is found in it. -/
theorem compileSchema_eq_ok {compilation : Compilation} :
    compileSchema options schema = .ok compilation ↔
      schema.Acceptable ∧
        compilation = ⟨modelOf options schema, schema.findings, schema.skipped.length⟩ := by
  unfold compileSchema
  simp only [bind_eq_ok, pure_eq_ok, resolve_eq_ok]
  constructor
  · rintro ⟨_, ⟨hacceptable, rfl⟩, rfl⟩
    exact ⟨hacceptable, rfl⟩
  · rintro ⟨hacceptable, rfl⟩
    exact ⟨_, ⟨hacceptable, rfl⟩, rfl⟩

end

/-- **Exact acceptance**: a schema has a model under some options, or under any, if and only if it
    is acceptable. Once the declarations and the roots have passed their checks and the
    declarations have resolved, the roots are always found among the definitions. -/
theorem resolve_succeeds_iff_acceptable (options : Options) (schema : Schema) :
    ((∃ model, resolve options schema = .ok model) ↔ schema.Acceptable) ∧
      ∀ query definitions,
        checkDeclarations [] .types schema.declarations = .ok () →
        checkRoots schema = .ok query →
        resolveDeclarations options schema schema.declarations = .ok definitions →
        (∃ root, rootOf schema .queryRoot (objectsOf definitions) query = .ok root) ∧
          ∀ mutation, schema.roots.mutation = some mutation →
            ∃ root, rootOf schema .mutationRoot (objectsOf definitions) mutation = .ok root := by
  constructor
  · -- the model is determined, so that only the clauses are left
    simp only [resolve_eq_ok, exists_and_left, exists_eq, and_true]
  · intro query definitions hcheck hroots hdefinitions
    obtain ⟨hbuiltins, hnew, -⟩ := checkDeclarations_eq_ok.mp hcheck
    obtain ⟨-, hquery, hmutation⟩ :=
      (checkRoots_eq_ok hbuiltins (allNew_nil_left.mp hnew)).mp hroots
    obtain ⟨-, rfl⟩ := resolveDeclarations_eq_ok.mp hdefinitions
    exact ⟨⟨_, rootOf_definitionsOf options hbuiltins .queryRoot hquery⟩, fun mutation hm =>
      ⟨_, rootOf_definitionsOf options hbuiltins .mutationRoot (hmutation mutation hm)⟩⟩

end SchemaModel
