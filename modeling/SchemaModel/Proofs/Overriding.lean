import Mathlib.Data.List.Basic
import SchemaModel.Compilation

/-! # Overrides

    An override changes what its own name stands for in the generated code, and nothing else.

    * **retarget**: a model in which one name stands for another type of the generated code, in
      every reference to it and in the scalar of that name.
    * **Frames**: each step of a resolution does the same under one more override, but for the
      targets in its result. A step that fails does so with the same failure.
    * **compileSchema_withOverride**: a schema compiles under one more override to the retargeted
      model. -/

namespace SchemaModel

/-! ## Retargeting -/

section

variable (name : String) (target : ScalarTarget)

/-- The reference, with another target if it is to the given name. -/
def NamedRef.retarget (ref : NamedRef) : NamedRef :=
  if ref.name = name then { ref with target := target } else ref

/-- The argument or input field with its reference retargeted, under whatever wrappings. -/
def ModelInput.retarget (input : ModelInput) : ModelInput :=
  { input with type := input.type.map (NamedRef.retarget name target) }

/-- The field with its own reference and those of its arguments retargeted. -/
def ModelField.retarget (field : ModelField) : ModelField :=
  { field with
    type := field.type.map (NamedRef.retarget name target)
    args := field.args.map (ModelInput.retarget name target) }

def ObjectType.retarget (object : ObjectType) : ObjectType :=
  { object with fields := object.fields.map (ModelField.retarget name target) }

def InputType.retarget (input : InputType) : InputType :=
  { input with fields := input.fields.map (ModelInput.retarget name target) }

/-- The scalar, with another target if it has the given name. -/
def ScalarType.retarget (scalar : ScalarType) : ScalarType :=
  if scalar.name = name then { scalar with target := target } else scalar

/-- The definition with its references retargeted. Enums refer to nothing. -/
def ModelDefinition.retarget : ModelDefinition → ModelDefinition
  | .object type => .object (type.retarget name target)
  | .input type => .input (type.retarget name target)
  | .enum type => .enum type
  | .scalar type => .scalar (type.retarget name target)

/-- **Retargeting**: the model in which a name stands for another type of the generated code. -/
def Model.retarget (model : Model) : Model :=
  { model with
    types := model.types.map (ObjectType.retarget name target)
    inputs := model.inputs.map (InputType.retarget name target)
    scalars := model.scalars.map (ScalarType.retarget name target)
    query := model.query.retarget name target
    mutation := model.mutation.retarget name target }

/-- The compilation with its model retargeted. -/
def Compilation.retarget (compilation : Compilation) : Compilation :=
  { compilation with model := compilation.model.retarget name target }

end

/-! ## Targets -/

/-- A key that has been set is looked up as its value, and any other key as before. -/
theorem lookup_setEntry {α : Type} (key : String) (value : α) (entries : List (String × α))
    (other : String) :
    (setEntry key value entries).lookup other =
      if other = key then some value else entries.lookup other := by
  -- comparing keys as the lookup does is comparing them
  have hcons : ∀ (first : String) (old : α) (rest : List (String × α)),
      ((first, old) :: rest).lookup other =
        if other = first then some old else rest.lookup other := by
    intro first old rest
    by_cases h : other = first
    · simp [h]
    · simp [List.lookup_cons, beq_false_of_ne h, h]
  induction entries with
  | nil => rw [setEntry, hcons]
  | cons entry entries ih =>
    obtain ⟨first, old⟩ := entry
    unfold setEntry
    by_cases hfirst : first = key
    · -- the entry keeps its place
      rw [if_pos hfirst, hcons, hcons, hfirst]
      by_cases h : other = key <;> simp [h]
    · rw [if_neg hfirst, hcons, hcons, ih]
      by_cases h : other = first
      · simp [h, hfirst]
      · simp [h]

namespace Options

variable (options : Options) (name text : String)

theorem override?_withOverride (other : String) :
    (options.withOverride name text).override? other =
      if other = name then some (.ofText text) else options.override? other :=
  lookup_setEntry name _ options.overrides other

/-- An override comes before the table, so that it decides alone. -/
theorem listed?_withOverride (other : String) :
    (options.withOverride name text).listed? other =
      if other = name then some (.ofText text) else options.listed? other := by
  unfold listed?
  rw [override?_withOverride]
  by_cases h : other = name
  · rw [if_pos h, if_pos h, Option.some_or]
  · rw [if_neg h, if_neg h]
    rfl

theorem builtinTarget_withOverride (other : String) :
    (options.withOverride name text).builtinTarget other =
      if other = name then .ofText text else options.builtinTarget other := by
  unfold builtinTarget
  rw [listed?_withOverride]
  by_cases h : other = name <;> simp [h]

theorem customTarget_withOverride (other : String) :
    (options.withOverride name text).customTarget other =
      if other = name then .ofText text else options.customTarget other := by
  unfold customTarget
  rw [listed?_withOverride]
  by_cases h : other = name
  · simp [h]
  · simp only [if_neg h]
    rfl

end Options

/-! ## Members -/

/-- To convert a leaf and change it is to change the converted type. -/
theorem TypeRef.mapM_map {α β γ ε : Type} (f : α → Except ε β) (g : β → γ) (type : TypeRef α) :
    type.mapM (fun leaf => g <$> f leaf) = TypeRef.map g <$> type.mapM f := by
  induction type with
  | named leaf =>
    simp only [TypeRef.mapM]
    cases f leaf <;> rfl
  | list item ih | nonNull item ih =>
    simp only [TypeRef.mapM, ih]
    cases item.mapM f <;> rfl

/-- A member that is changed once it is resolved. -/
def Claimant.map {α β : Type} (f : α → β) (member : Claimant α) : Claimant β where
  name := member.name
  origin := member.origin
  resolve ident := f <$> member.resolve ident

/-- The claims of members do not depend on what the members become. -/
theorem resolveMembers_map {α β : Type} (f : α → β) (role : IdentifierRole) (scope : Scope)
    (members : List (Claimant α)) :
    resolveMembers role scope (members.map (Claimant.map f)) =
      List.map f <$> resolveMembers role scope members := by
  induction members generalizing scope with
  | nil => rfl
  | cons member members ih =>
    simp only [List.map_cons, resolveMembers, Claimant.map, map_bind, bind_map_left, ih, map_pure]

section

variable (options : Options) (schema : Schema) (name text : String)

/-- **Names**: the reference that a name stands for, whether the name is that of a built-in scalar,
    of a custom scalar or of another type. -/
theorem resolveName_withOverride (site : ReferenceSite) (origin : Origin) (other : String) :
    resolveName (options.withOverride name text) schema site origin other =
      NamedRef.retarget name (.ofText text) <$> resolveName options schema site origin other := by
  unfold resolveName
  by_cases hb : isBuiltinScalar other
  · rw [if_pos hb, if_pos hb, Options.builtinTarget_withOverride]
    by_cases h : other = name <;> simp [h, NamedRef.retarget, Functor.map, Except.map]
  · rw [if_neg hb, if_neg hb]
    cases schema.find? other with
    | none => rfl
    | some decl =>
      by_cases hs : decl.isScalar
      · simp only [if_pos hs, Options.customTarget_withOverride]
        by_cases h : other = name <;> simp [h, NamedRef.retarget, Functor.map, Except.map]
      · simp only [if_neg hs, Options.override?_withOverride]
        by_cases h : other = name <;> simp [h, NamedRef.retarget, Functor.map, Except.map]

theorem resolveType_withOverride (site : ReferenceSite) (origin : Origin)
    (type : TypeRef String) :
    resolveType (options.withOverride name text) schema site origin type =
      TypeRef.map (NamedRef.retarget name (.ofText text)) <$>
        resolveType options schema site origin type := by
  unfold resolveType
  rw [← TypeRef.mapM_map]
  congr
  funext other
  exact resolveName_withOverride options schema name text site origin other

theorem inputClaimant_withOverride (site : String → ReferenceSite) (value : InputValue) :
    inputClaimant (options.withOverride name text) schema site value =
      (inputClaimant options schema site value).map
        (ModelInput.retarget name (.ofText text)) := by
  unfold inputClaimant Claimant.map
  simp only [resolveType_withOverride, bind_map_left, map_bind, map_pure]
  rfl

/-- Arguments and input fields. -/
theorem resolveInputs_withOverride (role : IdentifierRole) (scope : Scope)
    (site : String → ReferenceSite) (values : List InputValue) :
    resolveMembers role scope
        (values.map (inputClaimant (options.withOverride name text) schema site)) =
      List.map (ModelInput.retarget name (.ofText text)) <$>
        resolveMembers role scope (values.map (inputClaimant options schema site)) := by
  rw [← resolveMembers_map, List.map_map]
  congr
  funext value
  exact inputClaimant_withOverride options schema name text site value

theorem fieldClaimant_withOverride (owner : String) (field : Field) :
    fieldClaimant (options.withOverride name text) schema owner field =
      (fieldClaimant options schema owner field).map
        (ModelField.retarget name (.ofText text)) := by
  unfold fieldClaimant Claimant.map resolveArgs
  simp only [resolveType_withOverride, resolveInputs_withOverride, bind_map_left, map_bind,
    map_pure]
  rfl

theorem resolveFields_withOverride (scope : Scope) (owner : String) (fields : List Field) :
    resolveMembers .typeMember scope
        (fields.map (fieldClaimant (options.withOverride name text) schema owner)) =
      List.map (ModelField.retarget name (.ofText text)) <$>
        resolveMembers .typeMember scope (fields.map (fieldClaimant options schema owner)) := by
  rw [← resolveMembers_map, List.map_map]
  congr
  funext field
  exact fieldClaimant_withOverride options schema name text owner field

/-! ## Definitions -/

theorem resolveDeclaration_withOverride (decl : Declaration) :
    resolveDeclaration (options.withOverride name text) schema decl =
      ModelDefinition.retarget name (.ofText text) <$>
        resolveDeclaration options schema decl := by
  unfold resolveDeclaration
  cases decl.kind with
  | object fields =>
    simp only [resolveFields_withOverride, bind_map_left, map_bind, map_pure]
    rfl
  | input fields =>
    simp only [resolveInputs_withOverride, bind_map_left, map_bind, map_pure]
    rfl
  | enum values =>
    simp only [map_bind, map_pure]
    rfl
  | scalar =>
    simp only [Options.customTarget_withOverride, map_pure]
    by_cases h : decl.name = name <;> simp [h, ModelDefinition.retarget, ScalarType.retarget]

/-- **Declarations**: they resolve one after the other, and stop at the same failure. -/
theorem resolveDeclarations_withOverride (decls : List Declaration) :
    resolveDeclarations (options.withOverride name text) schema decls =
      List.map (ModelDefinition.retarget name (.ofText text)) <$>
        resolveDeclarations options schema decls := by
  induction decls with
  | nil => rfl
  | cons decl decls ih =>
    unfold resolveDeclarations
    by_cases hb : isBuiltinScalar decl.name
    · rw [if_pos hb, if_pos hb, ih]
    · rw [if_neg hb, if_neg hb]
      simp only [resolveDeclaration_withOverride, ih, bind_map_left, map_bind, map_pure,
        List.map_cons]

end

/-! ## Models -/

section

variable (schema : Schema) (name : String) (target : ScalarTarget)

/-- What is picked from retargeted definitions is retargeted, if each definition is. -/
theorem filterMap_retarget {α : Type} {pick : ModelDefinition → Option α} {f : α → α}
    (h : ∀ definition : ModelDefinition,
      pick (definition.retarget name target) = (pick definition).map f)
    (definitions : List ModelDefinition) :
    (definitions.map (ModelDefinition.retarget name target)).filterMap pick =
      (definitions.filterMap pick).map f := by
  rw [List.filterMap_map, List.map_filterMap]
  exact List.filterMap_congr fun definition _ => h definition

theorem objectsOf_retarget (definitions : List ModelDefinition) :
    objectsOf (definitions.map (ModelDefinition.retarget name target)) =
      (objectsOf definitions).map (ObjectType.retarget name target) :=
  filterMap_retarget name target (fun definition => by cases definition <;> rfl) definitions

theorem inputsOf_retarget (definitions : List ModelDefinition) :
    inputsOf (definitions.map (ModelDefinition.retarget name target)) =
      (inputsOf definitions).map (InputType.retarget name target) :=
  filterMap_retarget name target (fun definition => by cases definition <;> rfl) definitions

theorem scalarsOf_retarget (definitions : List ModelDefinition) :
    scalarsOf (definitions.map (ModelDefinition.retarget name target)) =
      (scalarsOf definitions).map (ScalarType.retarget name target) :=
  filterMap_retarget name target (fun definition => by cases definition <;> rfl) definitions

theorem enumsOf_retarget (definitions : List ModelDefinition) :
    enumsOf (definitions.map (ModelDefinition.retarget name target)) = enumsOf definitions := by
  have hid : (enumsOf definitions).map id = enumsOf definitions := List.map_id _
  rw [← hid]
  exact filterMap_retarget name target (fun definition => by cases definition <;> rfl) definitions

/-- Objects keep their names, so that the roots are the same ones. -/
theorem rootOf_retarget (site : ReferenceSite) (objects : List ObjectType) (root : String) :
    rootOf schema site (objects.map (ObjectType.retarget name target)) root =
      ObjectType.retarget name target <$> rootOf schema site objects root := by
  unfold rootOf
  have hname : ((fun object : ObjectType => object.name == root) ∘
      ObjectType.retarget name target) = fun object => object.name == root := rfl
  rw [List.find?_map, hname]
  cases objects.find? (·.name == root) <;> rfl

end

/-- **Resolution**: one more override retargets the model. -/
theorem resolve_withOverride (options : Options) (schema : Schema) (name text : String) :
    resolve (options.withOverride name text) schema =
      Model.retarget name (.ofText text) <$> resolve options schema := by
  unfold resolve
  simp only [map_bind, resolveDeclarations_withOverride, bind_map_left]
  refine bind_congr fun _ => bind_congr fun query => bind_congr fun definitions => ?_
  simp only [objectsOf_retarget, inputsOf_retarget, enumsOf_retarget, scalarsOf_retarget,
    rootOf_retarget, bind_map_left]
  refine bind_congr fun queryRoot => ?_
  -- whether an object is a root is a matter of its name
  simp only [List.filter_map]
  cases schema.roots.mutation with
  | none => rfl
  | some mutation =>
    simp only [map_bind]
    rfl

/-! ## Main Result -/

/-- **Frame of an override**: under one more override a schema compiles as it did without it, to the
    model in which the name stands for the given target, and with the same findings. A schema that
    fails to compile fails in the same way. -/
theorem compileSchema_withOverride (options : Options) (schema : Schema) (name text : String) :
    compileSchema (options.withOverride name text) schema =
      (compileSchema options schema).map (Compilation.retarget name (.ofText text)) := by
  show _ = Compilation.retarget name (.ofText text) <$> compileSchema options schema
  unfold compileSchema
  rw [resolve_withOverride]
  simp only [bind_map_left, map_bind, map_pure]
  rfl

end SchemaModel
