import SchemaModel.Proofs.Definitions

/-! # References

    Every type reference of a model leads to a definition in it.

    * **Objects**: each object of a model comes from a declaration, the empty mutation root apart.
    * **Defines**: what a reference of some kind may lead to.
    * **ClosedReference**: what holds of a reference in a model: it is not to a skipped type, its
      kind is that of its definition, and it stands for the type of the generated code that the
      definition stands for. -/

namespace SchemaModel

variable {options : Options} {schema : Schema}

/-! ## Objects of a Model -/

/-- If no name is repeated, a declaration is found by its name. -/
theorem find?_of_named (h : schema.Acceptable) {decl : Declaration}
    (hdecl : decl ∈ Schema.named schema.declarations) : schema.find? decl.name = some decl := by
  obtain ⟨hmem, hb⟩ := mem_named.mp hdecl
  cases hf : schema.find? decl.name with
  | none => exact absurd rfl (Schema.find?_eq_none.mp hf decl hmem)
  | some other =>
    obtain ⟨hother, hname⟩ := Schema.find?_eq_some hf
    rw [eq_of_named h.names (mem_named.mpr ⟨hother, hname ▸ hb⟩) hdecl hname]

/-- **Objects of a model**: those that are declared, and the empty mutation root in place of a
    mutation root that is not named. -/
theorem mem_objects_modelOf (h : schema.Acceptable) {object : ObjectType} :
    object ∈ (modelOf options schema).objects ↔
      object ∈ objectsOf (definitionsOf options schema) ∨
        schema.roots.mutation = none ∧ object = emptyMutation := by
  obtain ⟨query, hq, hquery⟩ := h.query
  obtain ⟨queryObject, hqueryFind⟩ := find?_objectsOf options h.builtins hquery
  have hqueryMem := List.mem_of_find?_eq_some hqueryFind
  simp only [Model.objects, modelOf, List.mem_cons, List.mem_filter]
  constructor
  · rintro (rfl | rfl | ⟨hmem, -⟩)
    · simp [rootNamed, hq, hqueryFind, hqueryMem]
    · -- the mutation root is declared if it is named, and empty otherwise
      cases hm : schema.roots.mutation with
      | none => simp [rootNamed]
      | some mutation =>
        obtain ⟨found, hfind⟩ := find?_objectsOf options h.builtins (h.mutation mutation hm)
        simp [rootNamed, hfind, List.mem_of_find?_eq_some hfind]
    · exact .inl hmem
  · rintro (hmem | ⟨hm, rfl⟩)
    · -- an object that is no root is among the other types
      have hfind := find?_of_mem_objectsOf h hmem
      by_cases hqueryName : schema.roots.query = some object.name
      · simp [rootNamed, hqueryName, hfind]
      · by_cases hmutationName : schema.roots.mutation = some object.name
        · simp [rootNamed, hmutationName, hfind]
        · simp [hmem, hqueryName, hmutationName]
    · simp [rootNamed, hm]

/-! ## Where References Come From -/

theorem mem_keptInputs {values : List InputValue} {value : InputValue} :
    value ∈ keptInputs schema values ↔
      value ∈ values ∧ value.type.base ∉ schema.skippedTypes := by
  simp [keptInputs, isDropped]

theorem mem_keptFields {fields : List Field} {field : Field} :
    field ∈ keptFields schema fields ↔
      field ∈ fields ∧ field.type.base ∉ schema.skippedTypes := by
  simp [keptFields, isDropped]

/-- The type references in a declaration: those of its fields and of their arguments. -/
def DeclarationKind.typeRefs : DeclarationKind → List (TypeRef String)
  | .object fields => fields.flatMap fun field => field.type :: field.args.map InputValue.type
  | .input fields => fields.map InputValue.type
  | .enum _ | .scalar => []

/-- The type references in the declarations of a schema. -/
def Schema.typeRefs (schema : Schema) : List (TypeRef String) :=
  schema.declarations.flatMap fun decl => decl.kind.typeRefs

/-- A declared type whose base is known and not skipped. -/
structure Usable (schema : Schema) (type : TypeRef String) : Prop where
  known : schema.Known type.base
  kept : type.base ∉ schema.skippedTypes

/-- Every reference of a model is that of a type in the schema that is usable. -/
theorem declared_of_mem_references (h : schema.Acceptable) {entry : Model.Reference}
    (hentry : entry ∈ (modelOf options schema).references) :
    ∃ type ∈ schema.typeRefs, Usable schema type ∧ entry.2 = typeOf options schema type := by
  have hwritten : ∀ {decl : Declaration}, decl ∈ Schema.named schema.declarations →
      ∀ type ∈ decl.kind.typeRefs, type ∈ schema.typeRefs := by
    intro decl hdecl type htype
    exact List.mem_flatMap.mpr ⟨decl, (mem_named.mp hdecl).1, htype⟩
  simp only [Model.references, List.mem_append, List.mem_flatMap] at hentry
  rcases hentry with ⟨object, hobject, field, hfield, hreference⟩ | ⟨input, hinput, hreference⟩
  · rcases (mem_objects_modelOf h).mp hobject with hdeclared | ⟨-, rfl⟩
    · obtain ⟨decl, hdecl, fields, hkind, rfl⟩ := mem_objectsOf.mp hdeclared
      obtain ⟨field, hkept, rfl⟩ := List.mem_map.mp hfield
      have hfit : schema.FittingFields fields := by
        simpa [hkind, Schema.Fitting] using h.fitting decl (mem_named.mp hdecl).1
      simp only [Model.fieldReferences, fieldOf, List.mem_cons, List.map_map,
        List.mem_map] at hreference
      -- the reference is that of the field itself or of one of its arguments
      obtain ⟨hmem, hbase⟩ := mem_keptFields.mp hkept
      rcases hreference with rfl | ⟨arg, harg, rfl⟩
      · refine ⟨field.type, hwritten hdecl _ ?_, ⟨hfit.known field hkept, hbase⟩, rfl⟩
        rw [hkind]
        exact List.mem_flatMap.mpr ⟨field, hmem, List.mem_cons_self⟩
      · obtain ⟨hargMem, hargBase⟩ := mem_keptInputs.mp harg
        refine ⟨arg.type, hwritten hdecl _ ?_, ⟨(hfit.args field hkept).known arg harg, hargBase⟩,
          rfl⟩
        rw [hkind]
        exact List.mem_flatMap.mpr
          ⟨field, hmem, List.mem_cons_of_mem _ (List.mem_map_of_mem hargMem)⟩
    · -- the empty mutation root has no fields
      simp [emptyMutation] at hfield
  · obtain ⟨decl, hdecl, fields, hkind, rfl⟩ := mem_inputsOf.mp hinput
    simp only [List.map_map, List.mem_map] at hreference
    obtain ⟨value, hvalue, rfl⟩ := hreference
    have hfit : schema.FittingInputs .typeMember fields := by
      simpa [hkind, Schema.Fitting] using h.fitting decl (mem_named.mp hdecl).1
    obtain ⟨hmem, hbase⟩ := mem_keptInputs.mp hvalue
    refine ⟨value.type, hwritten hdecl _ ?_, ⟨hfit.known value hvalue, hbase⟩, rfl⟩
    rw [hkind]
    exact List.mem_map_of_mem hmem

/-- So every reference of a model is that of a usable type. -/
theorem usable_of_mem_references (h : schema.Acceptable) {entry : Model.Reference}
    (hentry : entry ∈ (modelOf options schema).references) :
    ∃ type, Usable schema type ∧ entry.2 = typeOf options schema type := by
  obtain ⟨type, -, husable, htype⟩ := declared_of_mem_references h hentry
  exact ⟨type, husable, htype⟩

/-! ## What References Lead to -/

/-- **Defines**: the model has a type of the given name that a reference of the given kind leads
    to. Scalars may be built in. -/
inductive Model.Defines (model : Model) : NamedKind → String → Prop
  | builtin {name : String} : isBuiltinScalar name → model.Defines .scalar name
  | scalar {scalar : ScalarType} : scalar ∈ model.scalars → model.Defines .scalar scalar.name
  | object {object : ObjectType} : object ∈ model.objects → model.Defines .object object.name
  | input {input : InputType} : input ∈ model.inputs → model.Defines .input input.name
  | enum {enum : EnumType} : enum ∈ model.enums → model.Defines .enum enum.name

/-- **Identifies**: the model has a type of the given kind and name with the given identifier. -/
inductive Model.Identifies (model : Model) : NamedKind → String → String → Prop
  | object {object : ObjectType} :
    object ∈ model.objects → model.Identifies .object object.name object.identifier
  | input {input : InputType} :
    input ∈ model.inputs → model.Identifies .input input.name input.identifier
  | enum {enum : EnumType} :
    enum ∈ model.enums → model.Identifies .enum enum.name enum.identifier

/-- **Closed references**: what holds of every reference in the model of a schema. -/
structure ClosedReference (options : Options) (schema : Schema) (model : Model)
    (ref : NamedRef) : Prop where
  /-- It is not to a type that was left out. -/
  kept : ref.name ∉ schema.skippedTypes
  /-- Its name is that of a type. -/
  contained : model.containsType ref.name
  /-- Its kind is that of the definition of its name. -/
  defined : model.Defines ref.kind ref.name
  /-- It has the target of the scalar that it names, unless that is built in. -/
  scalarTarget : ∀ scalar ∈ model.scalars, scalar.name = ref.name → ref.target = scalar.target
  /-- It has the identifier of the type that it names, unless that is overridden. -/
  identified : options.override? ref.name = none →
    ∀ ident, model.Identifies ref.kind ref.name ident → ref.target = ⟨ident, false⟩

theorem Model.Defines.containsType {model : Model} {kind : NamedKind} {name : String}
    (h : model.Defines kind name) : model.containsType name := by
  unfold Model.containsType
  cases h with
  | builtin hb => simp [hb]
  | scalar hmem | object hmem | input hmem | enum hmem =>
    simp only [Bool.or_eq_true, List.any_eq_true, beq_iff_eq]
    grind

/-- All types with an identifier have that of their name. -/
theorem Model.Identifies.eq_identifier (h : schema.Acceptable) {kind : NamedKind}
    {name ident : String} (hident : (modelOf options schema).Identifies kind name ident) :
    kind ≠ .scalar ∧ ident = identifier .typeMember name := by
  cases hident with
  | object hmem =>
    rcases (mem_objects_modelOf h).mp hmem with hdeclared | ⟨-, rfl⟩
    · obtain ⟨decl, -, fields, -, rfl⟩ := mem_objectsOf.mp hdeclared
      exact ⟨nofun, rfl⟩
    · exact ⟨nofun, by decide⟩
  | input hmem =>
    obtain ⟨decl, -, fields, -, rfl⟩ := mem_inputsOf.mp hmem
    exact ⟨nofun, rfl⟩
  | enum hmem =>
    obtain ⟨decl, -, values, -, rfl⟩ := mem_enumsOf.mp hmem
    exact ⟨nofun, rfl⟩

/-- The reference to a declared name has the kind and the target of its declaration. -/
theorem referenceTo_of_named (h : schema.Acceptable) {decl : Declaration}
    (hdecl : decl ∈ Schema.named schema.declarations) :
    referenceTo options schema decl.name =
      ⟨decl.name, decl.kind.namedKind,
        if decl.isScalar then options.customTarget decl.name
        else (options.override? decl.name).getD ⟨identifier .typeMember decl.name, false⟩⟩ := by
  have hkind : schema.kindOf decl.name = decl.kind.namedKind := by
    simp [Schema.kindOf, find?_of_named h hdecl]
  rw [referenceTo, if_neg (mem_named.mp hdecl).2, hkind]
  cases hk : decl.kind <;> simp [DeclarationKind.namedKind, Declaration.isScalar, hk]

/-- A declared name is defined in the model under the kind of its declaration. -/
theorem defines_of_named (h : schema.Acceptable) {decl : Declaration}
    (hdecl : decl ∈ Schema.named schema.declarations) :
    (modelOf options schema).Defines decl.kind.namedKind decl.name := by
  cases hkind : decl.kind with
  | object fields =>
    have hmem : _ ∈ objectsOf (definitionsOf options schema) :=
      mem_objectsOf.mpr ⟨decl, hdecl, fields, hkind, rfl⟩
    exact .object ((mem_objects_modelOf h).mpr (.inl hmem))
  | input fields =>
    have hmem : _ ∈ (modelOf options schema).inputs :=
      mem_inputsOf.mpr ⟨decl, hdecl, fields, hkind, rfl⟩
    exact .input hmem
  | enum values =>
    have hmem : _ ∈ (modelOf options schema).enums :=
      mem_enumsOf.mpr ⟨decl, hdecl, values, hkind, rfl⟩
    exact .enum hmem
  | scalar =>
    have hmem : _ ∈ (modelOf options schema).scalars :=
      mem_scalarsOf.mpr ⟨decl, hdecl, hkind, rfl⟩
    exact .scalar hmem

/-- The reference that a usable type stands for is closed. -/
theorem closedReference_of_usable (h : schema.Acceptable) {type : TypeRef String}
    (htype : Usable schema type) :
    ClosedReference options schema (modelOf options schema)
      (referenceTo options schema type.base) := by
  by_cases hb : isBuiltinScalar type.base
  · have href : referenceTo options schema type.base =
        ⟨type.base, .scalar, options.builtinTarget type.base⟩ := by
      simp [referenceTo, hb]
    rw [href]
    refine ⟨htype.kept, (Model.Defines.builtin hb).containsType, .builtin hb, ?_, ?_⟩
    · -- declared scalars are not built in
      intro scalar hscalar hname
      obtain ⟨decl, hdecl, -, rfl⟩ := mem_scalarsOf.mp hscalar
      have hname : decl.name = type.base := hname
      exact absurd (hname ▸ hb) (mem_named.mp hdecl).2
    · -- no scalar has an identifier
      intro _ ident hident
      exact absurd rfl (Model.Identifies.eq_identifier h hident).1
  · obtain ⟨decl, hmem, hname⟩ := htype.known.resolve_left hb
    have hdecl : decl ∈ Schema.named schema.declarations := mem_named.mpr ⟨hmem, hname ▸ hb⟩
    have hdefines : (modelOf options schema).Defines _ _ := defines_of_named h hdecl
    rw [← hname, referenceTo_of_named h hdecl]
    refine ⟨hname ▸ htype.kept, hdefines.containsType, hdefines, ?_, ?_⟩
    · -- the scalar is the very declaration that the reference names
      intro scalar hscalar hscalarName
      obtain ⟨other, hother, hkind, rfl⟩ := mem_scalarsOf.mp hscalar
      obtain rfl := eq_of_named h.names hother hdecl hscalarName
      simp [Declaration.isScalar, hkind]
    · -- without an override the target is the identifier of the name
      intro hoverride ident hident
      obtain ⟨hkind, rfl⟩ := Model.Identifies.eq_identifier h hident
      have hs : ¬decl.isScalar := fun hs => hkind (namedKind_eq_scalar.mpr hs)
      rw [if_neg hs, hoverride]
      rfl

/-! ## Main Result -/

/-- **Closed references**: in the model of a schema, every reference is to a type of the model that
    was not skipped, has the kind of its definition, and stands for what its definition stands for
    in the generated code. -/
theorem references_closed {model : Model} (h : resolve options schema = .ok model) :
    ∀ place type, (place, type) ∈ model.references →
      ClosedReference options schema model type.base := by
  obtain ⟨hacceptable, rfl⟩ := resolve_eq_ok.mp h
  intro place type hentry
  obtain ⟨declared, husable, htype⟩ := usable_of_mem_references hacceptable hentry
  obtain rfl : type = typeOf options schema declared := htype
  rw [typeOf, TypeRef.base_map]
  exact closedReference_of_usable hacceptable husable

/-- A schema with a custom scalar, an enum, an input type and a field of a skipped interface. -/
def clockSchema : Schema where
  declarations := [
    ⟨"Query", .object [
      ⟨"now", .nonNull (.named "Time"), [⟨"in", .list (.named "Zone"), none, .sdl ⟨2, 7⟩⟩],
        .sdl ⟨2, 3⟩⟩,
      ⟨"between", .named "Int", [⟨"span", .named "Span", none, .sdl ⟨3, 11⟩⟩], .sdl ⟨3, 3⟩⟩,
      ⟨"node", .named "Node", [], .sdl ⟨4, 3⟩⟩], .sdl ⟨1, 1⟩⟩,
    ⟨"Time", .scalar, .sdl ⟨6, 1⟩⟩,
    ⟨"Zone", .enum ["UTC", "TAI"], .sdl ⟨7, 1⟩⟩,
    ⟨"Span", .input [⟨"from", .named "Time", some (.string "0"), .sdl ⟨8, 14⟩⟩], .sdl ⟨8, 1⟩⟩]
  roots := ⟨some "Query", none, none⟩
  rootsOrigin := .sdl ⟨1, 1⟩
  skipped := [⟨.interface, "Node", .sdl ⟨9, 1⟩⟩]

theorem references_closed_clockSchema :
    resolve .standard clockSchema = .ok (modelOf .standard clockSchema) ∧
      (modelOf .standard clockSchema).references.map Prod.fst =
        ["Query.now", "Query.now(in)", "Query.between", "Query.between(span)", "Span.from"] ∧
      ∀ place type, (place, type) ∈ (modelOf .standard clockSchema).references →
        ClosedReference .standard clockSchema (modelOf .standard clockSchema) type.base :=
  ⟨rfl, by decide, references_closed rfl⟩

end SchemaModel
