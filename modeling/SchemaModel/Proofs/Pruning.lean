import SchemaModel.Proofs.Acceptance

/-! # Pruned Schemas

    What is left of a schema once everything is taken out of it that its model has no room for.

    * **pruned**: the named declarations with their kept members, and the query and mutation roots.
      Nothing is skipped any more.
    * **Pruning changes no definition**: a declaration comes to the same definition when it is
      pruned, and what is left of an acceptable schema is acceptable. -/

namespace SchemaModel

/-! ## Pruning -/

section

variable (schema : Schema)

/-- The field with its kept arguments. -/
def Field.pruned (field : Field) : Field :=
  { field with args := keptInputs schema field.args }

/-- The body of a declaration with its kept members. -/
def DeclarationKind.pruned : DeclarationKind → DeclarationKind
  | .object fields => .object ((keptFields schema fields).map (Field.pruned schema))
  | .input fields => .input (keptInputs schema fields)
  | .enum values => .enum values
  | .scalar => .scalar

/-- The declaration with its kept members. -/
def Declaration.pruned (decl : Declaration) : Declaration :=
  { decl with kind := decl.kind.pruned schema }

/-- The schema with its named declarations and their kept members, its query and mutation roots, and
    nothing that is skipped. -/
def Schema.pruned : Schema where
  declarations := (Schema.named schema.declarations).map (Declaration.pruned schema)
  roots := { schema.roots with subscription := none }
  rootsOrigin := schema.rootsOrigin
  skipped := []

end

/-! ## Schemas without Skipped Constructs -/

section

variable {schema : Schema} (h : schema.skipped = [])

include h

/-- Without skipped types no reference is dropped. -/
theorem isDropped_eq_false (type : TypeRef String) : isDropped schema type = false := by
  simp [isDropped, Schema.skippedTypes, h]

theorem keptInputs_eq_self (values : List InputValue) : keptInputs schema values = values := by
  simp [keptInputs, isDropped_eq_false h]

theorem keptFields_eq_self (fields : List Field) : keptFields schema fields = fields := by
  simp [keptFields, isDropped_eq_false h]

/-- Nothing is found in a schema without skipped constructs and without a subscription root. -/
theorem findings_eq_nil (hsubscription : schema.roots.subscription = none) :
    schema.findings = [] := by
  have hinput : ∀ code noun path value, schema.inputFindings code noun path value = [] := by
    intro code noun path value
    simp [Schema.inputFindings, isDropped_eq_false h]
  have hdeclaration : ∀ decl, schema.declarationFindings decl = [] := by
    intro decl
    unfold Schema.declarationFindings
    cases decl.kind <;> simp [Schema.fieldFindings, hinput, isDropped_eq_false h]
  simp [Schema.findings, Schema.subscriptionFindings, h, hsubscription, hdeclaration]

end

/-! ## Names in a Pruned Schema -/

section

variable {options : Options} {schema : Schema}

@[simp] theorem namedKind_pruned (kind : DeclarationKind) :
    (kind.pruned schema).namedKind = kind.namedKind := by
  cases kind <;> rfl

@[simp] theorem isScalar_pruned (decl : Declaration) :
    (decl.pruned schema).isScalar = decl.isScalar := by
  rw [Bool.eq_iff_iff, ← namedKind_eq_scalar, ← namedKind_eq_scalar]
  simp [Declaration.pruned]

@[simp] theorem isObject_pruned (decl : Declaration) :
    (decl.pruned schema).isObject = decl.isObject := by
  rw [Bool.eq_iff_iff, ← namedKind_eq_object, ← namedKind_eq_object]
  simp [Declaration.pruned]

@[simp] theorem name_pruned (decl : Declaration) : (decl.pruned schema).name = decl.name := rfl

/-- No declaration of a pruned schema is that of a built-in scalar. -/
theorem named_pruned : Schema.named schema.pruned.declarations = schema.pruned.declarations := by
  refine List.filter_eq_self.mpr fun decl hdecl => ?_
  obtain ⟨other, hother, rfl⟩ := List.mem_map.mp hdecl
  simpa using (mem_named.mp hother).2

/-- A name that is not built in is declared by the pruned declaration. -/
theorem find?_pruned {name : String} (hb : ¬isBuiltinScalar name) :
    schema.pruned.find? name = (schema.find? name).map (Declaration.pruned schema) := by
  have hnamed : (Schema.named schema.declarations).find? (·.name == name) =
      schema.declarations.find? (·.name == name) := by
    rw [Schema.named, List.find?_filter]
    congr
    funext decl
    by_cases hname : decl.name = name
    · simp [hname, hb]
    · simp [hname]
  rw [Schema.find?, Schema.pruned, List.find?_map]
  exact congrArg (Option.map (Declaration.pruned schema)) hnamed

@[simp] theorem referenceTo_pruned (name : String) :
    referenceTo options schema.pruned name = referenceTo options schema name := by
  unfold referenceTo
  by_cases hb : isBuiltinScalar name
  · rw [if_pos hb, if_pos hb]
  · have hkind : schema.pruned.kindOf name = schema.kindOf name := by
      rw [Schema.kindOf, find?_pruned hb, Schema.kindOf]
      cases schema.find? name <;> simp [Declaration.pruned]
    rw [if_neg hb, if_neg hb, hkind]

theorem known_pruned {name : String} (h : schema.Known name) : schema.pruned.Known name := by
  by_cases hb : isBuiltinScalar name
  · exact .inl hb
  · obtain ⟨decl, hdecl, rfl⟩ := h.resolve_left hb
    exact .inr ⟨decl.pruned schema, List.mem_map_of_mem (mem_named.mpr ⟨hdecl, hb⟩), rfl⟩

theorem declaresObject_pruned (h : schema.Acceptable) {name : String}
    (hname : schema.DeclaresObject name) : schema.pruned.DeclaresObject name := by
  obtain ⟨decl, hdecl, rfl, hobject⟩ := hname
  have hb : ¬isBuiltinScalar decl.name := fun hb =>
    isObject_ne_isScalar hobject (h.builtins decl hdecl hb)
  refine ⟨decl.pruned schema, List.mem_map_of_mem (mem_named.mpr ⟨hdecl, hb⟩), rfl, ?_⟩
  rwa [isObject_pruned]

/-! ## The Definitions of a Pruned Schema -/

@[simp] theorem inputOf_pruned (role : IdentifierRole) (value : InputValue) :
    inputOf options schema.pruned role value = inputOf options schema role value := by
  simp [inputOf, typeOf]

theorem fieldOf_pruned (field : Field) :
    fieldOf options schema.pruned (field.pruned schema) = fieldOf options schema field := by
  simp [fieldOf, Field.pruned, typeOf, keptInputs_eq_self (rfl : schema.pruned.skipped = [])]

/-- Pruning changes no definition. -/
theorem definitionOf_pruned (decl : Declaration) :
    definitionOf options schema.pruned (decl.pruned schema) = definitionOf options schema decl := by
  obtain ⟨name, kind, origin⟩ := decl
  have hinputs := keptInputs_eq_self (rfl : schema.pruned.skipped = [])
  have hfields := keptFields_eq_self (rfl : schema.pruned.skipped = [])
  cases kind <;>
    simp [definitionOf, Declaration.pruned, DeclarationKind.pruned, hinputs, hfields,
      Function.comp_def, fieldOf_pruned]

/-! ## Acceptance of a Pruned Schema -/

/-- Kept arguments or input fields fit in the pruned schema. -/
theorem fittingInputs_pruned {role : IdentifierRole} {values : List InputValue}
    (h : schema.FittingInputs role values) :
    schema.pruned.FittingInputs role (keptInputs schema values) := by
  refine ⟨?_, ?_⟩ <;> rw [keptInputs_eq_self rfl]
  · exact h.distinct
  · exact fun value hvalue => known_pruned (h.known value hvalue)

/-- Kept fields with their kept arguments fit in the pruned schema. -/
theorem fittingFields_pruned {fields : List Field} (h : schema.FittingFields fields) :
    schema.pruned.FittingFields ((keptFields schema fields).map (Field.pruned schema)) := by
  refine ⟨?_, ?_, ?_⟩ <;> rw [keptFields_eq_self rfl]
  · simpa [Function.comp_def, Field.pruned] using h.distinct
  · intro field hfield
    obtain ⟨other, hother, rfl⟩ := List.mem_map.mp hfield
    exact known_pruned (h.known other hother)
  · intro field hfield
    obtain ⟨other, hother, rfl⟩ := List.mem_map.mp hfield
    exact fittingInputs_pruned (h.args other hother)

/-- What is left of a fitting body is fitting. -/
theorem fitting_pruned {kind : DeclarationKind} (h : schema.Fitting kind) :
    schema.pruned.Fitting (kind.pruned schema) := by
  cases kind with
  | object fields => exact fittingFields_pruned h
  | input fields => exact fittingInputs_pruned h
  | enum values => exact h
  | scalar => trivial

/-- A pruned schema is acceptable if the schema is. -/
theorem acceptable_pruned (h : schema.Acceptable) : schema.pruned.Acceptable := by
  obtain ⟨query, hq, hquery⟩ := h.query
  refine ⟨?_, ?_, ?_, ⟨query, hq, declaresObject_pruned h hquery⟩, ?_, ?_⟩
  · -- all declarations that are left are named
    intro decl hdecl hb
    rw [← named_pruned] at hdecl
    exact absurd hb (mem_named.mp hdecl).2
  · rw [named_pruned]
    simpa [Schema.pruned, Function.comp_def] using h.names
  · rw [Schema.identified, named_pruned]
    simpa [Schema.pruned, Schema.identified, List.filter_map, Function.comp_def] using h.identifiers
  · exact fun name hname => declaresObject_pruned h (h.mutation name hname)
  · intro decl hdecl
    obtain ⟨other, hother, rfl⟩ := List.mem_map.mp hdecl
    exact fitting_pruned (h.fitting other (mem_named.mp hother).1)

end

end SchemaModel
