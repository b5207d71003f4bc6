import SchemaModel.Proofs.Legibility
import SchemaModel.Proofs.Roots
import SchemaModel.Proofs.Strictness

/-! # Printing and Compiling Again

    A compiled model is a fixed point of printing it and compiling the print.

    * **Definitions of a model**: the definitions that a schema comes to, in the order of the print.
    * **Restating schemas**: a schema that restates the model of another one has the content of the
      other one pruned, and compiles to the model.
    * **Fixed point**: the print of a model compiles to the model, with nothing skipped or found. -/

namespace SchemaModel

/-! ## Definitions of a Model -/

section

variable {options : Options} {schema : Schema}

/-- Definitions, ordered by their kinds. -/
theorem perm_by_kind (definitions : List ModelDefinition) :
    ((objectsOf definitions).map ModelDefinition.object ++
      (inputsOf definitions).map ModelDefinition.input ++
      (enumsOf definitions).map ModelDefinition.enum ++
      (scalarsOf definitions).map ModelDefinition.scalar).Perm definitions := by
  induction definitions with
  | nil => exact .nil
  | cons definition definitions ih =>
    refine List.Perm.trans ?_ (ih.cons definition)
    cases definition with
    | object _ => exact .refl _
    | input _ => exact (List.perm_middle.append_right _).append_right _
    | enum _ => exact List.perm_middle.append_right _
    | scalar _ => exact List.perm_middle

/-- If the roots differ, the definitions of a model are those that its schema comes to. -/
theorem definitions_modelOf_perm (h : schema.Acceptable) {mutation : String}
    (hmutation : schema.roots.mutation = some mutation)
    (hne : schema.roots.query ≠ some mutation) :
    (modelOf options schema).definitions.Perm (definitionsOf options schema) := by
  have hobjects := objectsOf_perm options h
  have hdistinct :
      ¬(schema.roots.mutation = none ∨ schema.roots.mutation = schema.roots.query) := by
    rw [hmutation]
    simpa using Ne.symm hne
  rw [if_neg hdistinct] at hobjects
  refine List.Perm.trans ?_ (perm_by_kind (definitionsOf options schema))
  have hfirst := (hobjects.map ModelDefinition.object).symm
  exact ((hfirst.append_right _).append_right _).append_right _

/-- The outline of the definition that a declaration comes to is that of the pruned declaration. -/
theorem outline_definitionOf (decl : Declaration) :
    (definitionOf options schema decl).outline = (decl.pruned schema).outline := by
  have hinput : ∀ role (value : InputValue),
      (inputOf options schema role value).outline = value.outline := by
    intro role value
    simp [inputOf, ModelInput.outline, InputValue.outline, map_name_typeOf]
  have hfield : ∀ field : Field,
      (fieldOf options schema field).outline = (field.pruned schema).outline := by
    intro field
    simp [fieldOf, ModelField.outline, Field.outline, Field.pruned, map_name_typeOf, hinput,
      Function.comp_def]
  obtain ⟨name, kind, origin⟩ := decl
  cases kind <;>
    simp [definitionOf, ModelDefinition.outline, Declaration.outline, Declaration.pruned,
      DeclarationKind.pruned, DeclarationKind.outline, hinput, hfield, Function.comp_def]

end

/-! ## Content by Outlines -/

/-- The content of a body is that of its outline. -/
theorem content?_outline (kind : DeclarationKind) : kind.outline.content? = some kind.content := by
  cases kind <;> rfl

/-- Declarations of the same outline have the same content. -/
theorem content_of_outline {decl found : Declaration} (h : decl.outline = found.outline) :
    decl.content = found.content := by
  have hname : decl.name = found.name := congrArg TypeOutline.name h
  have hkind := congrArg (TypeBody.content? ∘ TypeOutline.body) h
  simp only [Function.comp_apply, Declaration.outline, content?_outline, Option.some.injEq] at hkind
  simp [Declaration.content, hname, hkind]

/-- Declarations of the same outlines have the same contents that count. -/
theorem counted_of_outlines {decls others : List Declaration}
    (h : (decls.map Declaration.outline).Perm (others.map Declaration.outline)) :
    ((Schema.counted decls).map Declaration.content).Perm
      ((Schema.counted others).map Declaration.content) := by
  -- whether a declaration counts is a matter of its outline
  have hcounted : ∀ ds : List Declaration, (Schema.counted ds).map Declaration.content =
      ds.flatMap fun decl => if decl.isIdle then [] else [decl.content] := by
    intro ds
    induction ds with
    | nil => rfl
    | cons decl ds ih =>
      rw [List.flatMap_cons, ← ih]
      by_cases hidle : decl.isIdle <;> simp [Schema.counted, hidle]
  rw [hcounted, hcounted]
  refine perm_flatMap_of_outlines (fun decl found heq => ?_) h
  have hcontent := content_of_outline heq
  simp [Declaration.isIdle, name_of_content hcontent, isScalar_of_content hcontent, hcontent]

/-- Items that are known by their outlines are converted to the items of another list, if each of
    them is to the one of its outline. -/
theorem map_eq_of_same_outlines {α β γ : Type} {outline : α → γ} {outlineOf : β → γ} {f : α → β}
    {xs : List α} {ys : List β} (h : xs.map outline = ys.map outlineOf)
    (hf : ∀ x, ∀ y ∈ ys, outline x = outlineOf y → f x = y) : xs.map f = ys := by
  induction xs generalizing ys with
  | nil => simpa [eq_comm] using h
  | cons x xs ih =>
    cases ys with
    | nil => simp at h
    | cons y ys =>
      simp only [List.map_cons, List.cons.injEq] at h
      rw [List.map_cons, hf x y List.mem_cons_self h.1,
        ih h.2 fun x y hy => hf x y (List.mem_cons_of_mem _ hy)]

/-! ## Restating Schemas -/

section

variable {options : Options} {schema other : Schema}

/-- Declarations of the same outline come to the same definition in schemas of the same content. -/
theorem definitionOf_of_outline (h : schema.content = other.content) (hs : schema.Acceptable)
    {decl found : Declaration} (heq : decl.outline = found.outline) :
    definitionOf options schema decl = definitionOf options other found := by
  obtain ⟨name, kind, origin⟩ := decl
  obtain ⟨otherName, otherKind, otherOrigin⟩ := found
  obtain ⟨rfl, hkind⟩ : name = otherName ∧ kind.outline = otherKind.outline := by
    simpa [Declaration.outline] using heq
  cases kind <;> cases otherKind <;> simp [DeclarationKind.outline] at hkind
  · simp [definitionOf, fieldsOf_of_content h hs options hkind]
  · simp [definitionOf, inputsOf_of_content h hs options .typeMember hkind]
  · simp [definitionOf, hkind]
  · rfl

/-- A schema that comes to the definitions of a model and names its roots has this model. -/
theorem modelOf_of_definitions {model : Model}
    (hdefinitions : definitionsOf options other = model.definitions)
    (hroots : other.roots = ⟨some model.query.name, some model.mutation.name, none⟩)
    (hne : model.query.name ≠ model.mutation.name)
    (htypes : ∀ type ∈ model.types,
      type.name ≠ model.query.name ∧ type.name ≠ model.mutation.name) :
    modelOf options other = model := by
  have hobjects : objectsOf model.definitions = model.objects := by
    simp [objectsOf, Model.definitions, List.filterMap_append, List.filterMap_map]
  have hinputs : inputsOf model.definitions = model.inputs := by
    simp [inputsOf, Model.definitions, List.filterMap_append, List.filterMap_map]
  have henums : enumsOf model.definitions = model.enums := by
    simp [enumsOf, Model.definitions, List.filterMap_append, List.filterMap_map]
  have hscalars : scalarsOf model.definitions = model.scalars := by
    simp [scalarsOf, Model.definitions, List.filterMap_append, List.filterMap_map]
  -- the roots are in front of the plain types, and are no plain types
  have hplain : model.objects.filter (fun object => !(some model.query.name == some object.name ||
      some model.mutation.name == some object.name)) = model.types := by
    rw [Model.objects, List.filter_cons_of_neg (by simp), List.filter_cons_of_neg (by simp)]
    refine List.filter_eq_self.mpr fun type htype => ?_
    obtain ⟨hquery, hmutation⟩ := htypes type htype
    simp [hquery.symm, hmutation.symm]
  have hquery : rootNamed model.objects (some model.query.name) = model.query := by
    simp [rootNamed, Model.objects]
  have hmutation : rootNamed model.objects (some model.mutation.name) = model.mutation := by
    simp [rootNamed, Model.objects, hne]
  simp only [modelOf, hdefinitions, hroots, hobjects, hinputs, henums, hscalars, hplain, hquery,
    hmutation]

/-- **Same content**: a schema that restates the model of another one says what the other one says
    once it is pruned. -/
theorem content_of_restates (h : schema.Acceptable) {query mutation : String}
    (hquery : schema.roots.query = some query) (hmutation : schema.roots.mutation = some mutation)
    (hne : query ≠ mutation) (hother : other.Restates (modelOf options schema)) :
    schema.pruned.content = other.content := by
  have hdefinitions : (modelOf options schema).definitions.Perm (definitionsOf options schema) :=
    definitions_modelOf_perm h hmutation (by simpa [hquery] using hne)
  have houtlines : (schema.pruned.declarations.map Declaration.outline).Perm
      (other.declarations.map Declaration.outline) := by
    have hpruned : schema.pruned.declarations.map Declaration.outline =
        (definitionsOf options schema).map ModelDefinition.outline := by
      simp [Schema.pruned, definitionsOf, Function.comp_def, outline_definitionOf]
    rw [hpruned, hother.declarations]
    exact (hdefinitions.map ModelDefinition.outline).symm
  have hroots : schema.pruned.roots = other.roots := by
    rw [hother.roots, query_name_modelOf h hquery, mutation_name_modelOf h hmutation, ← hquery,
      ← hmutation]
    rfl
  simp only [Schema.content, hroots, hother.skipped]
  rw [Multiset.coe_eq_coe.mpr (counted_of_outlines houtlines)]
  rfl

/-- A schema that restates the model of another one comes to the definitions of the model. -/
theorem definitionsOf_of_restates (h : schema.Acceptable) {query mutation : String}
    (hquery : schema.roots.query = some query) (hmutation : schema.roots.mutation = some mutation)
    (hne : query ≠ mutation) (hother : other.Restates (modelOf options schema)) :
    definitionsOf options other = (modelOf options schema).definitions := by
  have hcontent := content_of_restates h hquery hmutation hne hother
  have hperm : (modelOf options schema).definitions.Perm (definitionsOf options schema) :=
    definitions_modelOf_perm h hmutation (by simpa [hquery] using hne)
  -- every definition of the model comes from a named declaration
  have hfrom : ∀ definition ∈ (modelOf options schema).definitions,
      ∃ decl ∈ Schema.named schema.declarations, definitionOf options schema decl = definition :=
    fun definition hmem => List.mem_map.mp (hperm.mem_iff.mp hmem)
  have hnamed : Schema.named other.declarations = other.declarations := by
    refine List.filter_eq_self.mpr fun found hfound => ?_
    have hmem : found.outline ∈ other.declarations.map Declaration.outline :=
      List.mem_map_of_mem hfound
    rw [hother.declarations] at hmem
    obtain ⟨definition, hdefinition, houtline⟩ := List.mem_map.mp hmem
    obtain ⟨decl, hdecl, rfl⟩ := hfrom definition hdefinition
    rw [outline_definitionOf] at houtline
    have hname : decl.name = found.name := congrArg TypeOutline.name houtline
    simpa [hname] using (mem_named.mp hdecl).2
  rw [definitionsOf, hnamed]
  refine map_eq_of_same_outlines hother.declarations fun found definition hdefinition heq => ?_
  obtain ⟨decl, hdecl, rfl⟩ := hfrom definition hdefinition
  rw [outline_definitionOf] at heq
  rw [← definitionOf_of_outline hcontent (acceptable_pruned h) heq.symm, definitionOf_pruned]

/-- **Restating**: a schema that restates the model of another one compiles to it. -/
theorem compileSchema_of_restates (h : schema.Acceptable) {query mutation : String}
    (hquery : schema.roots.query = some query) (hmutation : schema.roots.mutation = some mutation)
    (hne : query ≠ mutation) (hother : other.Restates (modelOf options schema)) :
    compileSchema options other = .ok ⟨modelOf options schema, [], 0⟩ := by
  have hcontent := content_of_restates h hquery hmutation hne hother
  have hacceptable : other.Acceptable := acceptable_of_content hcontent (acceptable_pruned h)
  have hsubscription : other.roots.subscription = none := by rw [hother.roots]
  have hqueryName : (modelOf options schema).query.name = query := query_name_modelOf h hquery
  have hmutationName : (modelOf options schema).mutation.name = mutation :=
    mutation_name_modelOf h hmutation
  have hmodel : modelOf options other = modelOf options schema := by
    refine modelOf_of_definitions (definitionsOf_of_restates h hquery hmutation hne hother)
      hother.roots (by rwa [hqueryName, hmutationName]) fun type htype => ?_
    -- the roots are no plain types
    have hplain := (List.mem_filter.mp htype).2
    have hplain : query ≠ type.name ∧ mutation ≠ type.name := by
      simpa [hquery, hmutation] using hplain
    rw [hqueryName, hmutationName]
    exact ⟨hplain.1.symm, hplain.2.symm⟩
  refine compileSchema_eq_ok.mpr ⟨hacceptable, ?_⟩
  rw [hmodel, findings_eq_nil hother.skipped hsubscription, hother.skipped]
  rfl

/-- The definitions of the model of a source are legible. -/
theorem legible_definitions (options : Options) {policy : Policy} {source : String}
    (hread : Sdl.read policy source = .ok schema) (h : schema.Acceptable) {mutation : String}
    (hmutation : schema.roots.mutation = some mutation)
    (hne : schema.roots.query ≠ some mutation) :
    ∀ definition ∈ (modelOf options schema).definitions, definition.outline.Legible := by
  intro definition hmem
  have hmem := (definitions_modelOf_perm h hmutation hne).mem_iff.mp hmem
  obtain ⟨decl, hdecl, rfl⟩ := List.mem_map.mp hmem
  rw [outline_definitionOf]
  exact legible_pruned (Sdl.legible_of_read hread decl (mem_named.mp hdecl).1)

end

/-! ## Main Result -/

/-- A model whose types are legible is read from its print as a schema that restates it, whatever
    the policy is. -/
theorem read_source {model : Model}
    (h : ∀ definition ∈ model.definitions, definition.outline.Legible) (policy : Policy) :
    ∃ schema, readSource .sdl policy model.source = .ok schema ∧ schema.Restates model := by
  obtain ⟨⟨document, hphrase, husages, hrestates⟩, hfault⟩ :=
    Sdl.feed_of_spells (Sdl.spells_source h) trivial
  have hrestates := hrestates (LineTable.ofText model.source.toList)
  have hread := Sdl.read_of_phrase hphrase hfault
  rw [husages] at hread
  refine ⟨_, ?_, hrestates⟩
  cases policy with
  | skip => exact hread
  | reject => exact readSource_reject_eq_ok.mpr ⟨hread, hrestates.skipped⟩

/-- **Fixed point**: if a definition text names a query root and another mutation root, the model
    that it compiles to is printed as a text that compiles to the same model, with nothing skipped
    and nothing found. -/
theorem compile_source_eq {options : Options} {source : String} {schema : Schema}
    {compilation : Compilation} {query mutation : String}
    (hread : readSource .sdl options.policy source = .ok schema)
    (hquery : schema.roots.query = some query) (hmutation : schema.roots.mutation = some mutation)
    (hne : query ≠ mutation) (hcompile : compile options .sdl source = .ok compilation) :
    compile options .sdl compilation.model.source = .ok ⟨compilation.model, [], 0⟩ := by
  obtain ⟨found, hfound, hschema⟩ := compile_eq_ok.mp hcompile
  obtain rfl : schema = found := Except.ok.inj (hread.symm.trans hfound)
  obtain ⟨hacceptable, rfl⟩ := compileSchema_eq_ok.mp hschema
  have hlegible := legible_definitions options hread hacceptable hmutation
    (by simpa [hquery] using hne)
  obtain ⟨other, hother, hrestates⟩ := read_source hlegible options.policy
  have hagain := compileSchema_of_restates hacceptable hquery hmutation hne hrestates
  exact compile_eq_ok.mpr ⟨other, hother, hagain⟩

/-- Defaults of several kinds, a field and an argument of a skipped type, a core directive, and
    roots that are named in a schema block. -/
def kioskText : String :=
  "union Any=Sale type Kiosk\x7bany:Any type(at:[Kind]=[type],any:Any):Int!\x7d enum Kind\x7btype\x7d " ++
    "type Sale\x7bbuy(note:ID=\"\"\"a\"b\"\"\"):Kind@deprecated\x7d schema\x7bquery:Kiosk mutation:Sale\x7d"

theorem compile_source_eq_kioskText :
    ∃ compilation, compile .standard .sdl kioskText = .ok compilation ∧ compilation.skipped = 1 ∧
      compile .standard .sdl compilation.model.source = .ok ⟨compilation.model, [], 0⟩ := by
  have hrun : ((readSource .sdl .skip kioskText).toOption.bind fun schema =>
      (compileSchema .standard schema).toOption.map fun compilation =>
        (schema.roots, compilation.skipped)) = some (⟨some "Kiosk", some "Sale", none⟩, 1) := by
    decide +kernel
  obtain ⟨schema, hread, hrun⟩ := Option.bind_eq_some_iff.mp hrun
  obtain ⟨compilation, hcompile, hresult⟩ := Option.map_eq_some_iff.mp hrun
  obtain ⟨hroots, hskipped⟩ := Prod.mk.inj hresult
  have hread : readSource .sdl Options.standard.policy kioskText = .ok schema :=
    toOption_eq_some.mp hread
  have hcompile : compile .standard .sdl kioskText = .ok compilation :=
    compile_eq_ok.mpr ⟨schema, hread, toOption_eq_some.mp hcompile⟩
  exact ⟨compilation, hcompile, hskipped, compile_source_eq hread
    (congrArg RootNames.query hroots) (congrArg RootNames.mutation hroots) (by decide) hcompile⟩

end SchemaModel
