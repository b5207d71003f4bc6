import SchemaModel.Proofs.Definitions

/-! # Conservation

    Nothing of a schema is lost, invented or reordered on its way into a model.

    * **Sifts**: the members of a type, one after the other. A member of a skipped type is dropped
      with a report, and any other one is kept.
    * **CarriesOver** and **Walks**: the same for a declaration and for all of them.
    * **Place**: where a definition stands in a model.
    * **Conserves**: the definitions that the declarations come to are all that a model holds, and
      what is reported on the way is all that is found. -/

namespace SchemaModel

/-! ## Members -/

section

variable (schema : Schema)

/-- **Sifting**: what becomes of the members of a type, and what is reported about them. `keeps`
    relates a member to what it is kept as and to what is reported about its parts. -/
inductive Sifts {α β : Type} (typeRef : α → TypeRef String) (report : α → Diagnostic)
    (keeps : α → β → List Diagnostic → Prop) : List α → List β → List Diagnostic → Prop
  | nil : Sifts typeRef report keeps [] [] []
  | kept {member : α} {result : β} {members : List α} {results : List β}
      {about findings : List Diagnostic} :
      (typeRef member).base ∉ schema.skippedTypes → keeps member result about →
      Sifts typeRef report keeps members results findings →
      Sifts typeRef report keeps (member :: members) (result :: results) (about ++ findings)
  | dropped {member : α} {members : List α} {results : List β} {findings : List Diagnostic} :
      (typeRef member).base ∈ schema.skippedTypes →
      Sifts typeRef report keeps members results findings →
      Sifts typeRef report keeps (member :: members) results (report member :: findings)

/-- An argument or input field is kept with its name, its type and its default value. -/
structure KeepsInput (value : InputValue) (result : ModelInput) (findings : List Diagnostic) :
    Prop where
  name : result.name = value.name
  /-- The names at the leaves are those that were written. -/
  type : result.type.map NamedRef.name = value.type
  defaultValue : result.defaultValue = value.defaultValue
  quiet : findings = []

/-- Sifted arguments or input fields, each of which lies at a path. -/
def SiftsInputs (code noun : String) (path : InputValue → String) :
    List InputValue → List ModelInput → List Diagnostic → Prop :=
  Sifts schema InputValue.type
    (fun value => .warningAt code
      ("dropped " ++ noun ++ " `" ++ path value ++ "` of skipped type `" ++ value.type.base ++ "`")
      value.origin)
    KeepsInput

/-- A field is kept with its name and its type, and its arguments are sifted. -/
structure KeepsField (owner : String) (field : Field) (result : ModelField)
    (findings : List Diagnostic) : Prop where
  name : result.name = field.name
  type : result.type.map NamedRef.name = field.type
  args : SiftsInputs schema "W0003" "argument"
    (fun arg => owner ++ "." ++ field.name ++ "(" ++ arg.name ++ ")") field.args result.args findings

/-- Sifted fields of an object type. -/
def SiftsFields (owner : String) : List Field → List ModelField → List Diagnostic → Prop :=
  Sifts schema Field.type
    (fun field => .warningAt "W0002"
      ("dropped field `" ++ (owner ++ "." ++ field.name) ++ "` of skipped type `" ++
        field.type.base ++ "`")
      field.origin)
    (KeepsField schema owner)

/-! ## Declarations -/

/-- **Carrying over**: the definition that a declaration comes to, and what is reported about its
    members. -/
inductive CarriesOver (decl : Declaration) : ModelDefinition → List Diagnostic → Prop
  | object {fields : List Field} {object : ObjectType} {findings : List Diagnostic} :
      decl.kind = .object fields → object.name = decl.name →
      SiftsFields schema decl.name fields object.fields findings →
      CarriesOver decl (.object object) findings
  | input {fields : List InputValue} {input : InputType} {findings : List Diagnostic} :
      decl.kind = .input fields → input.name = decl.name →
      SiftsInputs schema "W0002" "input field" (fun field => decl.name ++ "." ++ field.name) fields
        input.fields findings →
      CarriesOver decl (.input input) findings
  | enum {enum : EnumType} :
      decl.kind = .enum enum.values → enum.name = decl.name → CarriesOver decl (.enum enum) []
  | scalar {scalar : ScalarType} :
      decl.kind = .scalar → scalar.name = decl.name → CarriesOver decl (.scalar scalar) []

/-- **Walking**: declarations in the order of the source. Only built-in scalars are passed over. -/
inductive Walks : List Declaration → List ModelDefinition → List Diagnostic → Prop
  | nil : Walks [] [] []
  | builtin {decl : Declaration} {decls : List Declaration} {definitions : List ModelDefinition}
      {findings : List Diagnostic} :
      isBuiltinScalar decl.name → decl.kind = .scalar → Walks decls definitions findings →
      Walks (decl :: decls) definitions findings
  | named {decl : Declaration} {decls : List Declaration} {definition : ModelDefinition}
      {definitions : List ModelDefinition} {about findings : List Diagnostic} :
      ¬isBuiltinScalar decl.name → CarriesOver schema decl definition about →
      Walks decls definitions findings →
      Walks (decl :: decls) (definition :: definitions) (about ++ findings)

end

/-! ## Places -/

/-- The places in a model at which definitions stand. -/
inductive Place where
  | query
  | mutation
  | types
  | inputs
  | enums
  | scalars
  deriving Repr, DecidableEq

namespace ModelDefinition

/-- The places at which a definition belongs, given the roots of the schema. It is a single one
    unless one object is both roots. -/
def places (roots : RootNames) : ModelDefinition → List Place
  | .object type =>
    if roots.query = some type.name then
      if roots.mutation = some type.name then [.query, .mutation] else [.query]
    else if roots.mutation = some type.name then [.mutation]
    else [.types]
  | .input _ => [.inputs]
  | .enum _ => [.enums]
  | .scalar _ => [.scalars]

end ModelDefinition

/-- The definitions that stand at a place. A mutation root that the schema does not name is left
    out. -/
def Model.at (model : Model) (roots : RootNames) : Place → List ModelDefinition
  | .query => [.object model.query]
  | .mutation => (roots.mutation.map fun _ => .object model.mutation).toList
  | .types => model.types.map .object
  | .inputs => model.inputs.map .input
  | .enums => model.enums.map .enum
  | .scalars => model.scalars.map .scalar

/-- **Conservation**: how a model with its findings goes together with the declarations of a schema,
    the definitions that they come to, and what is reported about their members. -/
structure Conserves (schema : Schema) (model : Model) (findings : List Diagnostic)
    (definitions : List ModelDefinition) (report : List Diagnostic) : Prop where
  walks : Walks schema schema.declarations definitions report
  /-- No two definitions share a name. -/
  distinct : (definitions.map ModelDefinition.name).Nodup
  /-- At each place stand the definitions that belong there, in the order of their declarations, and
      nothing else. -/
  placed : ∀ place, model.at schema.roots place =
    definitions.filter fun definition => place ∈ definition.places schema.roots
  /-- A mutation root that the schema does not name is empty. -/
  synthesized : schema.roots.mutation = none → model.mutation = ⟨"Mutation", "Mutation", []⟩
  /-- Skipped constructs are reported first, then the subscription root, then dropped members. -/
  findings : findings = schema.skipped.map Diagnostic.ofSkipped ++
    (schema.roots.subscription.map fun name => (⟨.info, "I0001",
      "subscription root `" ++ name ++ "` is compiled as a plain object type",
      [⟨schema.rootsOrigin, "declared here"⟩]⟩ : Diagnostic)).toList ++ report

/-! ## Sifting -/

section

variable {options : Options} {schema : Schema}

/-- Members are sifted by filtering out those of skipped types, if what becomes of a kept one and
    what is reported about it can be computed. -/
theorem sifts_filter {α β : Type} {typeRef : α → TypeRef String} {report : α → Diagnostic}
    {keeps : α → β → List Diagnostic → Prop} {f : α → β} {about : α → List Diagnostic}
    (h : ∀ member, keeps member (f member) (about member)) (members : List α) :
    Sifts schema typeRef report keeps members
      ((members.filter fun member => !isDropped schema (typeRef member)).map f)
      (members.flatMap fun member =>
        if isDropped schema (typeRef member) then [report member] else about member) := by
  induction members with
  | nil => exact .nil
  | cons member members ih =>
    by_cases hd : isDropped schema (typeRef member)
    · have hmem : (typeRef member).base ∈ schema.skippedTypes := by simpa [isDropped] using hd
      simpa [List.flatMap_cons, hd] using ih.dropped hmem
    · have hmem : (typeRef member).base ∉ schema.skippedTypes := by simpa [isDropped] using hd
      simpa [List.flatMap_cons, hd] using ih.kept hmem (h member)

/-- Resolving a type keeps its names. -/
theorem map_name_typeOf (type : TypeRef String) :
    (typeOf options schema type).map NamedRef.name = type := by
  have hname : ∀ name, (referenceTo options schema name).name = name := by
    intro name
    unfold referenceTo
    split
    · rfl
    · split <;> rfl
  unfold typeOf
  induction type with
  | named leaf => exact congrArg TypeRef.named (hname leaf)
  | list item ih => exact congrArg TypeRef.list ih
  | nonNull item ih => exact congrArg TypeRef.nonNull ih

theorem keepsInput_inputOf (role : IdentifierRole) (value : InputValue) :
    KeepsInput value (inputOf options schema role value) [] :=
  ⟨rfl, map_name_typeOf value.type, rfl, rfl⟩

/-- Kept arguments or input fields are sifted ones, with their findings. -/
theorem siftsInputs_keptInputs (role : IdentifierRole) (code noun : String)
    (path : InputValue → String) (values : List InputValue) :
    SiftsInputs schema code noun path values
      ((keptInputs schema values).map (inputOf options schema role))
      (values.flatMap fun value => schema.inputFindings code noun (path value) value) :=
  sifts_filter (keepsInput_inputOf role) values

theorem keepsField_fieldOf (owner : String) (field : Field) :
    KeepsField schema owner field (fieldOf options schema field)
      (field.args.flatMap fun arg => schema.inputFindings Diagnostic.droppedArgument "argument"
        (owner ++ "." ++ field.name ++ "(" ++ arg.name ++ ")") arg) :=
  ⟨rfl, map_name_typeOf field.type, siftsInputs_keptInputs .localVariable _ _ _ field.args⟩

/-- Kept fields are sifted ones, with their findings. -/
theorem siftsFields_keptFields (owner : String) (fields : List Field) :
    SiftsFields schema owner fields ((keptFields schema fields).map (fieldOf options schema))
      (fields.flatMap (schema.fieldFindings owner)) :=
  sifts_filter (keepsField_fieldOf owner) fields

/-! ## Walking -/

theorem carriesOver_definitionOf (decl : Declaration) :
    CarriesOver schema decl (definitionOf options schema decl) (schema.declarationFindings decl) := by
  unfold definitionOf Schema.declarationFindings
  cases hkind : decl.kind with
  | object fields => exact .object hkind rfl (siftsFields_keptFields decl.name fields)
  | input fields => exact .input hkind rfl (siftsInputs_keptInputs .typeMember _ _ _ fields)
  | enum values => exact .enum hkind rfl
  | scalar => exact .scalar hkind rfl

theorem walks_named {decls : List Declaration}
    (hbuiltins : ∀ decl ∈ decls, isBuiltinScalar decl.name → decl.isScalar) :
    Walks schema decls ((Schema.named decls).map (definitionOf options schema))
      (decls.flatMap schema.declarationFindings) := by
  induction decls with
  | nil => exact .nil
  | cons decl decls ih =>
    obtain ⟨hbuiltin, hothers⟩ := List.forall_mem_cons.mp hbuiltins
    rw [List.flatMap_cons]
    by_cases hb : isBuiltinScalar decl.name
    · -- nothing is reported about a scalar
      have hkind : decl.kind = .scalar := isScalar_iff.mp (hbuiltin hb)
      have hnamed : Schema.named (decl :: decls) = Schema.named decls := by
        simp [Schema.named, hb]
      have hquiet : schema.declarationFindings decl = [] := by
        simp [Schema.declarationFindings, hkind]
      rw [hnamed, hquiet]
      exact .builtin hb hkind (ih hothers)
    · have hnamed : Schema.named (decl :: decls) = decl :: Schema.named decls := by
        simp [Schema.named, hb]
      rw [hnamed, List.map_cons]
      exact .named hb (carriesOver_definitionOf decl) (ih hothers)

/-! ## Placing -/

/-- What is picked from definitions, if it has to pass a test, are the definitions that belong to a
    place, in their order, if those are the ones of the kind that pass the test. -/
theorem Picks.map_filter {α : Type} {pick : ModelDefinition → Option α}
    {wrap : α → ModelDefinition} (h : Picks pick wrap) {test : α → Bool} {place : Place}
    {roots : RootNames}
    (hplace : ∀ definition, place ∈ definition.places roots ↔ ∃ x, definition = wrap x ∧ test x)
    (definitions : List ModelDefinition) :
    ((definitions.filterMap pick).filter test).map wrap =
      definitions.filter fun definition => place ∈ definition.places roots := by
  -- both sides keep a definition, or neither does
  induction definitions with
  | nil => rfl
  | cons definition definitions ih =>
    rw [List.filterMap_cons, List.filter_cons, ← ih]
    cases hpick : pick definition with
    | none =>
      have hnot : place ∉ definition.places roots := by
        rintro hmem
        obtain ⟨x, rfl, -⟩ := (hplace definition).mp hmem
        simp [(h _ x).mpr rfl] at hpick
      simp [hnot]
    | some x =>
      obtain rfl := (h definition x).mp hpick
      have htest : place ∈ (wrap x).places roots ↔ test x := by
        rw [hplace]
        constructor
        · rintro ⟨y, hy, htest⟩
          rwa [h.injective hy]
        · exact fun htest => ⟨x, rfl, htest⟩
      by_cases hx : test x <;> simp [htest, hx]

/-- Without a test, all that is picked belongs to the place. -/
theorem Picks.map_all {α : Type} {pick : ModelDefinition → Option α}
    {wrap : α → ModelDefinition} (h : Picks pick wrap) {place : Place} {roots : RootNames}
    (hplace : ∀ definition, place ∈ definition.places roots ↔ ∃ x, definition = wrap x)
    (definitions : List ModelDefinition) :
    (definitions.filterMap pick).map wrap =
      definitions.filter fun definition => place ∈ definition.places roots := by
  have htest : ∀ definition, place ∈ definition.places roots ↔ ∃ x, definition = wrap x ∧ true := by
    simpa using hplace
  rw [← h.map_filter htest, List.filter_true]

/-- What belongs to each place. -/
theorem mem_places {place : Place} {definition : ModelDefinition} {roots : RootNames} :
    place ∈ definition.places roots ↔
      match place with
      | .query => ∃ object, definition = .object object ∧ roots.query = some object.name
      | .mutation => ∃ object, definition = .object object ∧ roots.mutation = some object.name
      | .types => ∃ object, definition = .object object ∧ roots.query ≠ some object.name ∧
          roots.mutation ≠ some object.name
      | .inputs => ∃ input, definition = .input input
      | .enums => ∃ enum, definition = .enum enum
      | .scalars => ∃ scalar, definition = .scalar scalar := by
  cases definition with
  | object object =>
    simp only [ModelDefinition.places]
    split_ifs <;> cases place <;> simp_all
  | input _ | enum _ | scalar _ => cases place <;> simp [ModelDefinition.places]

section

variable (h : schema.Acceptable)

include h

/-- At each place of a model stand the definitions that belong there. -/
theorem at_modelOf (place : Place) :
    (modelOf options schema).at schema.roots place =
      (definitionsOf options schema).filter fun definition =>
        place ∈ definition.places schema.roots := by
  cases place with
  | query =>
    obtain ⟨query, hq, hquery⟩ := h.query
    have hplace : ∀ definition : ModelDefinition, .query ∈ definition.places schema.roots ↔
        ∃ object, definition = .object object ∧ object.name == query := by
      simp [mem_places, hq, @eq_comm _ query]
    have hroot := congrArg (List.map ModelDefinition.object) (filter_eq_rootNamed options h hquery)
    simpa [Model.at, modelOf, hq] using hroot.symm.trans (picks_object.map_filter hplace _)
  | mutation =>
    cases hm : schema.roots.mutation with
    | none =>
      -- nothing belongs to a root that is not named
      simp [Model.at, mem_places, hm]
    | some mutation =>
      have hplace : ∀ definition : ModelDefinition, .mutation ∈ definition.places schema.roots ↔
          ∃ object, definition = .object object ∧ object.name == mutation := by
        simp [mem_places, hm, @eq_comm _ mutation]
      have hroot := congrArg (List.map ModelDefinition.object)
        (filter_eq_rootNamed options h (h.mutation mutation hm))
      simpa [Model.at, modelOf, hm] using hroot.symm.trans (picks_object.map_filter hplace _)
  | types =>
    exact picks_object.map_filter (by simp [mem_places]) _
  | inputs => exact picks_input.map_all (by simp [mem_places]) _
  | enums => exact picks_enum.map_all (by simp [mem_places]) _
  | scalars => exact picks_scalar.map_all (by simp [mem_places]) _

end

end

/-! ## Main Result -/

/-- **Conservation**: a schema that compiles is carried over into its model declaration by
    declaration, and everything that is left out on the way is reported. -/
theorem compileSchema_conserves {options : Options} {schema : Schema} {compilation : Compilation}
    (h : compileSchema options schema = .ok compilation) :
    ∃ definitions report,
      Conserves schema compilation.model compilation.findings definitions report := by
  obtain ⟨hacceptable, rfl⟩ := compileSchema_eq_ok.mp h
  refine ⟨definitionsOf options schema, schema.declarations.flatMap schema.declarationFindings,
    walks_named hacceptable.builtins, nodup_names_definitionsOf hacceptable,
    at_modelOf hacceptable, ?_, ?_⟩
  · intro hm
    simp [modelOf, hm, rootNamed, emptyMutation]
  · show schema.findings = _
    unfold Schema.findings Schema.subscriptionFindings
    cases schema.roots.subscription <;> rfl

/-- A schema with a skipped interface, to which a field and two arguments refer, one of them that of
    the field. -/
def feedSchema : Schema where
  declarations := [
    ⟨"Int", .scalar, .sdl ⟨1, 1⟩⟩,
    ⟨"Query", .object [
      ⟨"page", .nonNull (.named "Int"), [⟨"after", .named "Node", none, .sdl ⟨3, 8⟩⟩,
        ⟨"size", .named "Int", some (.int "20"), .sdl ⟨3, 20⟩⟩], .sdl ⟨3, 3⟩⟩,
      ⟨"node", .list (.named "Node"), [⟨"like", .named "Node", none, .sdl ⟨4, 8⟩⟩],
        .sdl ⟨4, 3⟩⟩], .sdl ⟨2, 1⟩⟩,
    ⟨"Feed", .object [⟨"count", .named "Int", [], .sdl ⟨7, 3⟩⟩], .sdl ⟨6, 1⟩⟩]
  roots := ⟨some "Query", none, some "Feed"⟩
  rootsOrigin := .sdl ⟨9, 1⟩
  skipped := [⟨.interface, "Node", .sdl ⟨10, 1⟩⟩]

theorem compileSchema_conserves_feedSchema :
    ∃ compilation, compileSchema .standard feedSchema = .ok compilation ∧
      compilation.findings.map (fun finding => (finding.code, finding.title)) =
        [("W0001", "skipped interface `Node`"),
         ("I0001", "subscription root `Feed` is compiled as a plain object type"),
         ("W0003", "dropped argument `Query.page(after)` of skipped type `Node`"),
         ("W0002", "dropped field `Query.node` of skipped type `Node`")] ∧
      ∃ definitions report,
        Conserves feedSchema compilation.model compilation.findings definitions report :=
  ⟨_, rfl, rfl, compileSchema_conserves rfl⟩

end SchemaModel
