import SchemaModel.Proofs.Conservation
import SchemaModel.Proofs.Meaning
import SchemaModel.Proofs.TypeIdentifiers

/-! # Roots

    What becomes of the root types that a schema names.

    * **ResolvesRoot**: the root of an operation is a declared object type, and the model has it in
      the place that the operation calls for.
    * **resolvesRoot_iff**: query and mutation roots always resolve. A subscription root is looked
      at by nobody, so that it resolves if it happens to be a declared object type. -/

namespace SchemaModel

/-- The names that the root of an operation may have in a model. A subscription root has no place of
    its own, but may be any object. -/
def Model.rootNames (model : Model) : RootOperation → List String
  | .query => [model.query.name]
  | .mutation => [model.mutation.name]
  | .subscription => model.objects.map ObjectType.name

/-- **Resolved roots**: the name is that of a declared object type, and of the root of the operation
    in the model. -/
structure ResolvesRoot (schema : Schema) (model : Model) (operation : RootOperation)
    (name : String) : Prop where
  declared : schema.DeclaresObject name
  placed : name ∈ model.rootNames operation

section

variable {options : Options} {schema : Schema}

/-! ## Names of Roots -/

/-- The query root of a model has the name that its schema gives it. -/
theorem query_name_modelOf (h : schema.Acceptable) {query : String}
    (hquery : schema.roots.query = some query) : (modelOf options schema).query.name = query := by
  obtain ⟨name, hname, hobject⟩ := h.query
  obtain rfl : name = query := Option.some.inj (hname.symm.trans hquery)
  simp only [modelOf, hquery]
  exact (rootNamed_mem options h hobject).2

/-- The mutation root of a model has the name that its schema gives it. -/
theorem mutation_name_modelOf (h : schema.Acceptable) {mutation : String}
    (hmutation : schema.roots.mutation = some mutation) :
    (modelOf options schema).mutation.name = mutation := by
  simp only [modelOf, hmutation]
  exact (rootNamed_mem options h (h.mutation mutation hmutation)).2

/-- A declared object type is one of the objects of the model. -/
theorem mem_names_of_declaresObject (h : schema.Acceptable) {name : String}
    (hname : schema.DeclaresObject name) :
    name ∈ (modelOf options schema).objects.map ObjectType.name := by
  obtain ⟨hmem, hroot⟩ := rootNamed_mem options h hname
  have hobject := (mem_objects_modelOf h).mpr (.inl hmem)
  exact List.mem_map.mpr ⟨_, hobject, hroot⟩

/-! ## Operation by Operation -/

/-- The check of the roots has found the query root. -/
theorem resolvesRoot_query (h : schema.Acceptable) {query : String}
    (hquery : schema.roots.query = some query) :
    ResolvesRoot schema (modelOf options schema) .query query := by
  constructor
  · obtain ⟨name, hname, hobject⟩ := h.query
    obtain rfl : name = query := Option.some.inj (hname.symm.trans hquery)
    exact hobject
  · simp [Model.rootNames, query_name_modelOf h hquery]

/-- The check of the roots has found the mutation root, if there is one. -/
theorem resolvesRoot_mutation (h : schema.Acceptable) {mutation : String}
    (hmutation : schema.roots.mutation = some mutation) :
    ResolvesRoot schema (modelOf options schema) .mutation mutation := by
  constructor
  · exact h.mutation mutation hmutation
  · simp [Model.rootNames, mutation_name_modelOf h hmutation]

/-- No check looks for a subscription root. -/
theorem resolvesRoot_subscription_iff (h : schema.Acceptable) {name : String} :
    ResolvesRoot schema (modelOf options schema) .subscription name ↔
      schema.DeclaresObject name := by
  constructor
  · intro hresolves
    exact hresolves.declared
  · intro hdeclared
    exact ⟨hdeclared, mem_names_of_declaresObject h hdeclared⟩

/-! ## Main Result -/

/-- **Roots resolve but for subscriptions**: a root that a schema names is a declared object type in
    its place in the model, unless it is a subscription root that is no declared object type. In
    either case a subscription root is reported as an object type. -/
theorem resolvesRoot_iff {compilation : Compilation}
    (h : compileSchema options schema = .ok compilation) {operation : RootOperation}
    {name : String} (hname : schema.roots.get? operation = some name) :
    (ResolvesRoot schema compilation.model operation name ↔
        (operation = .subscription → schema.DeclaresObject name)) ∧
      (operation = .subscription →
        ⟨.info, "I0001", "subscription root `" ++ name ++ "` is compiled as a plain object type",
          [⟨schema.rootsOrigin, "declared here"⟩]⟩ ∈ compilation.findings) := by
  obtain ⟨hacceptable, rfl⟩ := compileSchema_eq_ok.mp h
  cases operation with
  | query => exact ⟨iff_of_true (resolvesRoot_query hacceptable hname) nofun, nofun⟩
  | mutation => exact ⟨iff_of_true (resolvesRoot_mutation hacceptable hname) nofun, nofun⟩
  | subscription =>
    have hsubscription : schema.roots.subscription = some name := hname
    constructor
    · rw [resolvesRoot_subscription_iff hacceptable]
      exact ⟨fun hdeclared _ => hdeclared, fun hdeclared => hdeclared rfl⟩
    · intro _
      simp [Schema.findings, Schema.subscriptionFindings, hsubscription,
        Diagnostic.plainSubscription]

end

theorem resolvesRoot_iff_feedSchema :
    ∃ compilation, compileSchema .standard feedSchema = .ok compilation ∧
      feedSchema.roots.get? .subscription = some "Feed" ∧
      ResolvesRoot feedSchema compilation.model .subscription "Feed" := by
  have hdeclared : feedSchema.DeclaresObject "Feed" :=
    ⟨⟨"Feed", .object [⟨"count", .named "Int", [], .sdl ⟨7, 3⟩⟩], .sdl ⟨6, 1⟩⟩, by decide, rfl, rfl⟩
  exact ⟨_, rfl, rfl, (resolvesRoot_iff rfl rfl).1.mpr fun _ => hdeclared⟩

/-- A schema that names a subscription root, but does not declare it. -/
def strayFeedSchema : Schema where
  declarations := [⟨"Query", .object [⟨"a", .named "Int", [], .sdl ⟨1, 14⟩⟩], .sdl ⟨1, 1⟩⟩]
  roots := ⟨some "Query", none, some "Feed"⟩
  rootsOrigin := .sdl ⟨2, 1⟩
  skipped := []

/-- The schema compiles, and its subscription root is reported as an object type that there is
    none of. -/
theorem strayFeedSchema_unresolved :
    ∃ compilation, compileSchema .standard strayFeedSchema = .ok compilation ∧
      strayFeedSchema.roots.get? .subscription = some "Feed" ∧
      compilation.findings.map Diagnostic.title =
        ["subscription root `Feed` is compiled as a plain object type"] ∧
      ¬ResolvesRoot strayFeedSchema compilation.model .subscription "Feed" := by
  refine ⟨_, rfl, rfl, rfl, ?_⟩
  rintro ⟨⟨decl, hdecl, hname, -⟩, -⟩
  -- the query root is all that is declared
  obtain rfl := List.mem_singleton.mp hdecl
  exact absurd hname (by decide)

end SchemaModel
