import SchemaModel.Proofs.Contents

/-! # Reordered Schemas

    The order in which a source declares its types has no bearing on their model.

    * **Shuffles**: a declaration with the values of an enum in another order. Fields and arguments
      stay where they are.
    * **Reorders**: a schema with its declarations shuffled and permuted, and its skipped constructs
      permuted.
    * **Same findings**: what is reported about a reordered schema, the places included, is what is
      reported about the schema, in another order.
    * **compileSchema_reordered**: a schema compiles if a reordered one does, to an equivalent
      model. -/

namespace SchemaModel

/-! ## Reordering -/

/-- **Shuffled bodies**: the same body, with the values of an enum in another order. -/
inductive DeclarationKind.Shuffles : DeclarationKind → DeclarationKind → Prop
  | same (kind : DeclarationKind) : kind.Shuffles kind
  | enum {values others : List String} :
    values.Perm others → Shuffles (.enum values) (.enum others)

/-- **Shuffled declarations**: the same name at the same place, with a shuffled body. -/
structure Declaration.Shuffles (decl other : Declaration) : Prop where
  name : decl.name = other.name
  kind : decl.kind.Shuffles other.kind
  origin : decl.origin = other.origin

/-- **Reordered schemas**: the declarations are shuffled and come in another order, and so do the
    skipped constructs. -/
structure Reorders (schema other : Schema) : Prop where
  declarations : ∃ shuffled,
    List.Forall₂ Declaration.Shuffles schema.declarations shuffled ∧
      shuffled.Perm other.declarations
  roots : schema.roots = other.roots
  rootsOrigin : schema.rootsOrigin = other.rootsOrigin
  skipped : schema.skipped.Perm other.skipped

/-- Shuffled declarations are the same one, or enums that differ in the order of their values. -/
theorem Declaration.Shuffles.eq_or_enum {decl other : Declaration} (h : decl.Shuffles other) :
    decl = other ∨ ∃ name values others origin, values.Perm others ∧
      decl = ⟨name, .enum values, origin⟩ ∧ other = ⟨name, .enum others, origin⟩ := by
  obtain ⟨name, kind, origin⟩ := decl
  obtain ⟨otherName, otherKind, otherOrigin⟩ := other
  obtain ⟨hname, hkind, horigin⟩ := h
  obtain rfl : name = otherName := hname
  obtain rfl : origin = otherOrigin := horigin
  cases hkind with
  | same => exact .inl rfl
  | @enum values others hperm => exact .inr ⟨name, values, others, origin, hperm, rfl, rfl⟩

/-! ## Contents -/

/-- The values of an enum come in no order in the content of a declaration. -/
theorem Declaration.Shuffles.content_eq {decl other : Declaration} (h : decl.Shuffles other) :
    decl.content = other.content := by
  rcases h.eq_or_enum with rfl | ⟨name, values, others, origin, hperm, rfl, rfl⟩
  · rfl
  · have hvalues := Multiset.coe_eq_coe.mpr hperm
    simp only [Declaration.content, DeclarationKind.content, hvalues]

/-- Shuffling keeps the contents one by one. -/
theorem map_content_of_shuffles {decls others : List Declaration}
    (h : List.Forall₂ Declaration.Shuffles decls others) :
    decls.map Declaration.content = others.map Declaration.content := by
  induction h with
  | nil => rfl
  | cons hdecl _ ih => rw [List.map_cons, List.map_cons, hdecl.content_eq, ih]

/-- Whether a declaration counts is seen from its content. -/
theorem isIdle_of_content {decl other : Declaration} (heq : decl.content = other.content) :
    decl.isIdle = other.isIdle := by
  unfold Declaration.isIdle
  rw [name_of_content heq, isScalar_of_content heq]

/-- A reordered schema has the content of the schema. -/
theorem Reorders.content_eq {schema other : Schema} (h : Reorders schema other) :
    schema.content = other.content := by
  obtain ⟨shuffled, hshuffled, hperm⟩ := h.declarations
  have hcounted : (Schema.counted schema.declarations).map Declaration.content =
      (Schema.counted shuffled).map Declaration.content :=
    filter_outlines (fun x y hxy => by rw [isIdle_of_content hxy])
      (map_content_of_shuffles hshuffled)
  have hdeclarations : ((Schema.counted schema.declarations).map Declaration.content).Perm
      ((Schema.counted other.declarations).map Declaration.content) := by
    rw [hcounted]
    exact (hperm.filter _).map _
  have hskipped := h.skipped.map Skipped.what
  unfold Schema.content
  rw [Multiset.coe_eq_coe.mpr hdeclarations, Multiset.coe_eq_coe.mpr hskipped, h.roots]

/-! ## Findings -/

/-- The findings about a declaration depend on the schema only by the types that are dropped. -/
theorem declarationFindings_congr {schema other : Schema}
    (h : isDropped schema = isDropped other) :
    schema.declarationFindings = other.declarationFindings := by
  have hinput : schema.inputFindings = other.inputFindings := by
    funext code noun path value
    simp only [Schema.inputFindings, h]
  have hfield : schema.fieldFindings = other.fieldFindings := by
    funext owner field
    simp only [Schema.fieldFindings, hinput, h]
  funext decl
  simp only [Schema.declarationFindings, hinput, hfield]

/-- Nothing is reported about the values of an enum, so that shuffling keeps all findings. -/
theorem Declaration.Shuffles.findings_eq {decl other : Declaration} (h : decl.Shuffles other)
    (schema : Schema) : schema.declarationFindings decl = schema.declarationFindings other := by
  rcases h.eq_or_enum with rfl | ⟨name, values, others, origin, -, rfl, rfl⟩ <;> rfl

theorem flatMap_findings_of_shuffles (schema : Schema) {decls others : List Declaration}
    (h : List.Forall₂ Declaration.Shuffles decls others) :
    decls.flatMap schema.declarationFindings = others.flatMap schema.declarationFindings := by
  induction h with
  | nil => rfl
  | cons hdecl _ ih => rw [List.flatMap_cons, List.flatMap_cons, hdecl.findings_eq, ih]

/-- **Findings of reordered schemas**: they are the same ones at the same places, in some order. -/
theorem Reorders.findings_perm {schema other : Schema} (h : Reorders schema other) :
    schema.findings.Perm other.findings := by
  obtain ⟨shuffled, hshuffled, hperm⟩ := h.declarations
  have hdropped := declarationFindings_congr (isDropped_eq h.content_eq)
  have hdeclarations : (schema.declarations.flatMap schema.declarationFindings).Perm
      (other.declarations.flatMap other.declarationFindings) := by
    rw [flatMap_findings_of_shuffles schema hshuffled, hdropped]
    exact hperm.flatMap_right _
  have hsubscription : schema.subscriptionFindings = other.subscriptionFindings := by
    unfold Schema.subscriptionFindings
    rw [h.roots, h.rootsOrigin]
  unfold Schema.findings
  rw [hsubscription]
  exact ((h.skipped.map Diagnostic.ofSkipped).append_right _).append hdeclarations

/-! ## Main Result -/

/-- **Reordering is not seen**: a schema has a model if a reordered one has. The two models are
    equivalent, and the same is reported about both schemas, so that there are as many findings of
    each code. -/
theorem compileSchema_reordered {schema other : Schema} (h : Reorders schema other)
    (options : Options) :
    ((∃ compilation, compileSchema options schema = .ok compilation) ↔
        ∃ compilation, compileSchema options other = .ok compilation) ∧
      ∀ compilation otherCompilation,
        compileSchema options schema = .ok compilation →
        compileSchema options other = .ok otherCompilation →
          compilation.model.equivalent otherCompilation.model ∧
            compilation.findings.Perm otherCompilation.findings ∧
            ∀ code, compilation.findings.countP (·.code == code) =
              otherCompilation.findings.countP (·.code == code) := by
  have hcontent := h.content_eq
  constructor
  · -- both schemas are acceptable, or neither is
    simp only [compileSchema_eq_ok, exists_and_left, exists_eq, and_true]
    exact ⟨acceptable_of_content hcontent, acceptable_of_content hcontent.symm⟩
  · intro compilation otherCompilation hcompilation hother
    obtain ⟨hacceptable, rfl⟩ := compileSchema_eq_ok.mp hcompilation
    obtain ⟨-, rfl⟩ := compileSchema_eq_ok.mp hother
    have hfindings := h.findings_perm
    exact ⟨equivalent_of_content hcontent hacceptable options, hfindings,
      fun code => hfindings.countP_eq _⟩

/-- A schema with an enum, a built-in scalar that is declared twice, and two skipped types, one of
    which a field refers to. -/
def portSchema : Schema where
  declarations := [
    ⟨"Query", .object [
      ⟨"berth", .named "Berth", [⟨"side", .named "Side", none, .sdl ⟨2, 9⟩⟩], .sdl ⟨2, 3⟩⟩,
      ⟨"ship", .named "Vessel", [], .sdl ⟨3, 3⟩⟩], .sdl ⟨1, 1⟩⟩,
    ⟨"Int", .scalar, .sdl ⟨5, 1⟩⟩,
    ⟨"Berth", .object [⟨"depth", .nonNull (.named "Int"), [], .sdl ⟨6, 14⟩⟩], .sdl ⟨6, 1⟩⟩,
    ⟨"Side", .enum ["NORTH", "EAST", "SOUTH"], .sdl ⟨7, 1⟩⟩,
    ⟨"Int", .scalar, .sdl ⟨8, 1⟩⟩]
  roots := ⟨some "Query", none, some "Berth"⟩
  rootsOrigin := .sdl ⟨11, 1⟩
  skipped := [⟨.interface, "Vessel", .sdl ⟨9, 1⟩⟩, ⟨.union, "Cargo", .sdl ⟨10, 1⟩⟩]

/-- The same schema with its types in the order of their names. -/
def portSchemaByName : Schema where
  declarations := [
    ⟨"Berth", .object [⟨"depth", .nonNull (.named "Int"), [], .sdl ⟨6, 14⟩⟩], .sdl ⟨6, 1⟩⟩,
    ⟨"Int", .scalar, .sdl ⟨5, 1⟩⟩,
    ⟨"Int", .scalar, .sdl ⟨8, 1⟩⟩,
    ⟨"Query", .object [
      ⟨"berth", .named "Berth", [⟨"side", .named "Side", none, .sdl ⟨2, 9⟩⟩], .sdl ⟨2, 3⟩⟩,
      ⟨"ship", .named "Vessel", [], .sdl ⟨3, 3⟩⟩], .sdl ⟨1, 1⟩⟩,
    ⟨"Side", .enum ["EAST", "NORTH", "SOUTH"], .sdl ⟨7, 1⟩⟩]
  roots := ⟨some "Query", none, some "Berth"⟩
  rootsOrigin := .sdl ⟨11, 1⟩
  skipped := [⟨.union, "Cargo", .sdl ⟨10, 1⟩⟩, ⟨.interface, "Vessel", .sdl ⟨9, 1⟩⟩]

theorem compileSchema_reordered_portSchema :
    ∃ compilation otherCompilation,
      compileSchema .standard portSchema = .ok compilation ∧
      compileSchema .standard portSchemaByName = .ok otherCompilation ∧
      Reorders portSchema portSchemaByName ∧
      compilation.model ≠ otherCompilation.model ∧
      compilation.model.equivalent otherCompilation.model ∧
      compilation.findings.Perm otherCompilation.findings := by
  have hside : Declaration.Shuffles ⟨"Side", .enum ["NORTH", "EAST", "SOUTH"], .sdl ⟨7, 1⟩⟩
      ⟨"Side", .enum ["EAST", "NORTH", "SOUTH"], .sdl ⟨7, 1⟩⟩ := ⟨rfl, .enum (by decide), rfl⟩
  have hsame : ∀ decl : Declaration, decl.Shuffles decl := fun _ => ⟨rfl, .same _, rfl⟩
  have hreorders : Reorders portSchema portSchemaByName :=
    ⟨⟨_, .cons (hsame _) (.cons (hsame _) (.cons (hsame _) (.cons hside (.cons (hsame _) .nil)))),
      by decide⟩, rfl, rfl, by decide⟩
  obtain ⟨hequivalent, hfindings, -⟩ :=
    (compileSchema_reordered hreorders .standard).2 _ _ rfl rfl
  exact ⟨_, _, rfl, rfl, hreorders, by decide, hequivalent, hfindings⟩

end SchemaModel
