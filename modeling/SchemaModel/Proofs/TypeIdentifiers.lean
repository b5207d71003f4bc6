import Mathlib.Data.List.Perm.Lattice
import SchemaModel.Proofs.References

/-! # Identifiers of Types

    Whether the generated code can tell the types of a model apart.

    * **typeIdentifiers**: the identifiers of the roots and of all other object, input and enum
      types, where a type that is both roots counts once.
    * **CollisionFree**: no identifier occurs twice among them. The declared types never collide.
    * **The empty mutation root** claims no identifier: it goes by `Mutation` without a look at the
      declared types, and collides with one that has this identifier. -/

namespace SchemaModel

variable {options : Options} {schema : Schema}

/-! ## Collisions -/

/-- The identifiers of the types of a model. A type that is both roots counts once. -/
def typeIdentifiers (roots : RootNames) (model : Model) : List String :=
  let rootTypes :=
    if roots.mutation = roots.query then [model.query] else [model.query, model.mutation]
  (rootTypes ++ model.types).map ObjectType.identifier ++
    (model.inputs.map InputType.identifier ++ model.enums.map EnumType.identifier)

/-- **No collisions**: no two types of a model share an identifier, unless they are one and the
    same type in both roots. -/
def CollisionFree (roots : RootNames) (model : Model) : Prop :=
  (typeIdentifiers roots model).Nodup

/-! ## Identifiers of Declared Types -/

/-- The declared types have the identifiers of their declarations, if in another order. -/
theorem declaredIdentifiers_perm (decls : List Declaration) :
    ((objectsOf (decls.map (definitionOf options schema))).map ObjectType.identifier ++
      ((inputsOf (decls.map (definitionOf options schema))).map InputType.identifier ++
        (enumsOf (decls.map (definitionOf options schema))).map EnumType.identifier)).Perm
      ((decls.filter fun decl => !decl.isScalar).map fun decl =>
        identifier .typeMember decl.name) := by
  -- each declaration adds its identifier to one of the three lists, a scalar to none
  induction decls with
  | nil => exact .nil
  | cons decl decls ih =>
    cases hkind : decl.kind with
    | object fields =>
      simpa [objectsOf, inputsOf, enumsOf, definitionOf, Declaration.isScalar, hkind] using ih
    | input fields =>
      rw [List.filter_cons_of_pos (by simp [Declaration.isScalar, hkind]), List.map_cons]
      refine List.Perm.trans ?_ (ih.cons _)
      simp [objectsOf, inputsOf, enumsOf, definitionOf, hkind]
    | enum values =>
      rw [List.filter_cons_of_pos (by simp [Declaration.isScalar, hkind]), List.map_cons]
      refine List.Perm.trans ?_ (ih.cons _)
      simp [objectsOf, inputsOf, enumsOf, definitionOf, hkind, ← List.append_assoc]
    | scalar =>
      simpa [objectsOf, inputsOf, enumsOf, definitionOf, Declaration.isScalar, hkind] using ih

/-! ## Roots among the Objects -/

/-- In a list without repeated names, an item can be moved to the front. -/
theorem perm_cons_filter {α : Type} (name : α → String) {xs : List α} (h : (xs.map name).Nodup)
    {x : α} (hx : x ∈ xs) : xs.Perm (x :: xs.filter fun y => name x ≠ name y) := by
  refine (List.perm_ext_iff_of_nodup h.of_map ?_).mpr fun y => ?_
  · exact List.nodup_cons.mpr ⟨by simp, h.of_map.filter _⟩
  · simp only [List.mem_cons, List.mem_filter, decide_eq_true_eq]
    constructor
    · intro hy
      by_cases hname : name x = name y
      · exact .inl (List.inj_on_of_nodup_map h hy hx hname.symm)
      · exact .inr ⟨hy, hname⟩
    · rintro (rfl | ⟨hy, -⟩)
      · exact hx
      · exact hy

/-- **Roots and others**: the objects of a schema are the roots that it names, the one that is both
    roots once, and the other object types of its model. -/
theorem objectsOf_perm (options : Options) (h : schema.Acceptable) :
    (objectsOf (definitionsOf options schema)).Perm
      ((if schema.roots.mutation = none ∨ schema.roots.mutation = schema.roots.query
        then [(modelOf options schema).query]
        else [(modelOf options schema).query, (modelOf options schema).mutation]) ++
        (modelOf options schema).types) := by
  obtain ⟨query, hq, hquery⟩ := h.query
  obtain ⟨hqueryMem, hqueryName⟩ := rootNamed_mem options h hquery
  have hnames := objectsOf_names_nodup options h
  have htypes : (modelOf options schema).types =
      (objectsOf (definitionsOf options schema)).filter fun object =>
        schema.roots.mutation ≠ some object.name ∧ query ≠ object.name := by
    simp only [modelOf, hq]
    apply List.filter_congr
    intro object _
    by_cases hquery : query = object.name <;>
      by_cases hmutation : schema.roots.mutation = some object.name <;> simp [hquery, hmutation]
  have hqueryRoot : (modelOf options schema).query =
      rootNamed (objectsOf (definitionsOf options schema)) (some query) := by
    rw [← hq]
    rfl
  have hfirst := perm_cons_filter ObjectType.name hnames hqueryMem
  rw [hqueryName] at hfirst
  rw [htypes, hqueryRoot]
  cases hm : schema.roots.mutation with
  | none => simpa using hfirst
  | some mutation =>
    by_cases hsame : mutation = query
    · -- one and the same type is both roots, and is left out once
      subst hsame
      simpa [hq] using hfirst
    · -- the mutation root is moved to the front of what is left without the query root
      obtain ⟨hmutationMem, hmutationName⟩ :=
        rootNamed_mem options h (h.mutation mutation hm)
      have hothers : (((objectsOf (definitionsOf options schema)).filter fun object =>
          query ≠ object.name).map ObjectType.name).Nodup :=
        hnames.sublist (List.filter_sublist.map _)
      have hsecond := perm_cons_filter ObjectType.name hothers
        (List.mem_filter.mpr ⟨hmutationMem, by simpa [hmutationName] using Ne.symm hsame⟩)
      rw [hmutationName, List.filter_filter] at hsecond
      have hmutationRoot : (modelOf options schema).mutation =
          rootNamed (objectsOf (definitionsOf options schema)) (some mutation) := by
        rw [← hm]
        rfl
      rw [if_neg (by simpa [hq] using hsame), hmutationRoot]
      simpa using hfirst.trans (hsecond.cons _)

/-! ## Main Result -/

/-- The empty mutation root stands in for a mutation root that is not named. -/
theorem mutation_of_none (hm : schema.roots.mutation = none) :
    (modelOf options schema).mutation = emptyMutation := by
  simp [modelOf, rootNamed, hm]

/-- The identifiers of a model are those of the declarations, and that of the empty mutation root
    in place of a mutation root that is not named. -/
theorem typeIdentifiers_perm (h : schema.Acceptable) :
    (typeIdentifiers schema.roots (modelOf options schema)).Perm
      ((if schema.roots.mutation = none then ["Mutation"] else []) ++
        (Schema.identified schema.declarations).map fun decl =>
          identifier .typeMember decl.name) := by
  have hobjects := (objectsOf_perm options h).map ObjectType.identifier
  have hdeclared : ((objectsOf (definitionsOf options schema)).map ObjectType.identifier ++
      ((modelOf options schema).inputs.map InputType.identifier ++
        (modelOf options schema).enums.map EnumType.identifier)).Perm
      ((Schema.identified schema.declarations).map fun decl =>
        identifier .typeMember decl.name) := declaredIdentifiers_perm _
  have hall := (hobjects.symm.append_right _).trans hdeclared
  obtain ⟨query, hq, -⟩ := h.query
  unfold typeIdentifiers
  by_cases hm : schema.roots.mutation = none
  · -- the empty mutation root adds its identifier to those of the declared types
    have hroot : (modelOf options schema).mutation.identifier = "Mutation" := by
      rw [mutation_of_none hm]
      rfl
    have hne : schema.roots.mutation ≠ schema.roots.query := by simp [hm, hq]
    rw [if_pos (.inl hm)] at hall
    rw [if_neg hne, if_pos hm]
    refine List.Perm.trans ?_ (hall.cons "Mutation")
    simpa [hroot] using List.Perm.swap _ _ _
  · simpa [hm] using hall

/-- **Exact collisions**: the types of a model never share an identifier if the schema names a
    mutation root. If it names none, they do so if and only if some object, input or enum type has
    the identifier `Mutation`, which is that of the empty mutation root. -/
theorem collisionFree_iff {model : Model} (h : resolve options schema = .ok model) :
    CollisionFree schema.roots model ↔
      schema.roots.mutation ≠ none ∨
        ∀ decl ∈ schema.declarations, ¬decl.isScalar →
          identifier .typeMember decl.name ≠ "Mutation" := by
  obtain ⟨hacceptable, rfl⟩ := resolve_eq_ok.mp h
  -- declarations that are no scalars are not those of built-in scalars either
  have hidentified : (∀ decl ∈ schema.declarations, ¬decl.isScalar →
      identifier .typeMember decl.name ≠ "Mutation") ↔
      "Mutation" ∉ (Schema.identified schema.declarations).map fun decl =>
        identifier .typeMember decl.name := by
    simp only [Schema.identified, List.mem_map, List.mem_filter, mem_named, Bool.not_eq_true',
      not_exists, not_and]
    constructor
    · rintro hall decl ⟨⟨hmem, -⟩, hs⟩
      exact hall decl hmem (by simp [hs])
    · intro hall decl hmem hs
      refine hall decl ⟨⟨hmem, fun hb => hs (hacceptable.builtins decl hmem hb)⟩, ?_⟩
      simpa using hs
  rw [CollisionFree, (typeIdentifiers_perm hacceptable).nodup_iff, hidentified]
  by_cases hm : schema.roots.mutation = none
  · simp [hm, hacceptable.identifiers]
  · simp [hm, hacceptable.identifiers]

theorem collisionFree_clockSchema :
    resolve .standard clockSchema = .ok (modelOf .standard clockSchema) ∧
      CollisionFree clockSchema.roots (modelOf .standard clockSchema) := by
  have h : resolve .standard clockSchema = .ok (modelOf .standard clockSchema) := rfl
  exact ⟨h, (collisionFree_iff h).mpr (.inr (by decide))⟩

/-- A schema that declares a type `mutation`, but names no mutation root. -/
def strayMutationSchema : Schema where
  declarations := [
    ⟨"Query", .object [⟨"a", .named "Int", [], .sdl ⟨1, 14⟩⟩], .sdl ⟨1, 1⟩⟩,
    ⟨"mutation", .object [⟨"b", .named "Int", [], .sdl ⟨2, 17⟩⟩], .sdl ⟨2, 1⟩⟩]
  roots := ⟨some "Query", none, none⟩
  rootsOrigin := .sdl ⟨3, 1⟩
  skipped := []

/-- A declared type shares its identifier with the empty mutation root. -/
theorem strayMutationSchema_collides :
    resolve .standard strayMutationSchema = .ok (modelOf .standard strayMutationSchema) ∧
      ¬CollisionFree strayMutationSchema.roots (modelOf .standard strayMutationSchema) := by
  refine ⟨rfl, ?_⟩
  unfold CollisionFree
  decide

end SchemaModel
