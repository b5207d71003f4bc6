import Mathlib.Data.List.Perm.Basic
import Mathlib.Data.Multiset.MapFold
import SchemaModel.Compilation
import SchemaModel.Proofs.TypeIdentifiers

/-! # Contents of a Schema

    What a schema says apart from the order of its declarations and of the values of each enum,
    and apart from where in the source it says so.

    * **Outlines**: members without their origins.
    * **Content**: the declarations, roots and skipped constructs of a schema. Declarations of
      built-in scalars do not count.
    * **Same content, same compilation**: schemas of the same content are compiled alike. -/

namespace SchemaModel

/-! ## Outlines -/

/-- An argument or an input field without its origin. -/
structure InputOutline where
  name : String
  type : TypeRef String
  defaultValue : Option Value
  deriving Repr, DecidableEq

/-- A field without its origin. -/
structure FieldOutline where
  name : String
  args : List InputOutline
  type : TypeRef String
  deriving Repr, DecidableEq

/-- The outline of a declared argument or input field. -/
def InputValue.outline (value : InputValue) : InputOutline :=
  ⟨value.name, value.type, value.defaultValue⟩

/-- The outline of a declared field. -/
def Field.outline (field : Field) : FieldOutline :=
  ⟨field.name, field.args.map InputValue.outline, field.type⟩

/-- What a declaration says about a type, where the values of an enum come in no order. -/
inductive KindContent where
  | object (fields : List FieldOutline)
  | input (fields : List InputOutline)
  | enum (values : Multiset String)
  | scalar

/-- The content of the body of a declaration. -/
def DeclarationKind.content : DeclarationKind → KindContent
  | .object fields => .object (fields.map Field.outline)
  | .input fields => .input (fields.map InputValue.outline)
  | .enum values => .enum values
  | .scalar => .scalar

/-- Is the body that of a scalar? -/
def KindContent.isScalar : KindContent → Bool
  | .scalar => true
  | _ => false

/-! ## Content -/

/-- A named type, where the values of an enum come in no order. -/
structure DeclarationContent where
  name : String
  kind : KindContent

/-- The content of a declaration. -/
def Declaration.content (decl : Declaration) : DeclarationContent :=
  ⟨decl.name, decl.kind.content⟩

/-- Does a declaration only repeat that there is a built-in scalar? -/
def Declaration.isIdle (decl : Declaration) : Bool :=
  isBuiltinScalar decl.name && decl.isScalar

/-- What a skipped construct is, without its origin. -/
def Skipped.what (skipped : Skipped) : Construct × String :=
  (skipped.construct, skipped.name)

/-- The content of a schema, in no order. -/
structure Content where
  declarations : Multiset DeclarationContent
  roots : RootNames
  skipped : Multiset (Construct × String)

namespace Schema

/-- The declarations that say something. -/
def counted (declarations : List Declaration) : List Declaration :=
  declarations.filter fun decl => !decl.isIdle

/-- The content of a schema. -/
def content (schema : Schema) : Content where
  declarations := (counted schema.declarations).map Declaration.content
  roots := schema.roots
  skipped := schema.skipped.map Skipped.what

end Schema

/-! ## Lists of the Same Outlines -/

section

variable {α β γ : Type} {outline : α → β} {xs ys : List α}

/-- What is made of items by their outlines only is the same for lists of the same outlines. -/
theorem map_eq_of_outlines {f g : α → γ} (hfg : ∀ x y, outline x = outline y → f x = g y)
    (h : xs.map outline = ys.map outline) : xs.map f = ys.map g := by
  induction xs generalizing ys with
  | nil => simp_all
  | cons x xs ih =>
    cases ys with
    | nil => simp at h
    | cons y ys =>
      simp only [List.map_cons, List.cons.injEq] at h ⊢
      exact ⟨hfg x y h.1, ih h.2⟩

/-- What is collected from items by their outlines only is the same but for its order, if the
    outlines are. -/
theorem perm_flatMap_of_outlines {f g : α → List γ}
    (hfg : ∀ x y, outline x = outline y → f x = g y)
    (h : (xs.map outline).Perm (ys.map outline)) : (xs.flatMap f).Perm (ys.flatMap g) := by
  -- the outlines are collected in place of the items
  have hfactors : Function.FactorsThrough f outline := fun x y hxy =>
    (hfg x y hxy).trans (hfg y y rfl).symm
  obtain ⟨e, he⟩ := (Function.factorsThrough_iff f).mp hfactors
  have hg : g = e ∘ outline := by
    rw [← he]
    funext x
    exact (hfg x x rfl).symm
  rw [he, hg]
  simpa [List.flatMap_map, Function.comp_def] using h.flatMap_right e

/-- What is kept of items by their outlines only has the same outlines again. -/
theorem filter_outlines {p : α → Bool} (hp : ∀ x y, outline x = outline y → p x = p y)
    (h : xs.map outline = ys.map outline) :
    (xs.filter p).map outline = (ys.filter p).map outline := by
  induction xs generalizing ys with
  | nil => simp_all
  | cons x xs ih =>
    cases ys with
    | nil => simp at h
    | cons y ys =>
      simp only [List.map_cons, List.cons.injEq] at h
      by_cases hx : p x
      · have hy : p y := hp x y h.1 ▸ hx
        simp [hx, hy, h.1, ih h.2]
      · have hy : ¬p y := hp x y h.1 ▸ hx
        simp [hx, hy, ih h.2]

/-- What follows for an item from its outline follows for all items of the other list. -/
theorem forall_of_outlines {P Q : α → Prop} (hPQ : ∀ x y, outline x = outline y → P x → Q y)
    (h : xs.map outline = ys.map outline) (hxs : ∀ x ∈ xs, P x) : ∀ y ∈ ys, Q y := by
  intro y hy
  obtain ⟨x, hx, houtline⟩ : ∃ x ∈ xs, outline x = outline y := by
    have hmem : outline y ∈ xs.map outline := h ▸ List.mem_map_of_mem hy
    simpa using hmem
  exact hPQ x y houtline (hxs x hx)

end

/-! ## Schemas of the Same Content -/

section

variable {schema other : Schema} (h : schema.content = other.content)

include h

theorem counted_perm : ((Schema.counted schema.declarations).map Declaration.content).Perm
    ((Schema.counted other.declarations).map Declaration.content) :=
  Multiset.coe_eq_coe.mp (congrArg Content.declarations h)

theorem skipped_perm : (schema.skipped.map Skipped.what).Perm (other.skipped.map Skipped.what) :=
  Multiset.coe_eq_coe.mp (congrArg Content.skipped h)

theorem roots_eq : schema.roots = other.roots := congrArg Content.roots h

/-- Every declaration of one schema is found in the other one. -/
theorem exists_counted {decl : Declaration} (hdecl : decl ∈ Schema.counted schema.declarations) :
    ∃ found ∈ Schema.counted other.declarations, decl.content = found.content := by
  have hmem := (counted_perm h).mem_iff.mp (List.mem_map_of_mem hdecl)
  obtain ⟨found, hfound, heq⟩ := List.mem_map.mp hmem
  exact ⟨found, hfound, heq.symm⟩

/-- The same types are dropped. -/
theorem isDropped_eq : isDropped schema = isDropped other := by
  have hskipped : ∀ s : Schema, s.skippedTypes =
      ((s.skipped.map Skipped.what).filter fun what => what.1.declaresType).map Prod.snd := by
    intro s
    simp [Schema.skippedTypes, Skipped.what, List.filter_map, Function.comp_def]
  -- whether a type is dropped depends on the set of skipped names only
  funext type
  unfold isDropped
  rw [Bool.eq_iff_iff, List.contains_iff_mem, List.contains_iff_mem, hskipped schema,
    hskipped other]
  exact (((skipped_perm h).filter _).map _).mem_iff

end

/-- Bodies of the same content are of one kind, with the same members. -/
theorem DeclarationKind.content_cases {kind other : DeclarationKind}
    (h : kind.content = other.content) :
    (∃ fields others, kind = .object fields ∧ other = .object others ∧
      fields.map Field.outline = others.map Field.outline) ∨
    (∃ fields others, kind = .input fields ∧ other = .input others ∧
      fields.map InputValue.outline = others.map InputValue.outline) ∨
    (∃ values others, kind = .enum values ∧ other = .enum others ∧ values.Perm others) ∨
    (kind = .scalar ∧ other = .scalar) := by
  cases kind <;> cases other <;> simp_all [DeclarationKind.content]

section

variable {decl found : Declaration} (heq : decl.content = found.content)

include heq

theorem name_of_content : decl.name = found.name := congrArg DeclarationContent.name heq

theorem kind_of_content : decl.kind.content = found.kind.content :=
  congrArg DeclarationContent.kind heq

theorem namedKind_of_content : decl.kind.namedKind = found.kind.namedKind := by
  rcases DeclarationKind.content_cases (kind_of_content heq) with
    ⟨_, _, hd, hf, -⟩ | ⟨_, _, hd, hf, -⟩ | ⟨_, _, hd, hf, -⟩ | ⟨hd, hf⟩ <;> rw [hd, hf] <;> rfl

theorem isScalar_of_content : decl.isScalar = found.isScalar := by
  rw [Bool.eq_iff_iff, ← namedKind_eq_scalar, ← namedKind_eq_scalar, namedKind_of_content heq]

theorem isObject_of_content : decl.isObject = found.isObject := by
  rw [Bool.eq_iff_iff, ← namedKind_eq_object, ← namedKind_eq_object, namedKind_of_content heq]

end

theorem mem_counted {decls : List Declaration} {decl : Declaration} :
    decl ∈ Schema.counted decls ↔ decl ∈ decls ∧ ¬decl.isIdle := by
  simp [Schema.counted]

/-- If built-in scalars are only declared as scalars, the counted declarations are the named
    ones. -/
theorem counted_eq_named {decls : List Declaration}
    (hbuiltins : ∀ decl ∈ decls, isBuiltinScalar decl.name → decl.isScalar) :
    Schema.counted decls = Schema.named decls := by
  apply List.filter_congr
  intro decl hdecl
  by_cases hb : isBuiltinScalar decl.name
  · simp [Declaration.isIdle, hb, hbuiltins decl hdecl hb]
  · simp [Declaration.isIdle, hb]

/-- The identifiers of types are those of their contents. -/
theorem identifiers_eq_map_content (decls : List Declaration) :
    (Schema.identified decls).map (fun decl => identifier .typeMember decl.name) =
      (((Schema.named decls).map Declaration.content).filter
        fun content => !content.kind.isScalar).map
          fun content => identifier .typeMember content.name := by
  have hscalar : ∀ decl : Declaration, decl.kind.content.isScalar = decl.isScalar := by
    intro decl
    unfold Declaration.isScalar
    cases decl.kind <;> rfl
  simp [Schema.identified, List.filter_map, Function.comp_def, hscalar, Declaration.content]

/-! ## Acceptance by Content -/

section

variable {schema other : Schema} (h : schema.content = other.content)

include h

theorem known_of_content {name : String} (hknown : schema.Known name) : other.Known name := by
  rcases hknown with hb | ⟨decl, hdecl, rfl⟩
  · exact .inl hb
  · -- idle declarations are no part of the content, but their names are built in
    by_cases hidle : decl.isIdle
    · simp only [Declaration.isIdle, Bool.and_eq_true] at hidle
      exact .inl hidle.1
    · obtain ⟨found, hfound, heq⟩ := exists_counted h (mem_counted.mpr ⟨hdecl, hidle⟩)
      exact .inr ⟨found, (mem_counted.mp hfound).1, (name_of_content heq).symm⟩

theorem declaresObject_of_content {name : String} (hobject : schema.DeclaresObject name) :
    other.DeclaresObject name := by
  obtain ⟨decl, hdecl, rfl, hisObject⟩ := hobject
  have hidle : ¬decl.isIdle := by
    simp [Declaration.isIdle, isObject_ne_isScalar hisObject]
  obtain ⟨found, hfound, heq⟩ := exists_counted h (mem_counted.mpr ⟨hdecl, hidle⟩)
  exact ⟨found, (mem_counted.mp hfound).1, (name_of_content heq).symm,
    isObject_of_content heq ▸ hisObject⟩

theorem keptInputs_of_content {values others : List InputValue}
    (hvalues : values.map InputValue.outline = others.map InputValue.outline) :
    (keptInputs schema values).map InputValue.outline =
      (keptInputs other others).map InputValue.outline := by
  unfold keptInputs
  rw [isDropped_eq h]
  refine filter_outlines (fun x y hxy => ?_) hvalues
  simp only [InputValue.outline, InputOutline.mk.injEq] at hxy
  rw [hxy.2.1]

theorem keptFields_of_content {fields others : List Field}
    (hfields : fields.map Field.outline = others.map Field.outline) :
    (keptFields schema fields).map Field.outline =
      (keptFields other others).map Field.outline := by
  unfold keptFields
  rw [isDropped_eq h]
  refine filter_outlines (fun x y hxy => ?_) hfields
  simp only [Field.outline, FieldOutline.mk.injEq] at hxy
  rw [hxy.2.2]

theorem fittingInputs_of_content {role : IdentifierRole} {values others : List InputValue}
    (hvalues : values.map InputValue.outline = others.map InputValue.outline)
    (hfitting : schema.FittingInputs role values) : other.FittingInputs role others := by
  have hkept := keptInputs_of_content h hvalues
  refine ⟨?_, ?_⟩
  · have hnames := map_eq_of_outlines (f := fun value : InputValue => identifier role value.name)
      (fun x y hxy => by rw [show x.name = y.name from congrArg InputOutline.name hxy]) hkept
    rw [← hnames]
    exact hfitting.distinct
  · refine forall_of_outlines (fun x y hxy hx => ?_) hkept hfitting.known
    rw [← show x.type = y.type from congrArg InputOutline.type hxy]
    exact known_of_content h hx

theorem fittingFields_of_content {fields others : List Field}
    (hfields : fields.map Field.outline = others.map Field.outline)
    (hfitting : schema.FittingFields fields) : other.FittingFields others := by
  have hkept := keptFields_of_content h hfields
  refine ⟨?_, ?_, ?_⟩
  · have hnames := map_eq_of_outlines (f := fun field : Field => identifier .typeMember field.name)
      (fun x y hxy => by rw [show x.name = y.name from congrArg FieldOutline.name hxy]) hkept
    rw [← hnames]
    exact hfitting.distinct
  · refine forall_of_outlines (fun x y hxy hx => ?_) hkept hfitting.known
    rw [← show x.type = y.type from congrArg FieldOutline.type hxy]
    exact known_of_content h hx
  · refine forall_of_outlines (fun x y hxy hx => ?_) hkept hfitting.args
    exact fittingInputs_of_content h (congrArg FieldOutline.args hxy) hx

theorem fitting_of_content {kind found : DeclarationKind} (heq : kind.content = found.content)
    (hfitting : schema.Fitting kind) : other.Fitting found := by
  rcases DeclarationKind.content_cases heq with
    ⟨fields, others, rfl, rfl, hfields⟩ | ⟨fields, others, rfl, rfl, hfields⟩ |
    ⟨values, others, rfl, rfl, hperm⟩ | ⟨rfl, rfl⟩
  · exact fittingFields_of_content h hfields hfitting
  · exact fittingInputs_of_content h hfields hfitting
  · exact hperm.nodup_iff.mp hfitting
  · trivial

/-- **Acceptance by content**: schemas of the same content are acceptable together. -/
theorem acceptable_of_content (hacceptable : schema.Acceptable) : other.Acceptable := by
  have hbuiltins : ∀ decl ∈ other.declarations, isBuiltinScalar decl.name → decl.isScalar := by
    intro decl hdecl hb
    -- a declaration that is no scalar is not idle, so that its counterpart is none either
    by_contra hscalar
    have hidle : ¬decl.isIdle := by simp [Declaration.isIdle, hscalar]
    obtain ⟨found, hfound, heq⟩ := exists_counted h.symm (mem_counted.mpr ⟨hdecl, hidle⟩)
    rw [name_of_content heq] at hb
    rw [isScalar_of_content heq] at hscalar
    exact hscalar (hacceptable.builtins found (mem_counted.mp hfound).1 hb)
  have hperm := counted_perm h
  -- from here on the content consists of the named declarations
  rw [counted_eq_named hacceptable.builtins, counted_eq_named hbuiltins] at hperm
  refine ⟨hbuiltins, ?_, ?_, ?_, ?_, ?_⟩
  · have hnames := hperm.map DeclarationContent.name
    simp only [List.map_map] at hnames
    exact hnames.nodup_iff.mp hacceptable.names
  · have hidentifiers := (hperm.filter fun content => !content.kind.isScalar).map
      fun content => identifier .typeMember content.name
    rw [← identifiers_eq_map_content, ← identifiers_eq_map_content] at hidentifiers
    exact hidentifiers.nodup_iff.mp hacceptable.identifiers
  · obtain ⟨name, hname, hobject⟩ := hacceptable.query
    exact ⟨name, roots_eq h ▸ hname, declaresObject_of_content h hobject⟩
  · intro name hname
    rw [← roots_eq h] at hname
    exact declaresObject_of_content h (hacceptable.mutation name hname)
  · intro decl hdecl
    by_cases hidle : decl.isIdle
    · simp only [Declaration.isIdle, Bool.and_eq_true] at hidle
      exact Schema.fitting_of_isScalar hidle.2
    · obtain ⟨found, hfound, heq⟩ := exists_counted h.symm (mem_counted.mpr ⟨hdecl, hidle⟩)
      exact fitting_of_content h (kind_of_content heq).symm
        (hacceptable.fitting found (mem_counted.mp hfound).1)

end

/-! ## Models by Content -/

/-- Definitions that are the same but for the order of enum values. -/
inductive ModelDefinition.Alike : ModelDefinition → ModelDefinition → Prop
  | same (definition : ModelDefinition) : Alike definition definition
  | enum {first second : EnumType} :
      second.name = first.name → Model.sameEnum first second → Alike (.enum first) (.enum second)

section

variable {schema other : Schema} (h : schema.content = other.content) (hs : schema.Acceptable)
  (options : Options)

include h hs

/-- A named declaration of one schema is found in the other one. -/
theorem exists_named {decl : Declaration} (hdecl : decl ∈ Schema.named schema.declarations) :
    ∃ found ∈ Schema.named other.declarations, decl.content = found.content := by
  rw [← counted_eq_named hs.builtins] at hdecl
  rw [← counted_eq_named (acceptable_of_content h hs).builtins]
  exact exists_counted h hdecl

theorem kindOf_of_content {name : String} (hb : ¬isBuiltinScalar name) :
    schema.kindOf name = other.kindOf name := by
  have ho := acceptable_of_content h hs
  unfold Schema.kindOf
  cases hf : schema.find? name with
  | none =>
    -- a declaration of the name in the other schema would have a counterpart in this one
    have hnone : other.find? name = none := by
      refine Schema.find?_eq_none.mpr fun found hfound hname => ?_
      obtain ⟨decl, hdecl, heq⟩ := exists_named h.symm ho
        (mem_named.mpr ⟨hfound, hname ▸ hb⟩)
      exact Schema.find?_eq_none.mp hf decl (mem_named.mp hdecl).1 (name_of_content heq ▸ hname)
    rw [hnone]
  | some decl =>
    obtain ⟨hdecl, rfl⟩ := Schema.find?_eq_some hf
    obtain ⟨found, hfound, heq⟩ := exists_named h hs (mem_named.mpr ⟨hdecl, hb⟩)
    rw [name_of_content heq, find?_of_named ho hfound]
    exact namedKind_of_content heq

theorem referenceTo_of_content (name : String) :
    referenceTo options schema name = referenceTo options other name := by
  unfold referenceTo
  by_cases hb : isBuiltinScalar name
  · rw [if_pos hb, if_pos hb]
  · rw [if_neg hb, if_neg hb, kindOf_of_content h hs hb]

theorem inputOf_of_content (role : IdentifierRole) {value found : InputValue}
    (heq : value.outline = found.outline) :
    inputOf options schema role value = inputOf options other role found := by
  simp only [InputValue.outline, InputOutline.mk.injEq] at heq
  obtain ⟨hname, htype, hdefault⟩ := heq
  unfold inputOf typeOf
  rw [hname, htype, hdefault, referenceTo_of_content h hs]

theorem inputsOf_of_content (role : IdentifierRole) {values others : List InputValue}
    (hvalues : values.map InputValue.outline = others.map InputValue.outline) :
    (keptInputs schema values).map (inputOf options schema role) =
      (keptInputs other others).map (inputOf options other role) :=
  map_eq_of_outlines (fun _ _ hxy => inputOf_of_content h hs options role hxy)
    (keptInputs_of_content h hvalues)

theorem fieldOf_of_content {field found : Field} (heq : field.outline = found.outline) :
    fieldOf options schema field = fieldOf options other found := by
  simp only [Field.outline, FieldOutline.mk.injEq] at heq
  obtain ⟨hname, hargs, htype⟩ := heq
  unfold fieldOf typeOf
  rw [hname, htype, inputsOf_of_content h hs options .localVariable hargs,
    referenceTo_of_content h hs]

theorem fieldsOf_of_content {fields others : List Field}
    (hfields : fields.map Field.outline = others.map Field.outline) :
    (keptFields schema fields).map (fieldOf options schema) =
      (keptFields other others).map (fieldOf options other) :=
  map_eq_of_outlines (fun _ _ hxy => fieldOf_of_content h hs options hxy)
    (keptFields_of_content h hfields)

/-- Declarations of the same content come to definitions that are alike. -/
theorem definitionOf_of_content {decl found : Declaration} (heq : decl.content = found.content) :
    (definitionOf options schema decl).Alike (definitionOf options other found) := by
  unfold definitionOf
  rw [name_of_content heq]
  rcases DeclarationKind.content_cases (kind_of_content heq) with
    ⟨fields, others, hkind, hothers, hfields⟩ | ⟨fields, others, hkind, hothers, hfields⟩ |
    ⟨values, others, hkind, hothers, hperm⟩ | ⟨hkind, hothers⟩
  · simp only [hkind, hothers, fieldsOf_of_content h hs options hfields]
    exact .same _
  · simp only [hkind, hothers, inputsOf_of_content h hs options .typeMember hfields]
    exact .same _
  · simp only [hkind, hothers]
    exact .enum rfl (by simp [Model.sameEnum, hperm.length_eq, hperm.mem_iff])
  · simp only [hkind, hothers]
    exact .same _

/-- A definition of one schema has its like in the other one. -/
theorem exists_alike {definition : ModelDefinition}
    (hdefinition : definition ∈ definitionsOf options schema) :
    ∃ found ∈ definitionsOf options other, definition.Alike found := by
  obtain ⟨decl, hdecl, rfl⟩ := List.mem_map.mp hdefinition
  obtain ⟨found, hfound, heq⟩ := exists_named h hs hdecl
  exact ⟨_, List.mem_map_of_mem hfound, definitionOf_of_content h hs options heq⟩

/-- The objects of one schema are found in the other one, and so are its inputs and its scalars. -/
theorem picked_of_content {α : Type} {pick : ModelDefinition → Option α}
    {wrap : α → ModelDefinition} (hpicks : Picks pick wrap) (hwrap : ∀ x enum, wrap x ≠ .enum enum)
    {x : α} (hx : x ∈ (definitionsOf options schema).filterMap pick) :
    x ∈ (definitionsOf options other).filterMap pick := by
  rw [hpicks.mem_filterMap] at hx ⊢
  obtain ⟨found, hfound, halike⟩ := exists_alike h hs options hx
  -- only enums may differ from what they are like
  generalize hdefinition : wrap x = definition at halike ⊢
  cases halike with
  | same => exact hfound
  | enum => exact absurd hdefinition (hwrap x _)

theorem objectsOf_of_content {object : ObjectType}
    (hobject : object ∈ objectsOf (definitionsOf options schema)) :
    object ∈ objectsOf (definitionsOf options other) :=
  picked_of_content h hs options picks_object (by simp) hobject

/-- An enum of one schema is found in the other one, but for the order of its values. -/
theorem enumTypes_of_content {enum : EnumType}
    (henum : enum ∈ enumsOf (definitionsOf options schema)) :
    ∃ found ∈ enumsOf (definitionsOf options other),
      found.name = enum.name ∧ Model.sameEnum enum found := by
  obtain ⟨_, hfound, halike⟩ := exists_alike h hs options (picks_enum.mem_filterMap.mp henum)
  cases halike with
  | same => exact ⟨enum, picks_enum.mem_filterMap.mpr hfound, rfl, by simp [Model.sameEnum]⟩
  | enum hname hsame => exact ⟨_, picks_enum.mem_filterMap.mpr hfound, hname, hsame⟩

theorem rootNamed_of_content {name : Option String} :
    rootNamed (objectsOf (definitionsOf options schema)) name =
      rootNamed (objectsOf (definitionsOf options other)) name := by
  have ho := acceptable_of_content h hs
  cases name with
  | none => rfl
  | some name =>
    unfold rootNamed
    rw [Option.bind_some, Option.bind_some]
    cases hf : (objectsOf (definitionsOf options schema)).find? (·.name == name) with
    | some object =>
      obtain rfl : object.name = name := by simpa using List.find?_some hf
      have hobject := objectsOf_of_content h hs options (List.mem_of_find?_eq_some hf)
      rw [find?_of_mem_objectsOf ho hobject]
    | none =>
      have hnone : (objectsOf (definitionsOf options other)).find? (·.name == name) = none := by
        refine List.find?_eq_none.mpr fun object hobject => ?_
        exact List.find?_eq_none.mp hf object (objectsOf_of_content h.symm ho options hobject)
      rw [hnone]

end

/-- Lists compare as the same by name if no name is repeated in either of them and each item of
    one list has its counterpart in the other. -/
theorem sameByName_of_mem {α : Type} {name : α → String} {same : α → α → Bool} {xs ys : List α}
    (hxs : (xs.map name).Nodup) (hys : (ys.map name).Nodup)
    (hxy : ∀ x ∈ xs, ∃ y ∈ ys, name y = name x ∧ same x y)
    (hyx : ∀ y ∈ ys, ∃ x ∈ xs, name x = name y) : Model.sameByName name same xs ys := by
  -- the same names without repetition are as many
  have hlength : xs.length = ys.length := by
    have hperm : (xs.map name).Perm (ys.map name) := by
      apply (List.perm_ext_iff_of_nodup hxs hys).mpr
      intro n
      simp only [List.mem_map]
      constructor
      · rintro ⟨x, hx, rfl⟩
        obtain ⟨y, hy, hname, -⟩ := hxy x hx
        exact ⟨y, hy, hname⟩
      · rintro ⟨y, hy, rfl⟩
        exact hyx y hy
    simpa using hperm.length_eq
  unfold Model.sameByName
  simp only [hlength, beq_self_eq_true, Bool.true_and, List.all_eq_true]
  intro x hx
  obtain ⟨y, hy, hname, hsame⟩ := hxy x hx
  have hfind : ys.find? (name · == name x) = some y := hname ▸ find?_of_nodup hys hy
  simpa [hfind] using hsame

/-- Lists of the same items compare as the same by name if no name is repeated in either of them. -/
theorem sameByName_of_mem_iff {α : Type} [BEq α] [ReflBEq α] {name : α → String} {xs ys : List α}
    (hxs : (xs.map name).Nodup) (hys : (ys.map name).Nodup) (h : ∀ x, x ∈ xs ↔ x ∈ ys) :
    Model.sameByName name (· == ·) xs ys :=
  sameByName_of_mem hxs hys (fun x hx => ⟨x, (h x).mp hx, rfl, beq_self_eq_true x⟩)
    fun y hy => ⟨y, (h y).mpr hy, rfl⟩

section

variable {schema other : Schema} (h : schema.content = other.content) (hs : schema.Acceptable)
  (options : Options)

include h hs

/-- The inputs of both schemas compare as the same by name, and so do their scalars. -/
theorem sameByName_picked {α : Type} [BEq α] [ReflBEq α] {pick : ModelDefinition → Option α}
    {wrap : α → ModelDefinition} (hpicks : Picks pick wrap) (hwrap : ∀ x enum, wrap x ≠ .enum enum)
    {name : α → String} (hname : ∀ x, (wrap x).name = name x) :
    Model.sameByName name (· == ·) ((definitionsOf options schema).filterMap pick)
      ((definitionsOf options other).filterMap pick) := by
  have ho := acceptable_of_content h hs
  exact sameByName_of_mem_iff (hpicks.names_nodup options hs hname)
    (hpicks.names_nodup options ho hname) fun _ =>
      ⟨picked_of_content h hs options hpicks hwrap, picked_of_content h.symm ho options hpicks hwrap⟩

/-- **Models by content**: acceptable schemas of the same content have equivalent models. -/
theorem equivalent_of_content :
    (modelOf options schema).equivalent (modelOf options other) := by
  have ho := acceptable_of_content h hs
  have hroots := roots_eq h
  -- list by list, the types of each model have their counterparts in the other one
  have htypes : Model.sameByName ObjectType.name (· == ·) (modelOf options schema).types
      (modelOf options other).types := by
    refine sameByName_of_mem_iff ((objectsOf_names_nodup options hs).sublist
      (List.filter_sublist.map _)) ((objectsOf_names_nodup options ho).sublist
      (List.filter_sublist.map _)) fun object => ?_
    have hobject : object ∈ objectsOf (definitionsOf options schema) ↔
        object ∈ objectsOf (definitionsOf options other) :=
      ⟨objectsOf_of_content h hs options, objectsOf_of_content h.symm ho options⟩
    simp only [modelOf, List.mem_filter, hobject, hroots]
  have hinputs : Model.sameByName InputType.name (· == ·) (modelOf options schema).inputs
      (modelOf options other).inputs :=
    sameByName_picked h hs options picks_input (by simp) fun _ => rfl
  have hscalars : Model.sameByName ScalarType.name (· == ·) (modelOf options schema).scalars
      (modelOf options other).scalars :=
    sameByName_picked h hs options picks_scalar (by simp) fun _ => rfl
  have henums : Model.sameByName EnumType.name Model.sameEnum (modelOf options schema).enums
      (modelOf options other).enums := by
    refine sameByName_of_mem (picks_enum.names_nodup options hs fun _ => rfl)
      (picks_enum.names_nodup options ho fun _ => rfl)
      (fun enum henum => enumTypes_of_content h hs options henum) fun enum henum => ?_
    obtain ⟨found, hfound, hname, -⟩ := enumTypes_of_content h.symm ho options henum
    exact ⟨found, hfound, hname⟩
  have hquery : (modelOf options schema).query = (modelOf options other).query := by
    simp only [modelOf, rootNamed_of_content h hs options, hroots]
  have hmutation : (modelOf options schema).mutation = (modelOf options other).mutation := by
    simp only [modelOf, rootNamed_of_content h hs options, hroots]
  simp [Model.equivalent, htypes, hinputs, henums, hscalars, hquery, hmutation]

end

/-! ## Findings by Content -/

/-- What a finding says, without the places that it points at. -/
def Diagnostic.remark (diagnostic : Diagnostic) : Severity × String × String :=
  (diagnostic.severity, diagnostic.code, diagnostic.title)

/-- What the warning about a skipped construct says. -/
def skippedRemark (what : Construct × String) : Severity × String × String :=
  (.warning, Diagnostic.skippedConstruct, "skipped " ++ what.1.text ++ " `" ++ what.2 ++ "`")

theorem map_remark_ofSkipped (skipped : List Skipped) :
    (skipped.map Diagnostic.ofSkipped).map Diagnostic.remark =
      (skipped.map Skipped.what).map skippedRemark := by
  rw [List.map_map, List.map_map]
  rfl

section

variable {schema other : Schema} (h : schema.content = other.content)

include h

/-- The findings about declarations of the same content say the same. -/
theorem declarationFindings_of_content {decl found : Declaration}
    (heq : decl.content = found.content) :
    (schema.declarationFindings decl).map Diagnostic.remark =
      (other.declarationFindings found).map Diagnostic.remark := by
  -- whether there is a finding about a member depends on its type only
  have hinput : ∀ code noun path {value found : InputValue}, value.outline = found.outline →
      (schema.inputFindings code noun path value).map Diagnostic.remark =
        (other.inputFindings code noun path found).map Diagnostic.remark := by
    intro code noun path value found hvalue
    have htype : value.type = found.type := congrArg InputOutline.type hvalue
    unfold Schema.inputFindings
    rw [isDropped_eq h, htype]
    split <;> rfl
  have hfield : ∀ owner {field found : Field}, field.outline = found.outline →
      (schema.fieldFindings owner field).map Diagnostic.remark =
        (other.fieldFindings owner found).map Diagnostic.remark := by
    intro owner field found houtline
    simp only [Field.outline, FieldOutline.mk.injEq] at houtline
    obtain ⟨hname, hargs, htype⟩ := houtline
    unfold Schema.fieldFindings
    rw [isDropped_eq h, hname, htype]
    split
    · rfl
    · rw [List.map_flatMap, List.map_flatMap, List.flatMap_def, List.flatMap_def]
      refine congrArg List.flatten (map_eq_of_outlines (fun x y hxy => ?_) hargs)
      rw [show x.name = y.name from congrArg InputOutline.name hxy]
      exact hinput _ _ _ hxy
  unfold Schema.declarationFindings
  rw [name_of_content heq]
  rcases DeclarationKind.content_cases (kind_of_content heq) with
    ⟨fields, others, hd, hf, hfields⟩ | ⟨fields, others, hd, hf, hfields⟩ |
    ⟨_, _, hd, hf, -⟩ | ⟨hd, hf⟩
  · simp only [hd, hf]
    rw [List.map_flatMap, List.map_flatMap, List.flatMap_def, List.flatMap_def]
    exact congrArg List.flatten (map_eq_of_outlines (fun _ _ hxy => hfield _ hxy) hfields)
  · simp only [hd, hf]
    rw [List.map_flatMap, List.map_flatMap, List.flatMap_def, List.flatMap_def]
    refine congrArg List.flatten (map_eq_of_outlines (fun x y hxy => ?_) hfields)
    rw [show x.name = y.name from congrArg InputOutline.name hxy]
    exact hinput _ _ _ hxy
  · rw [hd, hf]
  · rw [hd, hf]

/-- **Findings by content**: the findings about schemas of the same content say the same, in some
    order. -/
theorem findings_of_content :
    (schema.findings.map Diagnostic.remark).Perm (other.findings.map Diagnostic.remark) := by
  have hcounted : ∀ s : Schema, s.declarations.flatMap s.declarationFindings =
      (Schema.counted s.declarations).flatMap s.declarationFindings := by
    intro s
    unfold Schema.counted
    induction s.declarations with
    | nil => rfl
    | cons decl decls ih =>
      by_cases hidle : decl.isIdle
      · -- a scalar has no members to find anything about
        have hnone : s.declarationFindings decl = [] := by
          simp only [Declaration.isIdle, Bool.and_eq_true] at hidle
          simp [Schema.declarationFindings, isScalar_iff.mp hidle.2]
        simp [hidle, hnone, ih]
      · simp [hidle, ih]
  have hdeclarations : ((schema.declarations.flatMap schema.declarationFindings).map
      Diagnostic.remark).Perm
      ((other.declarations.flatMap other.declarationFindings).map Diagnostic.remark) := by
    rw [hcounted, hcounted, List.map_flatMap, List.map_flatMap]
    exact perm_flatMap_of_outlines (fun _ _ heq => declarationFindings_of_content h heq)
      (counted_perm h)
  -- a skipped construct is reported in words that do not mention its origin
  have hskipped : ((schema.skipped.map Diagnostic.ofSkipped).map Diagnostic.remark).Perm
      ((other.skipped.map Diagnostic.ofSkipped).map Diagnostic.remark) := by
    rw [map_remark_ofSkipped, map_remark_ofSkipped]
    exact (skipped_perm h).map skippedRemark
  have hsubscription : schema.subscriptionFindings.map Diagnostic.remark =
      other.subscriptionFindings.map Diagnostic.remark := by
    unfold Schema.subscriptionFindings
    rw [roots_eq h]
    split <;> rfl
  unfold Schema.findings
  rw [List.map_append, List.map_append, List.map_append, List.map_append, hsubscription]
  exact (hskipped.append_right _).append hdeclarations

end

/-! ## Compilations by Content -/

/-- **Same outcome**: two compilations both fail, or both succeed with equivalent models, as many
    skipped constructs, and findings that say the same in some order. -/
def SameOutcome : Except Failure Compilation → Except Failure Compilation → Prop
  | .ok a, .ok b =>
    a.model.equivalent b.model ∧ a.skipped = b.skipped ∧
      (a.findings.map Diagnostic.remark).Perm (b.findings.map Diagnostic.remark)
  | .error _, .error _ => True
  | _, _ => False

/-- A schema that is not acceptable is not compiled. -/
theorem compileSchema_error {schema : Schema} (h : ¬schema.Acceptable) (options : Options) :
    ∃ failure, compileSchema options schema = .error failure := by
  cases hresolve : resolve options schema with
  | error failure => exact ⟨failure, by simp [compileSchema, hresolve]⟩
  | ok model => exact absurd (acceptable_of_resolve hresolve) h

/-- **Compilation by content**: schemas of the same content are compiled alike. -/
theorem compileSchema_of_content {schema other : Schema} (h : schema.content = other.content)
    (options : Options) :
    SameOutcome (compileSchema options schema) (compileSchema options other) := by
  by_cases hs : schema.Acceptable
  · have ho := acceptable_of_content h hs
    have hlength : schema.skipped.length = other.skipped.length := by
      simpa using (skipped_perm h).length_eq
    unfold compileSchema
    rw [hs.resolve_eq options, ho.resolve_eq options]
    exact ⟨equivalent_of_content h hs options, hlength, findings_of_content h⟩
  · -- neither schema is acceptable, so that neither resolves
    have ho : ¬other.Acceptable := fun ho => hs (acceptable_of_content h.symm ho)
    obtain ⟨_, hschema⟩ := compileSchema_error hs options
    obtain ⟨_, hother⟩ := compileSchema_error ho options
    rw [hschema, hother]
    trivial

end SchemaModel
