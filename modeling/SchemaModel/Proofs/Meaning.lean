import Mathlib.Data.List.Forall2
import SchemaModel.Proofs.Phrases
import SchemaModel.Proofs.Positions

/-! # What Documents Mean

    What the items of a document declare, which root types they name, and what is skipped in them. All
    of it is said item by item, and it says nothing about how a schema is put together.

    * **Declares**: an item and the type that it declares, with the same name, members, types and default
      values, and with the origins of what is written.
    * **Silent**: an item that declares nothing.
    * **Leaves**: an item and the constructs that are skipped in it, in the order of the text.
    * **NamesRoots**: the roots are those of the schema block, or else the objects with the conventional
      names.
    * **Means**: the schema that a document stands for. There is exactly one. -/

namespace SchemaModel

/-! ## Root Types -/

/-- The root that a schema names for an operation. -/
def RootNames.get? (roots : RootNames) : RootOperation → Option String
  | .query => roots.query
  | .mutation => roots.mutation
  | .subscription => roots.subscription

/-- The name by which a type is the root of an operation, if no schema block names the roots. -/
def RootOperation.conventionalName : RootOperation → String
  | .query => "Query"
  | .mutation => "Mutation"
  | .subscription => "Subscription"

theorem RootNames.ext_get? {roots others : RootNames}
    (h : ∀ operation, roots.get? operation = others.get? operation) : roots = others := by
  obtain ⟨query, mutation, subscription⟩ := roots
  obtain rfl : query = others.query := h .query
  obtain rfl : mutation = others.mutation := h .mutation
  obtain rfl : subscription = others.subscription := h .subscription
  rfl

/-- The first of some declarations with a name is one of an object. -/
def FirstIsObject (declarations : List Declaration) (name : String) : Prop :=
  ∃ before fields origin after,
    declarations = before ++ ⟨name, .object fields, origin⟩ :: after ∧
      ∀ decl ∈ before, decl.name ≠ name

namespace Sdl

/-! ## Declarations -/

section

variable (source : String)

/-- The origin of what is written at a byte offset. -/
def originIn (offset : Nat) : Origin := .sdl (LineCol.walk ⟨1, 1⟩ source.toList offset)

/-- **Declares**: an argument or input field as it is written. -/
structure InputValueDef.Declares (written : InputValueDef) (value : InputValue) : Prop where
  name : value.name = written.name.text
  type : value.type = written.type
  default : value.defaultValue = written.defaultValue
  origin : value.origin = originIn source written.name.offset

/-- **Declares**: a field as it is written, with its arguments. -/
structure FieldDef.Declares (written : FieldDef) (field : Field) : Prop where
  name : field.name = written.name.text
  type : field.type = written.type
  args : List.Forall₂ (InputValueDef.Declares source) written.args field.args
  origin : field.origin = originIn source written.name.offset

/-- **Declares**: the members of a type as they are written. -/
inductive Body.Declares : Body → DeclarationKind → Prop
  | object {interfaces : List Name} {written : List FieldDef} {fields : List Field} :
      List.Forall₂ (FieldDef.Declares source) written fields →
      Body.Declares (.object interfaces written) (.object fields)
  | input {written : List InputValueDef} {fields : List InputValue} :
      List.Forall₂ (InputValueDef.Declares source) written fields →
      Body.Declares (.input written) (.input fields)
  | enum {written : List EnumValueDef} {values : List String} :
      List.Forall₂ (fun one value => value = one.name.text) written values →
      Body.Declares (.enum written) (.enum values)
  | scalar : Body.Declares .scalar .scalar

/-- **Declares**: a type as it is written, at its keyword. -/
structure Definition.Declares (d : Definition) (decl : Declaration) : Prop where
  name : decl.name = d.name
  members : d.body.Declares source decl.kind
  origin : decl.origin = originIn source d.offset

/-- **Silent**: an item that declares no type that a model has room for. -/
inductive Entry.Silent : Entry → Prop
  | extension {offset : Nat} {d : Definition} : Silent (.extension offset d)
  | schema {offset : Nat} {name : String} {directives : List Name}
      {operations : List (RootOperation × String)} :
      Silent (.definition ⟨offset, name, directives, .schema operations⟩)
  | interface {offset : Nat} {name : String} {directives interfaces : List Name}
      {fields : List FieldDef} :
      Silent (.definition ⟨offset, name, directives, .interface interfaces fields⟩)
  | union {offset : Nat} {name : String} {directives members : List Name} :
      Silent (.definition ⟨offset, name, directives, .union members⟩)
  | directive {offset : Nat} {name : String} {directives locations : List Name}
      {args : List InputValueDef} :
      Silent (.definition ⟨offset, name, directives, .directive args locations⟩)

/-- **Declares**: the types of a document in its order. -/
inductive Document.Declares : Document → List Declaration → Prop
  | nil : Document.Declares [] []
  | type {d : Definition} {decl : Declaration} {items : Document} {declarations : List Declaration} :
      d.Declares source decl → Document.Declares items declarations →
      Document.Declares (.definition d :: items) (decl :: declarations)
  | silent {e : Entry} {items : Document} {declarations : List Declaration} :
      e.Silent → Document.Declares items declarations → Document.Declares (e :: items) declarations

end

/-! ## Skipped Constructs -/

/-- Each of some parts in turn, with what belongs to it. -/
inductive InTurn {α β : Type} (rel : α → List β → Prop) : List α → List β → Prop
  | nil : InTurn rel [] []
  | cons {a : α} {as : List α} {bs cs : List β} :
      rel a bs → InTurn rel as cs → InTurn rel (a :: as) (bs ++ cs)

section

variable (source : String)

/-- **Leaves**: a directive is skipped at its at sign, unless it is a core one. -/
inductive DirectiveLeaves : Name → List Skipped → Prop
  | core {directive : Name} : directive.text ∈ coreDirectives → DirectiveLeaves directive []
  | other {directive : Name} : directive.text ∉ coreDirectives →
      DirectiveLeaves directive [⟨.directive, directive.text, originIn source directive.offset⟩]

/-- **Leaves**: the directives of something. -/
def DirectivesLeave : List Name → List Skipped → Prop := InTurn (DirectiveLeaves source)

/-- **Leaves**: the directives of an argument or input field. -/
def InputValueDef.Leaves (value : InputValueDef) : List Skipped → Prop :=
  DirectivesLeave source value.directives

/-- **Leaves**: the directives of a field behind those of its arguments. -/
def FieldDef.Leaves (field : FieldDef) (skipped : List Skipped) : Prop :=
  ∃ inside own, InTurn (InputValueDef.Leaves source) field.args inside ∧
    DirectivesLeave source field.directives own ∧ skipped = inside ++ own

/-- An interface that a type implements is skipped where it is named. -/
def implementsIn (name : Name) : Skipped := ⟨.implements, name.text, originIn source name.offset⟩

/-- **Leaves**: the interfaces, the directives and what the members of a definition leave. Behind them
    comes the definition itself if no model has room for it. -/
inductive Definition.Leaves : Definition → List Skipped → Prop
  | object {offset : Nat} {name : String} {directives interfaces : List Name}
      {fields : List FieldDef} {own inside : List Skipped} :
      DirectivesLeave source directives own → InTurn (FieldDef.Leaves source) fields inside →
      Definition.Leaves ⟨offset, name, directives, .object interfaces fields⟩
        (interfaces.map (implementsIn source) ++ own ++ inside)
  | interface {offset : Nat} {name : String} {directives interfaces : List Name}
      {fields : List FieldDef} {own inside : List Skipped} :
      DirectivesLeave source directives own → InTurn (FieldDef.Leaves source) fields inside →
      Definition.Leaves ⟨offset, name, directives, .interface interfaces fields⟩
        (interfaces.map (implementsIn source) ++ own ++ inside ++
          [⟨.interface, name, originIn source offset⟩])
  | input {offset : Nat} {name : String} {directives : List Name} {fields : List InputValueDef}
      {own inside : List Skipped} :
      DirectivesLeave source directives own → InTurn (InputValueDef.Leaves source) fields inside →
      Definition.Leaves ⟨offset, name, directives, .input fields⟩ (own ++ inside)
  | enum {offset : Nat} {name : String} {directives : List Name} {values : List EnumValueDef}
      {own inside : List Skipped} :
      DirectivesLeave source directives own →
      InTurn (fun value => DirectivesLeave source value.directives) values inside →
      Definition.Leaves ⟨offset, name, directives, .enum values⟩ (own ++ inside)
  | scalar {offset : Nat} {name : String} {directives : List Name} {own : List Skipped} :
      DirectivesLeave source directives own →
      Definition.Leaves ⟨offset, name, directives, .scalar⟩ own
  | union {offset : Nat} {name : String} {directives members : List Name} {own : List Skipped} :
      DirectivesLeave source directives own →
      Definition.Leaves ⟨offset, name, directives, .union members⟩
        (own ++ [⟨.union, name, originIn source offset⟩])
  | directive {offset : Nat} {name : String} {directives locations : List Name}
      {args : List InputValueDef} {own inside : List Skipped} :
      DirectivesLeave source directives own → InTurn (InputValueDef.Leaves source) args inside →
      Definition.Leaves ⟨offset, name, directives, .directive args locations⟩
        (own ++ inside ++ [⟨.directiveDefinition, name, originIn source offset⟩])
  | schema {offset : Nat} {name : String} {directives : List Name}
      {operations : List (RootOperation × String)} {own : List Skipped} :
      DirectivesLeave source directives own →
      Definition.Leaves ⟨offset, name, directives, .schema operations⟩ own

/-- **Leaves**: what a definition leaves, or an extension as a whole. -/
inductive Entry.Leaves : Entry → List Skipped → Prop
  | definition {d : Definition} {skipped : List Skipped} :
      d.Leaves source skipped → Entry.Leaves (.definition d) skipped
  | extension {offset : Nat} {d : Definition} :
      Entry.Leaves (.extension offset d) [⟨.extension, d.name, originIn source offset⟩]

/-! ## Schemas -/

/-- **Names roots**: the root types of a document, and where they are named. -/
inductive Document.NamesRoots (items : Document) (declarations : List Declaration) :
    RootNames → Origin → Prop
  /-- The schema block gives an operation its root, at the keyword. -/
  | block {offset : Nat} {name : String} {directives : List Name}
      {operations : List (RootOperation × String)} {roots : RootNames} :
      .definition ⟨offset, name, directives, .schema operations⟩ ∈ items →
      (∀ operation type, roots.get? operation = some type ↔ (operation, type) ∈ operations) →
      NamesRoots items declarations roots (originIn source offset)
  /-- Without a schema block, the root is the object with the conventional name. -/
  | convention {roots : RootNames} :
      (∀ offset name directives operations,
        .definition ⟨offset, name, directives, .schema operations⟩ ∉ items) →
      (∀ operation type, roots.get? operation = some type ↔
        type = operation.conventionalName ∧ FirstIsObject declarations type) →
      NamesRoots items declarations roots (.sdl ⟨1, 1⟩)

/-- **Means**: the schema that the items of a source stand for. -/
structure Document.Means (items : Document) (schema : Schema) : Prop where
  declares : items.Declares source schema.declarations
  roots : items.NamesRoots source schema.declarations schema.roots schema.rootsOrigin
  leaves : InTurn (Entry.Leaves source) items schema.skipped

end

/-! ## The One Schema of a Document -/

theorem forall₂_iff_eq_map {α β : Type} {rel : α → β → Prop} {f : α → β}
    (h : ∀ a b, rel a b ↔ b = f a) {as : List α} {bs : List β} :
    List.Forall₂ rel as bs ↔ bs = as.map f := by
  obtain rfl : rel = fun a b => f a = b :=
    funext fun a => funext fun b => propext ((h a b).trans eq_comm)
  rw [← List.forall₂_map_left_iff, List.forall₂_eq_eq_eq, eq_comm]

theorem inTurn_iff_eq_flatMap {α β : Type} {rel : α → List β → Prop} {f : α → List β}
    (h : ∀ a bs, rel a bs ↔ bs = f a) {as : List α} {bs : List β} :
    InTurn rel as bs ↔ bs = as.flatMap f := by
  constructor
  · intro hturn
    induction hturn with
    | nil => rfl
    | cons ha _ ih => rw [(h _ _).mp ha, ih, List.flatMap_cons]
  · rintro rfl
    induction as with
    | nil => exact .nil
    | cons a as ih => exact .cons ((h a _).mpr rfl) ih

section

variable {source : String}

/-- The table of lines gives the origins of a source. -/
theorem sdl_position (source : String) (offset : Nat) :
    Origin.sdl ((LineTable.ofText source.toList).position offset) = originIn source offset := by
  rw [position_ofText, originIn]

theorem InputValueDef.declares_iff (written : InputValueDef) (value : InputValue) :
    written.Declares source value ↔
      value = written.toInputValue (LineTable.ofText source.toList) := by
  rw [toInputValue, sdl_position]
  constructor
  · rintro ⟨hname, htype, hdefault, horigin⟩
    obtain ⟨name, type, default, origin⟩ := value
    simp only at hname htype hdefault horigin
    rw [hname, htype, hdefault, horigin]
  · rintro rfl
    exact ⟨rfl, rfl, rfl, rfl⟩

theorem FieldDef.declares_iff (written : FieldDef) (field : Field) :
    written.Declares source field ↔ field = written.toField (LineTable.ofText source.toList) := by
  have hargs : ∀ args, List.Forall₂ (InputValueDef.Declares source) written.args args ↔
      args = written.args.map (·.toInputValue (LineTable.ofText source.toList)) :=
    fun args => forall₂_iff_eq_map InputValueDef.declares_iff
  rw [toField, sdl_position]
  constructor
  · rintro ⟨hname, htype, hfield, horigin⟩
    obtain ⟨name, type, args, origin⟩ := field
    simp only at hname htype hfield horigin
    rw [hname, htype, horigin, (hargs args).mp hfield]
  · rintro rfl
    exact ⟨rfl, rfl, (hargs _).mpr rfl, rfl⟩

theorem Body.declares_iff {body : Body} {kind : DeclarationKind} :
    body.Declares source kind ↔
      body.declarationKind? (LineTable.ofText source.toList) = some kind := by
  constructor
  · intro h
    cases h with
    | object h => rw [(forall₂_iff_eq_map FieldDef.declares_iff).mp h, declarationKind?]
    | input h => rw [(forall₂_iff_eq_map InputValueDef.declares_iff).mp h, declarationKind?]
    | enum h => rw [(forall₂_iff_eq_map fun _ _ => Iff.rfl).mp h, declarationKind?]
    | scalar => rfl
  · intro h
    cases body with
    | object => exact Option.some.inj h ▸ .object ((forall₂_iff_eq_map FieldDef.declares_iff).mpr rfl)
    | input =>
      exact Option.some.inj h ▸ .input ((forall₂_iff_eq_map InputValueDef.declares_iff).mpr rfl)
    | enum => exact Option.some.inj h ▸ .enum ((forall₂_iff_eq_map fun _ _ => Iff.rfl).mpr rfl)
    | scalar => exact Option.some.inj h ▸ .scalar
    | schema | interface | union | directive => cases h

theorem Definition.declares_iff {d : Definition} {decl : Declaration} :
    d.Declares source decl ↔ d.declaration? (LineTable.ofText source.toList) = some decl := by
  rw [declaration?, sdl_position, Option.map_eq_some_iff]
  constructor
  · rintro ⟨hname, hmembers, horigin⟩
    obtain ⟨name, kind, origin⟩ := decl
    simp only at hname horigin
    exact ⟨kind, Body.declares_iff.mp hmembers, by rw [hname, horigin]⟩
  · rintro ⟨kind, hkind, rfl⟩
    exact ⟨rfl, Body.declares_iff.mpr hkind, rfl⟩

theorem Entry.silent_iff (lines : LineTable) {e : Entry} : e.Silent ↔ e.declaration? lines = none := by
  constructor
  · intro h
    cases h <;> rfl
  · intro h
    cases e with
    | extension => exact .extension
    | definition d =>
      obtain ⟨offset, name, directives, body⟩ := d
      cases body with
      | object _ _ | input _ | enum _ | scalar => cases h
      | schema _ => exact .schema
      | interface _ _ => exact .interface
      | union _ => exact .union
      | directive _ _ => exact .directive

theorem Document.declares_iff {items : Document} {declarations : List Declaration} :
    items.Declares source declarations ↔
      declarations = items.filterMap (Entry.declaration? (LineTable.ofText source.toList)) := by
  constructor
  · intro h
    induction h with
    | nil => rfl
    | @type d decl _ _ hd _ ih =>
      have he : (Entry.definition d).declaration? (LineTable.ofText source.toList) = some decl :=
        Definition.declares_iff.mp hd
      rw [List.filterMap_cons_some he, ih]
    | silent he _ ih => rw [List.filterMap_cons_none ((Entry.silent_iff _).mp he), ih]
  · rintro rfl
    induction items with
    | nil => exact .nil
    | cons e items ih =>
      cases he : e.declaration? (LineTable.ofText source.toList) with
      | none =>
        rw [List.filterMap_cons_none he]
        exact .silent ((Entry.silent_iff _).mpr he) ih
      | some decl =>
        rw [List.filterMap_cons_some he]
        cases e with
        | definition d => exact .type (Definition.declares_iff.mpr he) ih
        | extension => cases he

/-! ## The One List of Skipped Constructs -/

/-- The skipped constructs that usages come to. -/
def marked (source : String) (usages : List Usage) : List Skipped :=
  usages.map fun usage => ⟨usage.construct, usage.name, originIn source usage.offset⟩

theorem map_skipped (source : String) (usages : List Usage) :
    usages.map (Usage.skipped (LineTable.ofText source.toList)) = marked source usages :=
  List.map_congr_left fun usage _ => by rw [Usage.skipped, sdl_position]

@[simp] theorem marked_nil : marked source [] = [] := rfl

@[simp] theorem marked_append (usages others : List Usage) :
    marked source (usages ++ others) = marked source usages ++ marked source others :=
  List.map_append

/-- What is said of each part of a run is said of the run. -/
theorem inTurn_iff_marked {α : Type} {rel : α → List Skipped → Prop} {usages : α → List Usage}
    (h : ∀ a skipped, rel a skipped ↔ skipped = marked source (usages a)) {as : List α}
    {skipped : List Skipped} :
    InTurn rel as skipped ↔ skipped = marked source (as.flatMap usages) := by
  rw [inTurn_iff_eq_flatMap h, marked, List.map_flatMap]
  rfl

theorem directivesLeave_iff (directives : List Name) (skipped : List Skipped) :
    DirectivesLeave source directives skipped ↔
      skipped = marked source (directiveUsages directives) := by
  have hone : ∀ directive skipped, DirectiveLeaves source directive skipped ↔
      skipped = marked source (directiveUsages [directive]) := by
    intro directive skipped
    by_cases hcore : directive.text ∈ coreDirectives
    · have hnone : directiveUsages [directive] = [] := by
        simp [directiveUsages, isCoreDirective, hcore]
      rw [hnone]
      constructor
      · rintro (_ | hother)
        · rfl
        · exact absurd hcore hother
      · rintro rfl
        exact .core hcore
    · have hlone : directiveUsages [directive] = [⟨.directive, directive.text, directive.offset⟩] := by
        simp [directiveUsages, isCoreDirective, hcore]
      rw [hlone]
      constructor
      · rintro (hcore' | _)
        · exact absurd hcore' hcore
        · rfl
      · rintro rfl
        exact .other hcore
  have hall : directives.flatMap (fun directive => directiveUsages [directive]) =
      directiveUsages directives := by
    induction directives with
    | nil => rfl
    | cons directive directives ih =>
      rw [List.flatMap_cons, ih, directiveUsages, directiveUsages, directiveUsages, ← List.map_append,
        ← List.filter_append, List.singleton_append]
  rw [DirectivesLeave, inTurn_iff_marked hone, hall]

theorem InputValueDef.leaves_iff (value : InputValueDef) (skipped : List Skipped) :
    value.Leaves source skipped ↔ skipped = marked source value.usages :=
  directivesLeave_iff value.directives skipped

theorem FieldDef.leaves_iff (field : FieldDef) (skipped : List Skipped) :
    field.Leaves source skipped ↔ skipped = marked source field.usages := by
  rw [usages, marked_append]
  constructor
  · rintro ⟨inside, own, hinside, hown, rfl⟩
    rw [(inTurn_iff_marked InputValueDef.leaves_iff).mp hinside, (directivesLeave_iff _ _).mp hown]
  · rintro rfl
    exact ⟨_, _, (inTurn_iff_marked InputValueDef.leaves_iff).mpr rfl,
      (directivesLeave_iff _ _).mpr rfl, rfl⟩

theorem enumValuesLeave_iff (values : List EnumValueDef) (skipped : List Skipped) :
    InTurn (fun value : EnumValueDef => DirectivesLeave source value.directives) values skipped ↔
      skipped = marked source (values.flatMap fun value => directiveUsages value.directives) :=
  inTurn_iff_marked fun value : EnumValueDef => directivesLeave_iff value.directives

/-- What a definition has to do with its usages, part by part. -/
theorem marked_usages (d : Definition) : marked source d.usages =
    d.body.interfaces.map (implementsIn source) ++ marked source (directiveUsages d.directives) ++
      marked source d.body.memberUsages ++
      (d.body.construct?.map fun construct => ⟨construct, d.name, originIn source d.offset⟩).toList := by
  have hinterfaces : d.body.interfaces.map (implementsIn source) =
      marked source (d.body.interfaces.map fun name => ⟨.implements, name.text, name.offset⟩) := by
    simp [marked, implementsIn]
  rw [Definition.usages, marked_append, marked_append, marked_append, hinterfaces]
  cases d.body.construct? <;> rfl

/-- A definition leaves nothing but its usages. -/
theorem Definition.Leaves.eq_marked {d : Definition} {skipped : List Skipped}
    (h : d.Leaves source skipped) : skipped = marked source d.usages := by
  rw [marked_usages]
  cases h with
  | object own inside | interface own inside =>
    rw [(directivesLeave_iff _ _).mp own, (inTurn_iff_marked FieldDef.leaves_iff).mp inside]
    simp [Body.interfaces, Body.memberUsages, Body.construct?]
  | input own inside | directive own inside =>
    rw [(directivesLeave_iff _ _).mp own, (inTurn_iff_marked InputValueDef.leaves_iff).mp inside]
    simp [Body.interfaces, Body.memberUsages, Body.construct?]
  | enum own inside =>
    rw [(directivesLeave_iff _ _).mp own, (enumValuesLeave_iff _ _).mp inside]
    simp [Body.interfaces, Body.memberUsages, Body.construct?]
  | scalar own | union own | schema own =>
    rw [(directivesLeave_iff _ _).mp own]
    simp [Body.interfaces, Body.memberUsages, Body.construct?]

theorem Definition.exists_leaves (d : Definition) : ∃ skipped, d.Leaves source skipped := by
  obtain ⟨offset, name, directives, body⟩ := d
  have own : DirectivesLeave source directives (marked source (directiveUsages directives)) :=
    (directivesLeave_iff directives _).mpr rfl
  cases body with
  | object => exact ⟨_, .object own ((inTurn_iff_marked FieldDef.leaves_iff).mpr rfl)⟩
  | interface => exact ⟨_, .interface own ((inTurn_iff_marked FieldDef.leaves_iff).mpr rfl)⟩
  | input => exact ⟨_, .input own ((inTurn_iff_marked InputValueDef.leaves_iff).mpr rfl)⟩
  | enum => exact ⟨_, .enum own ((enumValuesLeave_iff _ _).mpr rfl)⟩
  | scalar => exact ⟨_, .scalar own⟩
  | union => exact ⟨_, .union own⟩
  | directive => exact ⟨_, .directive own ((inTurn_iff_marked InputValueDef.leaves_iff).mpr rfl)⟩
  | schema => exact ⟨_, .schema own⟩

theorem Definition.leaves_iff (d : Definition) (skipped : List Skipped) :
    d.Leaves source skipped ↔ skipped = marked source d.usages := by
  -- a definition leaves something, and nothing else than its usages
  constructor
  · exact Leaves.eq_marked
  · rintro rfl
    obtain ⟨skipped, h⟩ : ∃ skipped, d.Leaves source skipped := d.exists_leaves
    rwa [← h.eq_marked]

theorem Entry.leaves_iff (e : Entry) (skipped : List Skipped) :
    e.Leaves source skipped ↔ skipped = marked source e.usages := by
  cases e with
  | definition d =>
    rw [usages, ← Definition.leaves_iff]
    constructor
    · rintro ⟨h⟩
      exact h
    · exact .definition
  | extension offset d =>
    constructor
    · rintro ⟨⟩
      rfl
    · rintro rfl
      exact .extension

/-! ## The Root Types -/

/-- Looking up a key that occurs once finds its one entry. -/
theorem lookup_eq_some_iff_mem {entries : List (RootOperation × String)}
    (h : (entries.map Prod.fst).Nodup) {operation : RootOperation} {type : String} :
    entries.lookup operation = some type ↔ (operation, type) ∈ entries := by
  induction entries with
  | nil => simp
  | cons entry entries ih =>
    obtain ⟨key, value⟩ := entry
    rw [List.map_cons, List.nodup_cons] at h
    rw [List.lookup_cons]
    by_cases hkey : operation = key
    · -- the key does not occur again
      subst hkey
      have hnot : (operation, type) ∉ entries := fun hmem =>
        h.1 (List.mem_map.mpr ⟨_, hmem, rfl⟩)
      simp [hnot, eq_comm]
    · have hne : (operation == key) = false := by simp [hkey]
      simp [hne, ih h.2, hkey]

/-- A name is that of an object if the first declaration of it is an object. -/
theorem objectNamed?_eq_some {declarations : List Declaration} {name found : String} :
    objectNamed? declarations name = some found ↔
      found = name ∧ (declarations.find? (·.name == found)).any Declaration.isObject := by
  unfold objectNamed?
  by_cases hfound : found = name
  · subst hfound
    cases declarations.find? (·.name == found) with
    | none => simp
    | some decl => cases h : decl.isObject <;> simp [h]
  · cases declarations.find? (·.name == name) with
    | none => simp [hfound]
    | some decl => cases h : decl.isObject <;> simp [h, hfound, Ne.symm hfound]

theorem firstIsObject_iff {declarations : List Declaration} {name : String} :
    FirstIsObject declarations name ↔
      (declarations.find? (·.name == name)).any Declaration.isObject := by
  constructor
  · rintro ⟨before, fields, origin, after, rfl, hbefore⟩
    have hfind : (before ++ ⟨name, .object fields, origin⟩ :: after).find? (·.name == name) =
        some ⟨name, .object fields, origin⟩ :=
      List.find?_eq_some_iff_append.mpr
        ⟨by simp, before, after, rfl, fun other hother => by simpa using hbefore other hother⟩
    rw [hfind]
    rfl
  · intro h
    cases hfind : declarations.find? (·.name == name) with
    | none => simp [hfind] at h
    | some decl =>
      obtain ⟨hname, before, after, hall, hbefore⟩ := List.find?_eq_some_iff_append.mp hfind
      obtain ⟨other, kind, origin⟩ := decl
      obtain rfl : other = name := by simpa using hname
      cases kind with
      | object fields =>
        exact ⟨before, fields, origin, after, hall, fun decl hdecl => by simpa using hbefore decl hdecl⟩
      | input _ | enum _ | scalar => simp [hfind, Declaration.isObject] at h

/-- Roots are told by the names that they give operations. -/
theorem roots_eq_iff {roots others : RootNames} :
    roots = others ↔ ∀ operation type, roots.get? operation = some type ↔
      others.get? operation = some type := by
  constructor
  · rintro rfl _ _
    rfl
  · exact fun h => RootNames.ext_get? fun operation => Option.ext (h operation)

theorem eq_rootsOfOperations_iff {operations : List (RootOperation × String)}
    (h : (operations.map Prod.fst).Nodup) {roots : RootNames} :
    roots = rootsOfOperations operations ↔
      ∀ operation type, roots.get? operation = some type ↔ (operation, type) ∈ operations := by
  have hlookup : ∀ operation, (rootsOfOperations operations).get? operation =
      operations.lookup operation := fun operation => by cases operation <;> rfl
  simp only [roots_eq_iff, hlookup, lookup_eq_some_iff_mem h]

theorem eq_conventionalRoots_iff {declarations : List Declaration} {roots : RootNames} :
    roots = conventionalRoots declarations ↔ ∀ operation type, roots.get? operation = some type ↔
      type = operation.conventionalName ∧ FirstIsObject declarations type := by
  have hobject : ∀ operation, (conventionalRoots declarations).get? operation =
      objectNamed? declarations operation.conventionalName :=
    fun operation => by cases operation <;> rfl
  simp only [roots_eq_iff, hobject, objectNamed?_eq_some, firstIsObject_iff]

/-- An item is a schema block if it is a definition of one. -/
theorem Entry.schemaBlock?_eq_some {e : Entry} {offset : Nat}
    {operations : List (RootOperation × String)} :
    e.schemaBlock? = some (offset, operations) ↔
      ∃ name directives, e = .definition ⟨offset, name, directives, .schema operations⟩ := by
  constructor
  · intro h
    cases e with
    | extension => cases h
    | definition d =>
      obtain ⟨other, name, directives, body⟩ := d
      cases body with
      | schema => cases h; exact ⟨name, directives, rfl⟩
      | _ => cases h
  · rintro ⟨name, directives, rfl⟩
    rfl

/-- The only schema block among some items. -/
theorem filterMap_schemaBlock?_eq_singleton {items : Document}
    (hone : (items.filterMap Entry.schemaBlock?).length ≤ 1) {offset : Nat}
    {operations : List (RootOperation × String)} :
    items.filterMap Entry.schemaBlock? = [(offset, operations)] ↔
      ∃ name directives, .definition ⟨offset, name, directives, .schema operations⟩ ∈ items := by
  have hmem : (offset, operations) ∈ items.filterMap Entry.schemaBlock? ↔
      ∃ name directives, .definition ⟨offset, name, directives, .schema operations⟩ ∈ items := by
    simp only [List.mem_filterMap, Entry.schemaBlock?_eq_some]
    constructor
    · rintro ⟨e, he, name, directives, rfl⟩
      exact ⟨name, directives, he⟩
    · rintro ⟨name, directives, he⟩
      exact ⟨_, he, name, directives, rfl⟩
  rw [← hmem]
  constructor
  · exact fun h => h ▸ List.mem_singleton_self _
  · intro h
    obtain ⟨block, hblock⟩ :=
      List.length_eq_one_iff.mp (Nat.le_antisymm hone (List.length_pos_of_mem h))
    rw [hblock] at h ⊢
    rw [List.mem_singleton.mp h]

theorem filterMap_schemaBlock?_eq_nil {items : Document} :
    items.filterMap Entry.schemaBlock? = [] ↔ ∀ offset name directives operations,
      .definition ⟨offset, name, directives, .schema operations⟩ ∉ items := by
  rw [List.filterMap_eq_nil_iff]
  constructor
  · intro h offset name directives operations hmem
    cases h _ hmem
  · intro h e he
    rw [Option.eq_none_iff_forall_ne_some]
    rintro ⟨offset, operations⟩ hblock
    obtain ⟨name, directives, rfl⟩ := Entry.schemaBlock?_eq_some.mp hblock
    exact h offset name directives operations he

/-! ## Schemas of Documents -/

/-- **One schema**: a document in which at most one item is a schema block, and which names no operation
    twice, means what is read from it and nothing else. -/
theorem Document.means_iff {items : Document}
    (hone : (items.filterMap Entry.schemaBlock?).length ≤ 1)
    (hdistinct : (items.operations.map Prod.fst).Nodup) {schema : Schema} :
    items.Means source schema ↔
      schema = items.toSchema (LineTable.ofText source.toList) (items.flatMap Entry.usages) := by
  have hleaves : ∀ skipped, InTurn (Entry.Leaves source) items skipped ↔
      skipped = (items.flatMap Entry.usages).map (Usage.skipped (LineTable.ofText source.toList)) :=
    fun skipped => map_skipped source _ ▸ inTurn_iff_marked Entry.leaves_iff
  have hhead : items.findSome? Entry.schemaBlock? = (items.filterMap Entry.schemaBlock?).head? :=
    List.head?_filterMap.symm
  obtain ⟨declarations, roots, origin, skipped⟩ := schema
  rw [Document.toSchema, hhead]
  constructor
  · rintro ⟨hdeclares, hroots, hskipped⟩
    dsimp only at hdeclares hroots hskipped
    obtain rfl := Document.declares_iff.mp hdeclares
    obtain rfl := (hleaves _).mp hskipped
    -- a block that names the roots is the only one, and without one no block is found
    cases hroots with
    | block hmem hroots =>
      have hblock := (filterMap_schemaBlock?_eq_singleton hone).mpr ⟨_, _, hmem⟩
      rw [Document.operations, hblock, List.flatMap_singleton] at hdistinct
      obtain rfl := (eq_rootsOfOperations_iff hdistinct).mpr hroots
      rw [hblock, ← sdl_position]
      rfl
    | convention hnone hroots =>
      obtain rfl := eq_conventionalRoots_iff.mpr hroots
      rw [filterMap_schemaBlock?_eq_nil.mpr hnone]
      rfl
  · cases hblocks : items.filterMap Entry.schemaBlock? with
    | nil =>
      rintro ⟨⟩
      exact ⟨Document.declares_iff.mpr rfl,
        .convention (filterMap_schemaBlock?_eq_nil.mp hblocks) (eq_conventionalRoots_iff.mp rfl),
        (hleaves _).mpr rfl⟩
    | cons block blocks =>
      obtain rfl : blocks = [] := by
        rw [hblocks, List.length_cons] at hone
        exact List.eq_nil_of_length_eq_zero (by omega)
      obtain ⟨offset, operations⟩ := block
      rw [Document.operations, hblocks, List.flatMap_singleton] at hdistinct
      obtain ⟨name, directives, hmem⟩ := (filterMap_schemaBlock?_eq_singleton hone).mp hblocks
      rintro ⟨⟩
      refine ⟨Document.declares_iff.mpr rfl, ?_, (hleaves _).mpr rfl⟩
      rw [sdl_position]
      exact .block hmem ((eq_rootsOfOperations_iff hdistinct).mp rfl)

end

end Sdl

end SchemaModel
