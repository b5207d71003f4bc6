import Mathlib.Data.List.Forall2
import SchemaModel.Proofs.Outline

/-! # Outlines Written as Introspection Documents

    What it is for a JSON value to write down an outline, and that reading it tells the content of
    the outline.

    * **Holds** and **Lacks**: an object has a member of some key, or has none or null there. All
      other members are free.
    * **WritesType**: a type reference as a chain of objects.
    * **Writes**: a document with the roots and types of an outline, in any order. It may have
      further types that say nothing, and core directives.
    * **tells_of_writes**: a document tells what it writes. -/

namespace SchemaModel.Introspection

open Json (Path Shape FieldSpec Slot)

/-! ## Writing -/

/-- The value is an object with the given member. -/
def Holds (json : Json) (key : String) (part : Json) : Prop :=
  json.member? key = some part

/-- The value has no such member, or null in its place. -/
def Lacks (json : Json) (key : String) : Prop :=
  json.member? key = none ∨ json.member? key = some .null

/-- The value is an array whose items write down the given ones. -/
def WritesAll {α : Type} (writes : Json → α → Prop) (json : Json) (as : List α) : Prop :=
  ∃ items, json = .array items ∧ List.Forall₂ writes items as

/-- The value has a member that is such an array. -/
def HoldsAll {α : Type} (writes : Json → α → Prop) (json : Json) (key : String) (as : List α) :
    Prop :=
  ∃ part, Holds json key part ∧ WritesAll writes part as

/-- The value is an object with a name. -/
def Named (json : Json) (name : String) : Prop :=
  Holds json "name" (.string name)

/-- **Chains**: a type reference is written link by link, with the wrapped type under `ofType`. -/
inductive WritesType : Json → TypeRef String → Prop
  | named {json : Json} {kind : TypeKind} {name : String} :
      kind.isWrapper = false → Holds json "kind" (.string kind.text) → Named json name →
      Lacks json "ofType" → WritesType json (.named name)
  | list {json part : Json} {item : TypeRef String} :
      Holds json "kind" (.string "LIST") → Lacks json "name" → Holds json "ofType" part →
      WritesType part item → WritesType json (.list item)
  | nonNull {json part : Json} {inner : TypeRef String} :
      Holds json "kind" (.string "NON_NULL") → Lacks json "name" → Holds json "ofType" part →
      WritesType part inner → inner.isNonNull = false → WritesType json (.nonNull inner)

/-- A default is written as text that reads as its value. -/
def WritesDefault (json : Json) : Option Value → Prop
  | none => Lacks json "defaultValue"
  | some value =>
    ∃ text, Holds json "defaultValue" (.string text) ∧ Sdl.readValue text = .ok value

/-- An argument or input field. -/
structure WritesInput (json : Json) (input : InputOutline) : Prop where
  name : Named json input.name
  type : ∃ part, Holds json "type" part ∧ WritesType part input.type
  defaultValue : WritesDefault json input.defaultValue

/-- A field. -/
structure WritesField (json : Json) (field : FieldOutline) : Prop where
  name : Named json field.name
  args : HoldsAll WritesInput json "args" field.args
  type : ∃ part, Holds json "type" part ∧ WritesType part field.type

/-- The kind under which a type is written. -/
def bodyKind : TypeBody → TypeKind
  | .object .. => .object
  | .input _ => .inputObject
  | .enum _ => .enum
  | .scalar => .scalar
  | .union _ => .union
  | .interface _ => .interface

/-- The interfaces of a type need not be listed if there are none. -/
def WritesInterfaces (json : Json) (names : List String) : Prop :=
  HoldsAll (fun part name => WritesType part (.named name)) json "interfaces" names ∨
    names = [] ∧ Lacks json "interfaces"

/-- The members of a type. The values of an enum come in any order. -/
def WritesBody (json : Json) : TypeBody → Prop
  | .object interfaces fields =>
    HoldsAll WritesField json "fields" fields ∧ WritesInterfaces json interfaces ∧
      Lacks json "inputFields" ∧ Lacks json "enumValues"
  | .interface fields =>
    HoldsAll WritesField json "fields" fields ∧ WritesInterfaces json [] ∧
      Lacks json "inputFields" ∧ Lacks json "enumValues"
  | .input fields =>
    HoldsAll WritesInput json "inputFields" fields ∧
      Lacks json "fields" ∧ Lacks json "enumValues" ∧ Lacks json "interfaces"
  | .enum values =>
    (∃ listed, listed.Perm values ∧ HoldsAll Named json "enumValues" listed) ∧
      Lacks json "fields" ∧ Lacks json "inputFields" ∧ Lacks json "interfaces"
  | .scalar | .union _ =>
    Lacks json "fields" ∧ Lacks json "inputFields" ∧ Lacks json "enumValues" ∧
      Lacks json "interfaces"

/-- An entry among the types. -/
structure WritesEntry (json : Json) (type : TypeOutline) : Prop where
  kind : Holds json "kind" (.string (bodyKind type.body).text)
  name : Named json type.name
  body : WritesBody json type.body

/-- A root, which may be missing if it is not named. -/
def WritesRoot (json : Json) (key : String) : Option String → Prop
  | none => Lacks json key
  | some name => ∃ part, Holds json key part ∧ Named part name

/-- **Writing as a schema object**: the types stand in any order, among further ones that are
    built-in scalars or part of the introspection system. Core directives may be listed. -/
structure WritesSchema (json : Json) (outline : Outline) : Prop where
  query : WritesRoot json "queryType" (some outline.query)
  mutation : WritesRoot json "mutationType" outline.mutation
  subscription : WritesRoot json "subscriptionType" outline.subscription
  types : ∃ listed others, HoldsAll WritesEntry json "types" listed ∧
    listed.Perm (outline.types ++ others) ∧
    ∀ type ∈ others, type.isIdle ∨ isMetaName type.name
  directives : json.member? "directives" = none ∨
    ∃ names, HoldsAll Named json "directives" names ∧ ∀ name ∈ names, isCoreDirective name

/-- **Writing as a document**: the schema object alone, or inside one of the envelopes. -/
inductive Writes : Json → Outline → Prop
  | bare {document : Json} {outline : Outline} :
      document.member? "data" = none → document.member? "__schema" = none →
      WritesSchema document outline → Writes document outline
  | schemaKey {document schema : Json} {outline : Outline} :
      document.member? "data" = none → Holds document "__schema" schema →
      WritesSchema schema outline → Writes document outline
  | response {document data schema : Json} {outline : Outline} :
      Holds document "data" data → Holds data "__schema" schema →
      WritesSchema schema outline → Writes document outline

/-! ## Records -/

section

variable {json part : Json} {α : Type} {shape : Shape α} {a : α}

/-- A value with a member is an object. -/
theorem Holds.exists_members {key : String} (h : Holds json key part) :
    ∃ members, json = .object members := by
  cases json with
  | object members => exact ⟨members, rfl⟩
  | _ => cases h

theorem Holds.part?_eq (field : FieldSpec) (h : Holds json field.name part) :
    json.part? field = some part := by
  obtain ⟨members, rfl⟩ := h.exists_members
  exact h

/-- A field is read from the member of its name. -/
theorem Holds.get_read (field : FieldSpec) (h : Holds json field.name part)
    (hpart : shape part = .ok a) : (Slot.read json field shape).get = .ok a := by
  simp [Slot.read, Slot.get, h.part?_eq field, hpart, Shape.under, Except.mapError]

/-- The name of a record is read wherever it stands among the fields. -/
theorem Named.get_read (index : Nat) {name : String} (h : Named json name) :
    (Slot.read json ⟨index, "name", false, false⟩ Shape.string).get = .ok name :=
  Holds.get_read ⟨index, "name", false, false⟩ h rfl

theorem Holds.getD_read (default : α) (field : FieldSpec) (h : Holds json field.name part)
    (hpart : shape part = .ok a) : (Slot.read json field shape).getD default = .ok a := by
  simp [Slot.read, Slot.getD, h.part?_eq field, hpart, Shape.under, Except.mapError]

/-- A field that is missing or null reads as nothing. -/
theorem Lacks.getD_read {members : List (String × Json)} (field : FieldSpec)
    (h : Lacks (.object members) field.name) :
    (Slot.read (.object members) field (Shape.nullable shape)).getD none = .ok none := by
  have hpart : Json.part? (.object members) field =
      Json.member? (.object members) field.name := rfl
  rcases h with hnone | hnull
  · simp [Slot.read, Slot.getD, hpart, hnone]
  · simp [Slot.read, Slot.getD, hpart, hnull, Shape.nullable, Shape.under, Except.mapError]

/-- **Fitting fields**: a field that is read without a misfit, or is missing and may be. -/
def Fits (slot : Slot Unit) : Prop :=
  slot.result? = some (.ok ()) ∨ slot.result? = none ∧ slot.field.optional

theorem fits_of_get {slot : Slot α} (h : slot.get = .ok a) : Fits slot.erase := by
  unfold Slot.get at h
  cases hresult : slot.result? with
  | none => simp [hresult, Shape.misfit] at h
  | some result =>
    obtain rfl : result = .ok a := by simpa [hresult] using h
    exact .inl (by simp [Slot.erase, hresult, Except.map])

theorem fits_of_getD {slot : Slot α} {default : α} (hoptional : slot.field.optional)
    (h : slot.getD default = .ok a) : Fits slot.erase := by
  unfold Slot.getD at h
  cases hresult : slot.result? with
  | none => exact .inr ⟨by simp [Slot.erase, hresult], hoptional⟩
  | some result =>
    obtain rfl : result = .ok a := by simpa [hresult] using h
    exact .inl (by simp [Slot.erase, hresult, Except.map])

/-- An object passes as a record if all fields fit. -/
theorem checkRecord_eq_ok {members : List (String × Json)} {record : String}
    {slots : List (Slot Unit)} (h : ∀ slot ∈ slots, Fits slot) :
    Json.checkRecord (.object members) record slots = .ok () := by
  -- no member is a misfit, and no field that has to be there is missing
  have hmisfit : (members.filterMap fun member =>
      slots.find? (·.field.name == member.1)).findSome? Slot.misfit? = none := by
    refine List.findSome?_eq_none_iff.mpr fun slot hslot => ?_
    obtain ⟨member, -, hfind⟩ := List.mem_filterMap.mp hslot
    rcases h slot (List.mem_of_find?_eq_some hfind) with hok | ⟨hnone, -⟩
    · simp [Slot.misfit?, hok]
    · simp [Slot.misfit?, hnone]
  have hmissing : slots.find? (fun slot => slot.result?.isNone && !slot.field.optional) =
      none := by
    refine List.find?_eq_none.mpr fun slot hslot => ?_
    rcases h slot hslot with hok | ⟨-, hoptional⟩
    · simp [hok]
    · simp [hoptional]
  simp only [Json.checkRecord, hmisfit, hmissing]

/-- Parts that are not null read the same where null is allowed. -/
theorem nullable_eq_ok (hpart : part ≠ .null) (h : shape part = .ok a) :
    Shape.nullable shape part = .ok (some a) := by
  cases part with
  | null => exact absurd rfl hpart
  | _ => simp only [Shape.nullable, h, Except.map]

theorem Holds.ne_null {key : String} (h : Holds json key part) : json ≠ .null := by
  obtain ⟨members, rfl⟩ := h.exists_members
  exact fun h => by cases h

end

/-! ## Type References -/

theorem TypeKind.shape_text (kind : TypeKind) :
    TypeKind.shape (.string kind.text) = .ok kind := by
  cases kind <;> rfl

/-- The wrapped type of a link is a field like the others. -/
theorem TypeChain.shape_eq (json : Json) : TypeChain.shape json = (do
    let kind := Slot.read json kindField TypeKind.shape
    let name := Slot.read json linkNameField (Shape.nullable Shape.string)
    let inner := Slot.read json ofTypeField (Shape.nullable TypeChain.shape)
    json.checkRecord "TypeRefJson" [kind.erase, name.erase, inner.erase]
    return .ofLink (← kind.get) (← name.getD none) (← inner.getD none)) := by
  rw [TypeChain.shape]
  unfold Slot.read
  -- the recursive call is written out there for the sake of termination
  split
  · rename_i part h
    conv_rhs => rw [h]
    cases part <;> rfl
  · rename_i h
    conv_rhs => rw [h]
    rfl

/-- A link is read if its fields are. -/
theorem TypeChain.shape_eq_ok {json : Json} {kind : TypeKind} {name : Option String}
    {inner : Option TypeChain} (hkind : Holds json "kind" (.string kind.text))
    (hname : (Slot.read json linkNameField (Shape.nullable Shape.string)).getD none = .ok name)
    (hinner : (Slot.read json ofTypeField (Shape.nullable TypeChain.shape)).getD none =
      .ok inner) : TypeChain.shape json = .ok (.ofLink kind name inner) := by
  have hkindSlot : (Slot.read json kindField TypeKind.shape).get = .ok kind :=
    Holds.get_read kindField hkind (TypeKind.shape_text kind)
  obtain ⟨members, rfl⟩ := hkind.exists_members
  rw [TypeChain.shape_eq]
  simp only [hkindSlot, hname, hinner]
  rw [checkRecord_eq_ok]
  · rfl
  · simp [fits_of_get hkindSlot, fits_of_getD rfl hname, fits_of_getD rfl hinner]

theorem WritesType.ne_null {json : Json} {type : TypeRef String} (h : WritesType json type) :
    json ≠ .null := by
  cases h with
  | named _ hkind _ _ | list hkind _ _ _ | nonNull hkind _ _ _ _ => exact hkind.ne_null

/-- What a chain says, wherever it stands. -/
structure TypeChain.Says (chain : TypeChain) (type : TypeRef String) : Prop where
  toTypeRef : ∀ path, chain.toTypeRef path = .ok type
  name : ∀ leaf, type = .named leaf → chain.name = some leaf

/-- A written type reference is read as a chain that says it. -/
theorem WritesType.exists_chain {json : Json} {type : TypeRef String} (h : WritesType json type) :
    ∃ chain, TypeChain.shape json = .ok chain ∧ chain.Says type := by
  -- lists and non-null types are read alike
  have hwrapping : ∀ {json part : Json} {kind : TypeKind} {inner : TypeChain},
      Holds json "kind" (.string kind.text) → Lacks json "name" → Holds json "ofType" part →
      part ≠ .null → TypeChain.shape part = .ok inner →
      TypeChain.shape json = .ok (.wrapping kind none inner) := by
    intro json part kind inner hkind hname hofType hnull hinner
    have hinnerSlot := Holds.getD_read none ofTypeField hofType
      (nullable_eq_ok hnull hinner)
    obtain ⟨members, rfl⟩ := hkind.exists_members
    exact TypeChain.shape_eq_ok hkind (Lacks.getD_read linkNameField hname) hinnerSlot
  induction h with
  | @named json kind name hkind hkindHolds hname hofType =>
    have hnameSlot := Holds.getD_read none linkNameField hname
      (nullable_eq_ok (by simp) (show Shape.string (.string name) = .ok name from rfl))
    obtain ⟨members, rfl⟩ := hkindHolds.exists_members
    refine ⟨.last kind (some name), TypeChain.shape_eq_ok hkindHolds hnameSlot
      (Lacks.getD_read ofTypeField hofType), ?_, ?_⟩
    · intro path
      simp [TypeChain.toTypeRef, hkind, TypeChain.toTypeRef.leaf]
    · rintro leaf ⟨rfl⟩
      rfl
  | list hkind hname hofType hitem ih =>
    obtain ⟨inner, hshape, hgives⟩ := ih
    refine ⟨.wrapping .list none inner, hwrapping hkind hname hofType hitem.ne_null hshape, ?_,
      fun leaf h => by cases h⟩
    intro path
    simp [TypeChain.toTypeRef, TypeKind.isWrapper, hgives.toTypeRef]
  | nonNull hkind hname hofType hinner hnormal ih =>
    obtain ⟨inner, hshape, hgives⟩ := ih
    refine ⟨.wrapping .nonNull none inner, hwrapping hkind hname hofType hinner.ne_null hshape, ?_,
      fun leaf h => by cases h⟩
    intro path
    -- the wrapped type is not non-null itself
    simp only [TypeChain.toTypeRef, TypeKind.isWrapper, hgives.toTypeRef, if_true, bind,
      Except.bind]
    simp [TypeRef.nonNull?, hnormal, pure, Except.pure]

/-! ## Members -/

section

variable {α β γ : Type} {writes : Json → α → Prop} {shape : Shape β} {tells : β → α → Prop}

/-- A written list is read item by item. -/
theorem exists_list {json : Json} {as : List α} (h : WritesAll writes json as)
    (hitem : ∀ item a, writes item a → ∃ b, shape item = .ok b ∧ tells b a) :
    ∃ bs, Shape.list shape json = .ok bs ∧ List.Forall₂ tells bs as := by
  obtain ⟨items, rfl, hitems⟩ := h
  -- the index only matters for misfits
  have hfrom : ∀ index, ∃ bs, Shape.listFrom shape index items = .ok bs ∧
      List.Forall₂ tells bs as := by
    induction hitems with
    | nil => exact fun index => ⟨[], rfl, .nil⟩
    | cons ha _ ih =>
      intro index
      obtain ⟨b, hb, htells⟩ := hitem _ _ ha
      obtain ⟨bs, hbs, hall⟩ := ih (index + 1)
      exact ⟨b :: bs, by simp [Shape.listFrom, hb, hbs, Shape.under, Except.mapError, bind,
        Except.bind, pure, Except.pure], .cons htells hall⟩
  exact hfrom 0

/-- A list that may be missing is read where it is written. -/
theorem HoldsAll.exists_read {json : Json} {as : List α} (field : FieldSpec)
    (h : HoldsAll writes json field.name as)
    (hitem : ∀ item a, writes item a → ∃ b, shape item = .ok b ∧ tells b a) :
    ∃ bs, (Slot.read json field (Shape.nullable (Shape.list shape))).getD none = .ok (some bs) ∧
      List.Forall₂ tells bs as := by
  obtain ⟨part, hpart, hall⟩ := h
  obtain ⟨bs, hbs, htells⟩ := exists_list hall hitem
  obtain ⟨items, rfl, -⟩ := hall
  exact ⟨bs, Holds.getD_read none field hpart (nullable_eq_ok (by simp) hbs), htells⟩

/-- A list that is converted item by item gives what the items say. -/
theorem exists_convertFrom {convert : Path → β → Fallible γ} {outline : γ → α} {bs : List β}
    {as : List α} (h : List.Forall₂ tells bs as)
    (hitem : ∀ b a, tells b a → ∀ path, ∃ c, convert path b = .ok c ∧ outline c = a)
    (path : Path) (index : Nat) :
    ∃ cs, convertFrom path convert index bs = .ok cs ∧ cs.map outline = as := by
  induction h generalizing index with
  | nil => exact ⟨[], rfl, rfl⟩
  | cons htells _ ih =>
    obtain ⟨c, hc, rfl⟩ := hitem _ _ htells (path ++ [.index index])
    obtain ⟨cs, hcs, rfl⟩ := ih (index + 1)
    exact ⟨c :: cs, by simp [convertFrom, hc, hcs, bind, Except.bind, pure, Except.pure], rfl⟩

end

/-- An argument or input field as read says what it is in the outline. -/
def InputValueNode.Says (node : InputValueNode) (input : InputOutline) : Prop :=
  ∀ envelope path, ∃ value, inputValue envelope path node = .ok value ∧ value.outline = input

theorem WritesInput.exists_node {json : Json} {input : InputOutline} (h : WritesInput json input) :
    ∃ node, InputValueNode.shape json = .ok node ∧ node.Says input := by
  obtain ⟨typePart, htype, hwrites⟩ := h.type
  obtain ⟨chain, hchain, hgives⟩ := hwrites.exists_chain
  have hnameSlot := Named.get_read 0 h.name
  have htypeSlot := Holds.get_read ⟨1, "type", false, false⟩ htype hchain
  obtain ⟨members, rfl⟩ := h.name.exists_members
  obtain ⟨text, hdefaultSlot, hdefault⟩ : ∃ text,
      (Slot.read (.object members) ⟨2, "defaultValue", true, false⟩
        (Shape.nullable Shape.string)).getD none = .ok text ∧
      ∀ path, Introspection.defaultValue path text = .ok input.defaultValue := by
    have hwritten := h.defaultValue
    cases hvalue : input.defaultValue with
    | none =>
      rw [hvalue] at hwritten
      exact ⟨none, Lacks.getD_read ⟨2, "defaultValue", true, false⟩ hwritten, fun _ => rfl⟩
    | some value =>
      rw [hvalue] at hwritten
      obtain ⟨text, htext, hread⟩ := hwritten
      refine ⟨some text, Holds.getD_read none ⟨2, "defaultValue", true, false⟩ htext rfl, ?_⟩
      intro path
      simp [Introspection.defaultValue, hread]
  refine ⟨⟨input.name, chain, text⟩, ?_, ?_⟩
  · unfold InputValueNode.shape
    simp only [hnameSlot, htypeSlot, hdefaultSlot]
    rw [checkRecord_eq_ok]
    · rfl
    · simp [fits_of_get hnameSlot, fits_of_get htypeSlot, fits_of_getD rfl hdefaultSlot]
  · intro envelope path
    refine ⟨⟨input.name, input.type, input.defaultValue, originAt envelope path⟩, ?_, rfl⟩
    simp [inputValue, hdefault, hgives.toTypeRef, bind, Except.bind, pure, Except.pure]

/-- A field as read says what it is in the outline. -/
def FieldNode.Says (node : FieldNode) (outline : FieldOutline) : Prop :=
  ∀ envelope path, ∃ declared, field envelope path node = .ok declared ∧
    declared.outline = outline

theorem WritesField.exists_node {json : Json} {outline : FieldOutline}
    (h : WritesField json outline) :
    ∃ node, FieldNode.shape json = .ok node ∧ node.Says outline := by
  obtain ⟨typePart, htype, hwrites⟩ := h.type
  obtain ⟨chain, hchain, hgives⟩ := hwrites.exists_chain
  obtain ⟨argsPart, hargs, hargsWritten⟩ := h.args
  obtain ⟨args, hargsList, hargsSay⟩ := exists_list hargsWritten fun _ _ harg =>
    WritesInput.exists_node harg
  have hnameSlot := Named.get_read 0 h.name
  have hargsSlot := Holds.get_read ⟨1, "args", false, false⟩ hargs hargsList
  have htypeSlot := Holds.get_read ⟨2, "type", false, false⟩ htype hchain
  obtain ⟨members, rfl⟩ := h.name.exists_members
  refine ⟨⟨outline.name, args, chain⟩, ?_, ?_⟩
  · unfold FieldNode.shape
    simp only [hnameSlot, htypeSlot, hargsSlot]
    rw [checkRecord_eq_ok]
    · rfl
    · simp [fits_of_get hnameSlot, fits_of_get htypeSlot, fits_of_get hargsSlot]
  · intro envelope path
    obtain ⟨values, hvalues, houtlines⟩ := exists_convertFrom hargsSay
      (fun _ _ hgives path => hgives envelope path) (path ++ [.key "args"]) 0
    refine ⟨⟨outline.name, outline.type, values, originAt envelope path⟩, ?_, ?_⟩
    · simp [field, hvalues, hgives.toTypeRef, bind, Except.bind, pure, Except.pure]
    · simp [Field.outline, houtlines]

/-! ## Types -/

/-- **Items tell**: no item is a fault, and together they declare and skip what is given. -/
def ItemsTell (items : List (Fallible Item)) (declared : List DeclarationContent)
    (skipped : List (Construct × String)) : Prop :=
  ∃ its : List Item, items = its.map .ok ∧
    (Schema.counted (its.filterMap Item.declaration?)).map Declaration.content = declared ∧
    (its.filterMap Item.skipped?).map Skipped.what = skipped

namespace ItemsTell

theorem nil : ItemsTell [] [] [] := ⟨[], rfl, rfl, rfl⟩

theorem append {items others : List (Fallible Item)}
    {declared otherDeclared : List DeclarationContent}
    {skipped otherSkipped : List (Construct × String)} (h : ItemsTell items declared skipped)
    (ho : ItemsTell others otherDeclared otherSkipped) :
    ItemsTell (items ++ others) (declared ++ otherDeclared) (skipped ++ otherSkipped) := by
  obtain ⟨its, rfl, rfl, rfl⟩ := h
  obtain ⟨otherIts, rfl, rfl, rfl⟩ := ho
  exact ⟨its ++ otherIts, by simp, by simp [Schema.counted], by simp⟩

/-- What a list of parts tells, if each part tells its own share wherever it stands. -/
theorem flatten_mapIdx {α β : Type} {tells : β → α → Prop} {declared : α → List DeclarationContent}
    {skipped : α → List (Construct × String)} {bs : List β} {as : List α}
    (h : List.Forall₂ tells bs as) {f : Nat → β → List (Fallible Item)}
    (hpart : ∀ index b a, tells b a → ItemsTell (f index b) (declared a) (skipped a)) :
    ItemsTell (bs.mapIdx f).flatten (as.flatMap declared) (as.flatMap skipped) := by
  -- the parts behind the first one are indexed from one on
  induction h generalizing f with
  | nil => exact nil
  | cons htells _ ih =>
    rw [List.mapIdx_cons, List.flatten_cons, List.flatMap_cons, List.flatMap_cons]
    exact (hpart 0 _ _ htells).append (ih fun index => hpart (index + 1))

end ItemsTell

/-- A type as read says what it is in the outline. -/
structure TypeNode.Says (node : TypeNode) (type : TypeOutline) : Prop where
  name : node.name = type.name
  items : ∀ envelope path,
    ItemsTell (typeItems envelope path node) type.content?.toList type.skipped

/-- A record of a name is read as the name. -/
theorem nameShape_eq_ok {json : Json} {name : String} (record : String) (h : Named json name) :
    nameShape record json = .ok name := by
  have hnameSlot := Named.get_read 0 h
  obtain ⟨members, rfl⟩ := h.exists_members
  unfold nameShape
  simp only [hnameSlot]
  rw [checkRecord_eq_ok]
  · rfl
  · simp [fits_of_get hnameSlot]

section

variable {json : Json} {kind : TypeKind} {name : String} {fields : Option (List FieldNode)}
  {inputFields : Option (List InputValueNode)} {enumValues : Option (List String)}
  {interfaces : Option (List TypeChain)}

/-- A type is read if its fields are. -/
theorem TypeNode.shape_eq_ok (hkind : Holds json "kind" (.string kind.text))
    (hname : Named json name)
    (hfields : (Slot.read json ⟨2, "fields", true, false⟩
      (Shape.nullable (Shape.list FieldNode.shape))).getD none = .ok fields)
    (hinputFields : (Slot.read json ⟨3, "inputFields", true, false⟩
      (Shape.nullable (Shape.list InputValueNode.shape))).getD none = .ok inputFields)
    (henumValues : (Slot.read json ⟨4, "enumValues", true, false⟩
      (Shape.nullable (Shape.list (nameShape "EnumValue")))).getD none = .ok enumValues)
    (hinterfaces : (Slot.read json ⟨5, "interfaces", true, false⟩
      (Shape.nullable (Shape.list TypeChain.shape))).getD none = .ok interfaces) :
    TypeNode.shape json = .ok ⟨kind, name, fields, inputFields, enumValues, interfaces⟩ := by
  have hkindSlot := Holds.get_read kindField hkind (TypeKind.shape_text kind)
  have hnameSlot := Named.get_read 1 hname
  obtain ⟨members, rfl⟩ := hname.exists_members
  unfold TypeNode.shape
  simp only [hkindSlot, hnameSlot, hfields, hinputFields, henumValues, hinterfaces]
  rw [checkRecord_eq_ok]
  · rfl
  · simp [fits_of_get hkindSlot, fits_of_get hnameSlot, fits_of_getD rfl hfields,
      fits_of_getD rfl hinputFields, fits_of_getD rfl henumValues, fits_of_getD rfl hinterfaces]

end

/-- Written interfaces are read as chains with their names. -/
theorem WritesInterfaces.exists_read {json : Json} {names : List String}
    {members : List (String × Json)} (hjson : json = .object members)
    (h : WritesInterfaces json names) :
    ∃ chains, (Slot.read json ⟨5, "interfaces", true, false⟩
        (Shape.nullable (Shape.list TypeChain.shape))).getD none = .ok chains ∧
      List.Forall₂ (fun chain name => TypeChain.name chain = some name) (chains.getD []) names := by
  rcases h with hall | ⟨rfl, hlacks⟩
  · obtain ⟨chains, hchains, hgives⟩ := HoldsAll.exists_read ⟨5, "interfaces", true, false⟩ hall
      fun _ _ hwrites => hwrites.exists_chain
    exact ⟨some chains, hchains, hgives.imp fun _ name hgives => hgives.name name rfl⟩
  · subst hjson
    exact ⟨none, Lacks.getD_read ⟨5, "interfaces", true, false⟩ hlacks, .nil⟩

/-- A declared type tells its content. -/
theorem declare_tells (envelope : Envelope) (path : Path) (kind : DeclarationKind)
    (type : TypeOutline) (h : type.body.content? = some kind.content) :
    ItemsTell [declare envelope path type.name (.ok kind)] type.content?.toList [] := by
  refine ⟨[.declared ⟨type.name, kind, originAt envelope path⟩], rfl, ?_, rfl⟩
  have hidle : Declaration.isIdle ⟨type.name, kind, originAt envelope path⟩ = type.isIdle := by
    unfold TypeOutline.isIdle Declaration.isIdle Declaration.isScalar
    cases hbody : type.body <;> cases kind <;>
      simp_all [TypeBody.content?, DeclarationKind.content]
  by_cases hi : type.isIdle <;>
    simp [TypeOutline.content?, Schema.counted, Item.declaration?, Declaration.content, h, hi,
      hidle]

theorem skip_tells (envelope : Envelope) (path : Path) (construct : Construct) (name : String) :
    ItemsTell [skip envelope path construct name] [] [(construct, name)] :=
  ⟨[.skipped ⟨construct, name, originAt envelope path⟩], rfl, rfl, rfl⟩

/-- The interfaces of an object are skipped one by one. -/
theorem implements_tell (envelope : Envelope) {chains : List TypeChain} {names : List String}
    (h : List.Forall₂ (fun chain name => TypeChain.name chain = some name) chains names)
    (paths : Nat → Path) :
    ItemsTell (chains.mapIdx fun k chain =>
        skip envelope (paths k) .implements (chain.name.getD "")) []
      (names.map fun name => (.implements, name)) := by
  induction h generalizing paths with
  | nil => exact ItemsTell.nil
  | cons hname _ ih =>
    rw [List.mapIdx_cons, List.map_cons, hname, Option.getD_some]
    exact (skip_tells envelope (paths 0) .implements _).append (ih fun k => paths (k + 1))

section

variable {json : Json} {name : String} (hname : Named json name)

include hname

/-- An interface is read as a node that says nothing of the interfaces that it implements. -/
theorem exists_interface {interfaces : List String} {fields : List FieldOutline}
    (hkind : Holds json "kind" (.string (TypeKind.text .interface)))
    (hfields : HoldsAll WritesField json "fields" fields)
    (hinterfaces : WritesInterfaces json interfaces) (hinputs : Lacks json "inputFields")
    (hvalues : Lacks json "enumValues") :
    ∃ node, TypeNode.shape json = .ok node ∧ node.Says ⟨name, .interface fields⟩ := by
  obtain ⟨members, rfl⟩ := hname.exists_members
  obtain ⟨nodes, hnodes, -⟩ := HoldsAll.exists_read ⟨2, "fields", true, false⟩ hfields
    fun _ _ hfield => WritesField.exists_node hfield
  obtain ⟨chains, hchains, -⟩ := hinterfaces.exists_read rfl
  refine ⟨_, TypeNode.shape_eq_ok hkind hname hnodes
    (Lacks.getD_read _ hinputs) (Lacks.getD_read _ hvalues) hchains, rfl, fun envelope path => ?_⟩
  simpa [typeItems, TypeOutline.content?, TypeBody.content?, TypeOutline.skipped] using
    skip_tells envelope path .interface name

/-- An object is read as a node that says its interfaces, then the object itself. -/
theorem exists_object {interfaces : List String} {fields : List FieldOutline}
    (hkind : Holds json "kind" (.string (TypeKind.text .object)))
    (hfields : HoldsAll WritesField json "fields" fields)
    (hinterfaces : WritesInterfaces json interfaces) (hinputs : Lacks json "inputFields")
    (hvalues : Lacks json "enumValues") :
    ∃ node, TypeNode.shape json = .ok node ∧ node.Says ⟨name, .object interfaces fields⟩ := by
  obtain ⟨members, rfl⟩ := hname.exists_members
  obtain ⟨nodes, hnodes, hsay⟩ := HoldsAll.exists_read ⟨2, "fields", true, false⟩ hfields
    fun _ _ hfield => WritesField.exists_node hfield
  obtain ⟨chains, hchains, hnames⟩ := hinterfaces.exists_read rfl
  refine ⟨_, TypeNode.shape_eq_ok hkind hname hnodes (Lacks.getD_read _ hinputs)
    (Lacks.getD_read _ hvalues) hchains, rfl, fun envelope path => ?_⟩
  obtain ⟨declared, hdeclared, houtlines⟩ := exists_convertFrom hsay
    (fun _ _ hgives path => hgives envelope path) (path ++ [.key "fields"]) 0
  have htype := declare_tells envelope path (.object declared) ⟨name, .object interfaces fields⟩
    (by simp [TypeBody.content?, DeclarationKind.content, houtlines])
  have himplements := implements_tell envelope hnames
    fun k => path ++ [.key "interfaces", .index k]
  simpa [typeItems, require, hdeclared, Except.map, TypeOutline.skipped] using
    himplements.append htype

theorem exists_input {fields : List InputOutline}
    (hkind : Holds json "kind" (.string (TypeKind.text .inputObject)))
    (hinputs : HoldsAll WritesInput json "inputFields" fields) (hfields : Lacks json "fields")
    (hvalues : Lacks json "enumValues") (hinterfaces : Lacks json "interfaces") :
    ∃ node, TypeNode.shape json = .ok node ∧ node.Says ⟨name, .input fields⟩ := by
  obtain ⟨members, rfl⟩ := hname.exists_members
  obtain ⟨nodes, hnodes, hsay⟩ := HoldsAll.exists_read ⟨3, "inputFields", true, false⟩ hinputs
    fun _ _ hinput => WritesInput.exists_node hinput
  refine ⟨_, TypeNode.shape_eq_ok hkind hname (Lacks.getD_read _ hfields) hnodes
    (Lacks.getD_read _ hvalues) (Lacks.getD_read _ hinterfaces), rfl, fun envelope path => ?_⟩
  obtain ⟨declared, hdeclared, houtlines⟩ := exists_convertFrom hsay
    (fun _ _ hgives path => hgives envelope path) (path ++ [.key "inputFields"]) 0
  have htype := declare_tells envelope path (.input declared) ⟨name, .input fields⟩
    (by simp [TypeBody.content?, DeclarationKind.content, houtlines])
  simpa [typeItems, require, hdeclared, bind, Except.bind, pure, Except.pure,
    TypeOutline.skipped] using htype

/-- The values of an enum are listed in some order, which its content does not see. -/
theorem exists_enum {values listed : List String}
    (hkind : Holds json "kind" (.string (TypeKind.text .enum))) (hperm : listed.Perm values)
    (hlisted : HoldsAll Named json "enumValues" listed) (hfields : Lacks json "fields")
    (hinputs : Lacks json "inputFields") (hinterfaces : Lacks json "interfaces") :
    ∃ node, TypeNode.shape json = .ok node ∧ node.Says ⟨name, .enum values⟩ := by
  obtain ⟨members, rfl⟩ := hname.exists_members
  have hvalue : ∀ item value, Named item value →
      ∃ read, nameShape "EnumValue" item = .ok read ∧ read = value :=
    fun _ value hnamed => ⟨value, nameShape_eq_ok "EnumValue" hnamed, rfl⟩
  obtain ⟨names, hnames, hsay⟩ := HoldsAll.exists_read ⟨4, "enumValues", true, false⟩ hlisted
    hvalue
  obtain rfl : names = listed := List.forall₂_eq_eq_eq ▸ hsay
  refine ⟨_, TypeNode.shape_eq_ok hkind hname (Lacks.getD_read _ hfields)
    (Lacks.getD_read _ hinputs) hnames (Lacks.getD_read _ hinterfaces), rfl,
    fun envelope path => ?_⟩
  have htype := declare_tells envelope path (.enum names) ⟨name, .enum values⟩
    (by simp [TypeBody.content?, DeclarationKind.content, hperm.symm])
  simpa [typeItems, require, bind, Except.bind, pure, Except.pure, TypeOutline.skipped] using htype

/-- A type without members is read as a node that has none. -/
theorem shape_bare {kind : TypeKind} (hkind : Holds json "kind" (.string kind.text))
    (hfields : Lacks json "fields") (hinputs : Lacks json "inputFields")
    (hvalues : Lacks json "enumValues") (hinterfaces : Lacks json "interfaces") :
    TypeNode.shape json = .ok ⟨kind, name, none, none, none, none⟩ := by
  obtain ⟨members, rfl⟩ := hname.exists_members
  exact TypeNode.shape_eq_ok hkind hname (Lacks.getD_read _ hfields) (Lacks.getD_read _ hinputs)
    (Lacks.getD_read _ hvalues) (Lacks.getD_read _ hinterfaces)

end

/-- A written type is read as a node that says it. -/
theorem WritesEntry.exists_node {json : Json} {type : TypeOutline} (h : WritesEntry json type) :
    ∃ node, TypeNode.shape json = .ok node ∧ node.Says type := by
  obtain ⟨hkind, hname, hbody⟩ := h
  obtain ⟨name, body⟩ := type
  cases body with
  | object interfaces fields =>
    obtain ⟨hfields, hinterfaces, hinputs, hvalues⟩ := hbody
    exact exists_object hname hkind hfields hinterfaces hinputs hvalues
  | input fields =>
    obtain ⟨hinputs, hfields, hvalues, hinterfaces⟩ := hbody
    exact exists_input hname hkind hinputs hfields hvalues hinterfaces
  | enum values =>
    obtain ⟨⟨listed, hperm, hlisted⟩, hfields, hinputs, hinterfaces⟩ := hbody
    exact exists_enum hname hkind hperm hlisted hfields hinputs hinterfaces
  | scalar =>
    obtain ⟨hfields, hinputs, hvalues, hinterfaces⟩ := hbody
    exact ⟨_, shape_bare hname hkind hfields hinputs hvalues hinterfaces, rfl,
      fun envelope path => declare_tells envelope path .scalar ⟨name, .scalar⟩ rfl⟩
  | union unionMembers =>
    obtain ⟨hfields, hinputs, hvalues, hinterfaces⟩ := hbody
    refine ⟨_, shape_bare hname hkind hfields hinputs hvalues hinterfaces, rfl,
      fun envelope path => ?_⟩
    simpa [typeItems, bodyKind, TypeOutline.content?, TypeBody.content?, TypeOutline.skipped] using
      skip_tells envelope path .union name
  | interface fields =>
    obtain ⟨hfields, hinterfaces, hinputs, hvalues⟩ := hbody
    exact exists_interface hname hkind hfields hinterfaces hinputs hvalues

/-! ## Schemas -/

/-- A written root is read as its name. -/
theorem WritesRoot.getD_read {members : List (String × Json)} {root : Option String}
    (field : FieldSpec) (h : WritesRoot (.object members) field.name root) :
    (Slot.read (.object members) field (Shape.nullable (nameShape "RootType"))).getD none =
      .ok root := by
  cases root with
  | none => exact Lacks.getD_read field h
  | some name =>
    obtain ⟨part, hpart, hname⟩ := h
    exact Holds.getD_read none field hpart
      (nullable_eq_ok hname.ne_null (nameShape_eq_ok "RootType" hname))

section

variable {json : Json} {nodes : List TypeNode} {names : List String}
  {query mutation subscription : Option String}

/-- Listed directives are read as their names. -/
theorem HoldsAll.getD_directives (h : HoldsAll Named json "directives" names) :
    (Slot.read json ⟨4, "directives", true, true⟩
      (Shape.list (nameShape "DirectiveDef"))).getD [] = .ok names := by
  obtain ⟨part, hpart, hall⟩ := h
  have hname : ∀ item name, Named item name →
      ∃ read, nameShape "DirectiveDef" item = .ok read ∧ read = name :=
    fun _ name hnamed => ⟨name, nameShape_eq_ok "DirectiveDef" hnamed, rfl⟩
  obtain ⟨found, hfound, heq⟩ := exists_list hall hname
  obtain rfl : found = names := List.forall₂_eq_eq_eq ▸ heq
  exact Holds.getD_read [] ⟨4, "directives", true, true⟩ hpart hfound

/-- Directives that are not listed are read as none. -/
theorem getD_directives_of_none {members : List (String × Json)}
    (h : Json.member? (.object members) "directives" = none) :
    (Slot.read (.object members) ⟨4, "directives", true, true⟩
      (Shape.list (nameShape "DirectiveDef"))).getD [] = .ok [] := by
  have hmissing : Json.part? (.object members) ⟨4, "directives", true, true⟩ = none := h
  simp [Slot.read, Slot.getD, hmissing]

/-- A schema is read if its fields are. -/
theorem SchemaNode.shape_eq_ok (hquery : WritesRoot json "queryType" query)
    (hmutation : WritesRoot json "mutationType" mutation)
    (hsubscription : WritesRoot json "subscriptionType" subscription)
    {part : Json} (htypes : Holds json "types" part)
    (hnodes : Shape.list TypeNode.shape part = .ok nodes)
    (hdirectives : (Slot.read json ⟨4, "directives", true, true⟩
      (Shape.list (nameShape "DirectiveDef"))).getD [] = .ok names) :
    SchemaNode.shape json = .ok ⟨query, mutation, subscription, nodes, names⟩ := by
  have htypesSlot := Holds.get_read ⟨3, "types", false, false⟩ htypes hnodes
  obtain ⟨members, rfl⟩ := htypes.exists_members
  have hquerySlot := WritesRoot.getD_read ⟨0, "queryType", true, false⟩ hquery
  have hmutationSlot := WritesRoot.getD_read ⟨1, "mutationType", true, false⟩ hmutation
  have hsubscriptionSlot :=
    WritesRoot.getD_read ⟨2, "subscriptionType", true, false⟩ hsubscription
  unfold SchemaNode.shape
  simp only [hquerySlot, hmutationSlot, hsubscriptionSlot, htypesSlot, hdirectives]
  rw [checkRecord_eq_ok]
  · rfl
  · simp [fits_of_getD rfl hquerySlot, fits_of_getD rfl hmutationSlot,
      fits_of_getD rfl hsubscriptionSlot, fits_of_get htypesSlot, fits_of_getD rfl hdirectives]

end

/-- A written schema is read as a node with the roots of the outline, whose types say what was
    listed and whose directives are core ones. -/
theorem WritesSchema.exists_node {json : Json} {outline : Outline}
    (h : WritesSchema json outline) :
    ∃ nodes names listed others,
      SchemaNode.shape json =
        .ok ⟨some outline.query, outline.mutation, outline.subscription, nodes, names⟩ ∧
      List.Forall₂ TypeNode.Says nodes listed ∧ (∀ name ∈ names, isCoreDirective name) ∧
      listed.Perm (outline.types ++ others) ∧
      ∀ type ∈ others, type.isIdle ∨ isMetaName type.name := by
  obtain ⟨listed, others, ⟨part, hpart, hwrites⟩, hperm, hothers⟩ := h.types
  obtain ⟨nodes, hnodes, hsay⟩ := exists_list hwrites fun _ _ htype =>
    WritesEntry.exists_node htype
  obtain ⟨names, hdirectives, hcore⟩ : ∃ names,
      (Slot.read json ⟨4, "directives", true, true⟩
        (Shape.list (nameShape "DirectiveDef"))).getD [] = .ok names ∧
      ∀ name ∈ names, isCoreDirective name := by
    rcases h.directives with hnone | ⟨names, hlisted, hcore⟩
    · obtain ⟨members, rfl⟩ := hpart.exists_members
      exact ⟨[], getD_directives_of_none hnone, by simp⟩
    · exact ⟨names, hlisted.getD_directives, hcore⟩
  exact ⟨nodes, names, listed, others, SchemaNode.shape_eq_ok h.query h.mutation h.subscription
    hpart hnodes hdirectives, hsay, hcore, hperm, hothers⟩

/-- The declarations that a listed type comes to. Types of the introspection system come to
    none. -/
def shownContent (type : TypeOutline) : List DeclarationContent :=
  if isMetaName type.name then [] else type.content?.toList

/-- The constructs that are skipped for a listed type. -/
def shownSkipped (type : TypeOutline) : List (Construct × String) :=
  if isMetaName type.name then [] else type.skipped

/-- Types that are idle or part of the introspection system come to nothing. -/
theorem shown_of_extra {type : TypeOutline} (h : type.isIdle ∨ isMetaName type.name) :
    shownContent type = [] ∧ shownSkipped type = [] := by
  unfold shownContent shownSkipped
  by_cases hmeta : isMetaName type.name
  · simp [hmeta]
  · -- a scalar has nothing to be skipped
    have hidle : type.isIdle := h.resolve_right hmeta
    have hbody : type.body = .scalar := by
      simp only [TypeOutline.isIdle, Bool.and_eq_true, decide_eq_true_eq] at hidle
      exact hidle.2
    simp [TypeOutline.content?, TypeOutline.skipped, hidle, hbody]

/-- The constructs that are skipped for a listed directive. Core directives come to none. -/
def shownDirective (name : String) : List (Construct × String) :=
  if isCoreDirective name then [] else [(.directiveDefinition, name)]

/-- The directives of a schema tell the definitions of those that are not core ones. -/
theorem directives_tell (envelope : Envelope) (names : List String) :
    ItemsTell (names.mapIdx fun i name =>
      if isCoreDirective name then []
      else [skip envelope [.key "directives", .index i] .directiveDefinition name]).flatten []
      (names.flatMap shownDirective) := by
  have hsame : List.Forall₂ Eq names names := List.forall₂_same.mpr fun _ _ => rfl
  have hnone : names.flatMap (fun _ => ([] : List DeclarationContent)) = [] := by simp
  rw [← hnone]
  apply ItemsTell.flatten_mapIdx hsame
  rintro index name _ rfl
  unfold shownDirective
  by_cases hcore : isCoreDirective name
  · simpa [hcore] using ItemsTell.nil
  · simpa [hcore] using
      skip_tells envelope [.key "directives", .index index] .directiveDefinition name

/-- The items of a schema are those of its types, one after the other, and then those of its
    directives. -/
theorem items_tell (envelope : Envelope) {node : SchemaNode} {listed : List TypeOutline}
    (hquery : node.queryType.isSome) (hsay : List.Forall₂ TypeNode.Says node.types listed) :
    ItemsTell (items envelope node) (listed.flatMap shownContent)
      (listed.flatMap shownSkipped ++ node.directives.flatMap shownDirective) := by
  have htypes : ItemsTell (node.types.mapIdx fun i type =>
      if isMetaName type.name then []
      else typeItems envelope [.key "types", .index i] type).flatten
      (listed.flatMap shownContent) (listed.flatMap shownSkipped) := by
    apply ItemsTell.flatten_mapIdx hsay
    intro index node type hgives
    unfold shownContent shownSkipped
    rw [hgives.name]
    by_cases hmeta : isMetaName type.name
    · simpa [hmeta] using ItemsTell.nil
    · simpa [hmeta] using hgives.items envelope [.key "types", .index index]
  unfold items
  simpa [Option.isNone_iff_eq_none, Option.isSome_iff_ne_none.mp hquery] using
    htypes.append (directives_tell envelope node.directives)

/-! ## Readings -/

/-- Items without a fault are added to a schema in their order. -/
theorem readItems_map_ok (envelope : Envelope) (its : List Item) (schema : Schema) :
    readItems envelope .skip schema (its.map .ok) = .ok { schema with
      declarations := schema.declarations ++ its.filterMap Item.declaration?
      skipped := schema.skipped ++ its.filterMap Item.skipped? } := by
  induction its generalizing schema with
  | nil => simp [readItems]
  | cons item its ih =>
    have hstep : readItems envelope .skip schema ((item :: its).map .ok) =
        (item.addTo .skip schema).bind fun next =>
          readItems envelope .skip next (its.map .ok) := rfl
    rw [hstep]
    cases item <;> simp [Item.addTo, Schema.admit, Except.bind, ih, List.filterMap_cons,
      Item.declaration?, Item.skipped?]

/-- A node tells its roots with what its items tell. -/
theorem readNode_tells {envelope : Envelope} {node : SchemaNode}
    {declared : List DeclarationContent} {skipped : List (Construct × String)}
    (h : ItemsTell (items envelope node) declared skipped) :
    Tells (readNode envelope .skip node)
      ⟨declared, ⟨node.queryType, node.mutationType, node.subscriptionType⟩, skipped⟩ := by
  obtain ⟨its, hitems, rfl, rfl⟩ := h
  unfold readNode
  rw [hitems, readItems_map_ok]
  exact ⟨_, rfl, rfl⟩

/-! ## Main Result -/

/-- What the listed types come to is the content of the outline, whatever their order is and
    whatever extra types are among them. -/
theorem shown_of_perm {outline : Outline} {listed others : List TypeOutline}
    (hnames : ∀ type ∈ outline.types, ¬isMetaName type.name)
    (hperm : listed.Perm (outline.types ++ others))
    (hothers : ∀ type ∈ others, type.isIdle ∨ isMetaName type.name) :
    (listed.flatMap shownContent).Perm (outline.types.filterMap TypeOutline.content?) ∧
      (listed.flatMap shownSkipped).Perm (outline.types.flatMap TypeOutline.skipped) := by
  have hcontent : outline.types.flatMap shownContent =
      outline.types.filterMap TypeOutline.content? := by
    rw [List.filterMap_eq_flatMap_toList]
    exact List.flatMap_congr fun type htype => if_neg (hnames type htype)
  have hskipped : outline.types.flatMap shownSkipped =
      outline.types.flatMap TypeOutline.skipped :=
    List.flatMap_congr fun type htype => if_neg (hnames type htype)
  have hnoContent : others.flatMap shownContent = [] :=
    List.flatMap_eq_nil_iff.mpr fun type htype => (shown_of_extra (hothers type htype)).1
  have hnoSkipped : others.flatMap shownSkipped = [] :=
    List.flatMap_eq_nil_iff.mpr fun type htype => (shown_of_extra (hothers type htype)).2
  -- the extra types are moved to the end, where they come to nothing
  refine ⟨(hperm.flatMap_right shownContent).trans ?_, (hperm.flatMap_right shownSkipped).trans ?_⟩
  · rw [List.flatMap_append, hnoContent, hcontent, List.append_nil]
  · rw [List.flatMap_append, hnoSkipped, hskipped, List.append_nil]

/-- A written schema tells the content of the outline, whatever stands around it. -/
theorem WritesSchema.exists_tells {json : Json} {outline : Outline} (h : WritesSchema json outline)
    (hnames : ∀ type ∈ outline.types, ¬isMetaName type.name) (envelope : Envelope) :
    ∃ node, SchemaNode.shape json = .ok node ∧
      Tells (readNode envelope .skip node) outline.content := by
  obtain ⟨nodes, names, listed, others, hshape, hsay, hcore, hperm, hothers⟩ := h.exists_node
  obtain ⟨hcontent, hskipped⟩ := shown_of_perm hnames hperm hothers
  refine ⟨⟨some outline.query, outline.mutation, outline.subscription, nodes, names⟩, hshape, ?_⟩
  have hitems : ItemsTell (items envelope ⟨some outline.query, outline.mutation,
      outline.subscription, nodes, names⟩) (listed.flatMap shownContent)
      (listed.flatMap shownSkipped) := by
    have hnone : names.flatMap shownDirective = [] :=
      List.flatMap_eq_nil_iff.mpr fun name hname => if_pos (hcore name hname)
    rw [← List.append_nil (listed.flatMap shownSkipped), ← hnone]
    exact items_tell envelope rfl hsay
  have htells := readNode_tells hitems
  rwa [Multiset.coe_eq_coe.mpr hcontent, Multiset.coe_eq_coe.mpr hskipped] at htells

/-- **Envelopes**: a schema object is a document itself, or stands in one. -/
inductive Encloses : Json → Json → Prop
  | bare {document : Json} :
      document.member? "data" = none → document.member? "__schema" = none →
      Encloses document document
  | schemaKey {document schema : Json} :
      document.member? "data" = none → Holds document "__schema" schema →
      Encloses document schema
  | response {document schema : Json} (data : Json) :
      Holds document "data" data → Holds data "__schema" schema → Encloses document schema

/-- A schema with types is found in its document. -/
theorem Encloses.exists_located {document schema part : Json} (h : Encloses document schema)
    (htypes : Holds schema "types" part) :
    ∃ envelope, locate document = .ok (envelope, schema) := by
  cases h with
  | bare hdata hschema =>
    obtain ⟨members, rfl⟩ := htypes.exists_members
    refine ⟨.bare, ?_⟩
    have hmember : Json.member? (.object members) "types" = some part := htypes
    simp [locate, hdata, hschema, hmember]
  | schemaKey hdata hschema =>
    obtain ⟨members, rfl⟩ := hschema.exists_members
    refine ⟨.schemaKey, ?_⟩
    have hmember : Json.member? (.object members) "__schema" = some schema := hschema
    simp [locate, hdata, hmember]
  | response data hdata hschema =>
    obtain ⟨members, rfl⟩ := hdata.exists_members
    refine ⟨.response, ?_⟩
    have hmember : Json.member? (.object members) "data" = some data := hdata
    have hinner : data.member? "__schema" = some schema := hschema
    simp [locate, hmember, hinner]

/-- A written schema is found in its document. -/
theorem Writes.exists_located {document : Json} {outline : Outline} (h : Writes document outline) :
    ∃ envelope schema, locate document = .ok (envelope, schema) ∧ WritesSchema schema outline := by
  obtain ⟨schema, hencloses, hwrites⟩ : ∃ schema, Encloses document schema ∧
      WritesSchema schema outline := by
    cases h with
    | bare hdata hschema hwrites => exact ⟨_, .bare hdata hschema, hwrites⟩
    | schemaKey hdata hschema hwrites => exact ⟨_, .schemaKey hdata hschema, hwrites⟩
    | response hdata hschema hwrites => exact ⟨_, .response _ hdata hschema, hwrites⟩
  obtain ⟨_, _, ⟨_, htypes, -⟩, -⟩ := hwrites.types
  obtain ⟨envelope, hlocate⟩ := hencloses.exists_located htypes
  exact ⟨envelope, schema, hlocate, hwrites⟩

/-- **Documents tell what they write**: the reading of a document that writes an outline without
    names of the introspection system. -/
theorem tells_of_writes {document : Json} {outline : Outline} (h : Writes document outline)
    (hnames : ∀ type ∈ outline.types, ¬isMetaName type.name) :
    Tells (readValue .skip document) outline.content := by
  obtain ⟨envelope, schema, hlocate, hwrites⟩ := h.exists_located
  obtain ⟨node, hshape, htells⟩ := hwrites.exists_tells hnames envelope
  simpa only [readValue, hlocate, hshape] using htells

end SchemaModel.Introspection
