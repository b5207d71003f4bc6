import SchemaModel.Proofs.DocumentPaths
import SchemaModel.Proofs.DocumentWriting
import SchemaModel.Proofs.NormalForms

/-! # Places in Documents

    A document whose records are objects is read entry by entry, and every origin leads back to the
    object that it was read from.

    * **Keyed**: all records of a schema are objects, with their fields under their keys.
    * **LiesAt**: an origin is the text of a path, and that path leads to a part of the document.
    * **DeclarationFrom** and **SkippedFrom**: a declaration or a skipped construct was read from a
      part, and everything inside of it from what is listed there.
    * **ReadFrom**: the fields of an object that a type was read from.
    * **ItemsFrom**: the items of a schema were read from its parts one by one. -/

namespace SchemaModel.Introspection

open Json (Path Part Shape FieldSpec Slot)

/-! ## Keyed Documents -/

/-- Is the value an object? -/
def isObject : Json → Bool
  | .object _ => true
  | _ => false

/-- A field that is an object, and so are its arguments. -/
structure KeyedField (json : Json) : Prop where
  isObject : isObject json
  args : ∀ arg ∈ json.itemsOf "args", Introspection.isObject arg

/-- A type that is an object, and so is everything that it lists. -/
structure KeyedType (json : Json) : Prop where
  isObject : isObject json
  fields : ∀ field ∈ json.itemsOf "fields", KeyedField field
  inputFields : ∀ field ∈ json.itemsOf "inputFields", Introspection.isObject field
  enumValues : ∀ value ∈ json.itemsOf "enumValues", Introspection.isObject value
  interfaces : ∀ interface ∈ json.itemsOf "interfaces", Introspection.isObject interface

/-- **Keyed**: a schema that is an object, and so are its types and directives. The types of fields and
    arguments may be written in either way. -/
structure KeyedSchema (json : Json) : Prop where
  isObject : isObject json
  types : ∀ type ∈ json.itemsOf "types", KeyedType type
  directives : ∀ directive ∈ json.itemsOf "directives", Introspection.isObject directive

instance (json : Json) : Decidable (KeyedField json) :=
  decidable_of_iff (isObject json ∧ ∀ arg ∈ json.itemsOf "args", isObject arg)
    ⟨fun ⟨hjson, hargs⟩ => ⟨hjson, hargs⟩, fun ⟨hjson, hargs⟩ => ⟨hjson, hargs⟩⟩

instance (json : Json) : Decidable (KeyedType json) :=
  decidable_of_iff (isObject json ∧ (∀ field ∈ json.itemsOf "fields", KeyedField field) ∧
    ∀ key ∈ ["inputFields", "enumValues", "interfaces"], ∀ item ∈ json.itemsOf key, isObject item)
    ⟨fun ⟨hjson, hfields, hitems⟩ => ⟨hjson, hfields, hitems _ (by decide), hitems _ (by decide),
        hitems _ (by decide)⟩,
      fun ⟨hjson, hfields, hinputs, hvalues, hinterfaces⟩ =>
        ⟨hjson, hfields, List.forall_mem_cons.mpr ⟨hinputs, List.forall_mem_cons.mpr
          ⟨hvalues, List.forall_mem_singleton.mpr hinterfaces⟩⟩⟩⟩

instance (json : Json) : Decidable (KeyedSchema json) :=
  decidable_of_iff (isObject json ∧ (∀ type ∈ json.itemsOf "types", KeyedType type) ∧
    ∀ directive ∈ json.itemsOf "directives", isObject directive)
    ⟨fun ⟨hjson, htypes, hdirectives⟩ => ⟨hjson, htypes, hdirectives⟩,
      fun ⟨hjson, htypes, hdirectives⟩ => ⟨hjson, htypes, hdirectives⟩⟩

/-- The schema of a document, as a part of it. -/
def schemaOf? (document : Json) : Option Part :=
  match locate document with
  | .ok (envelope, schema) => some ⟨envelope.steps, schema⟩
  | .error _ => none

/-- The schema of the document, if it has one, is keyed. -/
def Keyed (document : Json) : Prop :=
  ∀ root ∈ schemaOf? document, KeyedSchema root.json

instance (document : Json) : Decidable (Keyed document) :=
  inferInstanceAs (Decidable (∀ root ∈ schemaOf? document, KeyedSchema root.json))

/-! ## Entries -/

/-- The name of an object. -/
def name? (json : Json) : Option String :=
  match json.member? "name" with
  | some (.string name) => some name
  | _ => none

/-- Is the type of the given kind, be it written as a word or as a lone member? -/
def isOfKind (json : Json) (kind : TypeKind) : Bool :=
  match json.member? "kind" with
  | some (.string text) => text == kind.text
  | some (.object [(text, .null)]) => text == kind.text
  | _ => false

/-- Does the entry belong to the introspection system itself? -/
def isMeta (part : Part) : Bool :=
  (name? part.json).any isMetaName

/-- Does a type have to be declared that is read from the entry? -/
def declares (part : Part) : Bool :=
  !isMeta part && [TypeKind.object, .inputObject, .enum, .scalar].any (isOfKind part.json)

/-- The constructs that are left out where the entry is read. -/
def skippedAt (part : Part) : List (Construct × Part) :=
  if isMeta part then []
  else if isOfKind part.json .interface then [(.interface, part)]
  else if isOfKind part.json .union then [(.union, part)]
  else if isOfKind part.json .object then
    (part.listed "interfaces").map fun interface => (.implements, interface)
  else []

/-- The entry of a directive that is left out. -/
def skippedDirectiveAt (part : Part) : List (Construct × Part) :=
  if (name? part.json).any isCoreDirective then [] else [(.directiveDefinition, part)]

/-- All constructs that are left out of a schema. -/
def skippedIn (root : Part) : List (Construct × Part) :=
  (root.listed "types").flatMap skippedAt ++ (root.listed "directives").flatMap skippedDirectiveAt

/-! ## What is Read from Them -/

section

variable (document : Json)

/-- **Lies at**: the origin is the text of the path of the part, and that path leads to the part. -/
def LiesAt (origin : Origin) (part : Part) : Prop :=
  ∃ text, origin = .introspection text ∧ Json.pathOf? text = some part.path ∧
    document.at? part.path = some part.json

/-- An argument or input field as it is read from a part. -/
structure InputFrom (part : Part) (value : InputValue) : Prop where
  name : Named part.json value.name
  place : LiesAt document value.origin part

/-- A field as it is read from a part. -/
structure FieldFrom (part : Part) (field : Field) : Prop where
  name : Named part.json field.name
  place : LiesAt document field.origin part
  args : List.Forall₂ (InputFrom document) (part.listed "args") field.args

/-- The body of a type as it is read from a part. -/
def KindFrom (part : Part) : DeclarationKind → Prop
  | .object fields => isOfKind part.json .object ∧
      List.Forall₂ (FieldFrom document) (part.listed "fields") fields
  | .input fields => isOfKind part.json .inputObject ∧
      List.Forall₂ (InputFrom document) (part.listed "inputFields") fields
  | .enum values => isOfKind part.json .enum ∧
      List.Forall₂ (fun value name => Named value.json name) (part.listed "enumValues") values
  | .scalar => isOfKind part.json .scalar

/-- **Declared**: a type as it is read from a part. -/
structure DeclarationFrom (part : Part) (decl : Declaration) : Prop where
  name : Named part.json decl.name
  place : LiesAt document decl.origin part
  kind : KindFrom document part decl.kind

/-- **Skipped**: a construct as it is read from a part. An interface that is implemented may lack a
    name, and goes without one then. -/
structure SkippedFrom (entry : Construct × Part) (skipped : Skipped) : Prop where
  construct : skipped.construct = entry.1
  name : Named entry.2.json skipped.name ∨
    (entry.1 = .implements ∧ Lacks entry.2.json "name" ∧ skipped.name = "")
  place : LiesAt document skipped.origin entry.2

end

/-! ## Records that are Objects -/

section

variable {json part : Json} {α : Type} {shape : Shape α} {a : α} {as : List α} {field : FieldSpec}
  {name : String}

theorem part?_of_isObject (hjson : isObject json) (field : FieldSpec) :
    json.part? field = json.member? field.name := by
  cases json with
  | object members => rfl
  | _ => cases hjson

theorem under_eq_ok {step : Json.Step} {result : Except Json.Misfit α} :
    Shape.under step result = .ok a ↔ result = .ok a := by
  cases result <;> simp [Shape.under, Except.mapError]

/-- A field that has to be there is read from its member. -/
theorem get_read_eq_ok (hjson : isObject json) :
    (Slot.read json field shape).get = .ok a ↔
      ∃ part, Holds json field.name part ∧ shape part = .ok a := by
  unfold Slot.read Slot.get Holds
  rw [part?_of_isObject hjson]
  cases json.member? field.name <;> simp [under_eq_ok, Shape.misfit]

/-- A field that may be missing is read from its member, if there is one. -/
theorem getD_read_eq_ok (hjson : isObject json) {default : α} :
    (Slot.read json field shape).getD default = .ok a ↔
      (json.member? field.name = none ∧ default = a) ∨
        ∃ part, Holds json field.name part ∧ shape part = .ok a := by
  unfold Slot.read Slot.getD Holds
  rw [part?_of_isObject hjson]
  cases json.member? field.name <;> simp [under_eq_ok]

/-- A value that may be null is null, or is read as any other. -/
theorem nullable_cases {found : Option α} (h : Shape.nullable shape json = .ok found) :
    (json = .null ∧ found = none) ∨ ∃ a, shape json = .ok a ∧ found = some a := by
  cases json with
  | null => exact .inl ⟨rfl, (Except.ok.inj h).symm⟩
  | _ =>
    unfold Shape.nullable at h
    obtain ⟨a, ha, rfl⟩ := map_eq_ok.mp h
    exact .inr ⟨a, ha, rfl⟩

theorem string_eq_ok : Shape.string json = .ok name ↔ json = .string name := by
  cases json <;> simp [Shape.string, Shape.misfit]

theorem named_of_get (hjson : isObject json) {index : Nat}
    (h : (Slot.read json ⟨index, "name", false, false⟩ Shape.string).get = .ok name) :
    Named json name := by
  obtain ⟨part, hpart, hname⟩ := (get_read_eq_ok hjson).mp h
  rwa [string_eq_ok.mp hname] at hpart

theorem name?_eq (h : Named json name) : name? json = some name := by
  have hmember : json.member? "name" = some (.string name) := h
  rw [name?, hmember]

/-! ### Lists -/

theorem itemsOf_of_array {items : List Json} {key : String} (h : Holds json key (.array items)) :
    json.itemsOf key = items := by
  have hmember : json.member? key = some (.array items) := h
  rw [Json.itemsOf, hmember]

theorem list_eq_ok : Shape.list shape json = .ok as ↔
    ∃ items, json = .array items ∧ Shape.listFrom shape 0 items = .ok as := by
  cases json <;> simp [Shape.list, Shape.misfit]

/-- A list that has to be there is read from the items of its member. -/
theorem listFrom_of_get (hjson : isObject json)
    (h : (Slot.read json field (Shape.list shape)).get = .ok as) :
    Shape.listFrom shape 0 (json.itemsOf field.name) = .ok as := by
  obtain ⟨part, hpart, hlist⟩ := (get_read_eq_ok hjson).mp h
  obtain ⟨items, rfl, hitems⟩ := list_eq_ok.mp hlist
  rwa [itemsOf_of_array hpart]

/-- A list that may be missing. -/
theorem listFrom_of_getD (hjson : isObject json)
    (h : (Slot.read json field (Shape.list shape)).getD [] = .ok as) :
    Shape.listFrom shape 0 (json.itemsOf field.name) = .ok as := by
  rcases (getD_read_eq_ok hjson).mp h with ⟨hnone, rfl⟩ | ⟨part, hpart, hlist⟩
  · rw [Json.itemsOf, hnone]
    rfl
  · obtain ⟨items, rfl, hitems⟩ := list_eq_ok.mp hlist
    rwa [itemsOf_of_array hpart]

/-- A list that may be missing or null. -/
theorem listFrom_of_nullable (hjson : isObject json) {found : Option (List α)}
    (h : (Slot.read json field (Shape.nullable (Shape.list shape))).getD none = .ok found) :
    Shape.listFrom shape 0 (json.itemsOf field.name) = .ok (found.getD []) := by
  rcases (getD_read_eq_ok hjson).mp h with ⟨hnone, rfl⟩ | ⟨part, hpart, hlist⟩
  · rw [Json.itemsOf, hnone]
    rfl
  · rcases nullable_cases hlist with ⟨rfl, rfl⟩ | ⟨as, has, rfl⟩
    · have hmember : json.member? field.name = some .null := hpart
      rw [Json.itemsOf, hmember]
      rfl
    · obtain ⟨items, rfl, hitems⟩ := list_eq_ok.mp has
      rwa [itemsOf_of_array hpart]

end

/-! ## What Objects are Read as -/

section

variable {json : Json}

theorem kind_of_ofText {text : String} {kind : TypeKind} (h : TypeKind.ofText text = .ok kind) :
    text = kind.text := by
  unfold TypeKind.ofText at h
  split at h
  · rename_i found hfound
    obtain rfl := Except.ok.inj h
    have hsame := List.find?_some hfound
    exact (beq_iff_eq.mp hsame).symm
  · cases h

theorem text_beq (kind other : TypeKind) : (kind.text == other.text) = decide (kind = other) := by
  cases kind <;> cases other <;> rfl

/-- The kind that is read from an object is the one that it is of. -/
theorem isOfKind_eq {part : Json} {kind : TypeKind} (hpart : Holds json "kind" part)
    (hkind : TypeKind.shape part = .ok kind) (other : TypeKind) :
    isOfKind json other = decide (kind = other) := by
  have hmember : json.member? "kind" = some part := hpart
  rw [isOfKind, hmember]
  unfold TypeKind.shape at hkind
  split at hkind
  · rw [kind_of_ofText hkind]
    exact text_beq kind other
  · obtain ⟨found, hfound, hrest⟩ := bind_eq_ok.mp hkind
    split at hrest
    · obtain rfl := Except.ok.inj hrest
      rw [kind_of_ofText hfound]
      exact text_beq _ other
    · rw [under_eq_ok] at hrest
      cases hrest
  · cases hkind
  · cases hkind

theorem named_of_nameShape (hjson : isObject json) {record name : String}
    (h : nameShape record json = .ok name) : Named json name := by
  obtain ⟨-, -, hname⟩ := bind_eq_ok.mp h
  exact named_of_get hjson hname

theorem named_of_inputValue (hjson : isObject json) {node : InputValueNode}
    (h : InputValueNode.shape json = .ok node) : Named json node.name := by
  simp only [InputValueNode.shape, bind_eq_ok, pure_eq_ok] at h
  obtain ⟨-, -, name, hname, type, -, defaultValue, -, rfl⟩ := h
  exact named_of_get hjson hname

theorem read_of_field (hjson : isObject json) {node : FieldNode}
    (h : FieldNode.shape json = .ok node) : Named json node.name ∧
      Shape.listFrom InputValueNode.shape 0 (json.itemsOf "args") = .ok node.args := by
  simp only [FieldNode.shape, bind_eq_ok, pure_eq_ok] at h
  obtain ⟨-, -, name, hname, args, hargs, type, -, rfl⟩ := h
  exact ⟨named_of_get hjson hname, listFrom_of_get hjson hargs⟩

/-- A reference has the name of its object, or none if that lacks it. -/
theorem name_of_chain (hjson : isObject json) {chain : TypeChain}
    (h : TypeChain.shape json = .ok chain) :
    Named json (chain.name.getD "") ∨ (Lacks json "name" ∧ chain.name.getD "" = "") := by
  rw [TypeChain.shape_eq] at h
  simp only [bind_eq_ok, pure_eq_ok] at h
  obtain ⟨-, -, kind, -, name, hname, inner, -, rfl⟩ := h
  have hsame : (TypeChain.ofLink kind name inner).name = name := by cases inner <;> rfl
  rw [hsame]
  rcases (getD_read_eq_ok hjson).mp hname with ⟨hnone, rfl⟩ | ⟨part, hpart, hread⟩
  · exact .inr ⟨.inl hnone, rfl⟩
  · rcases nullable_cases hread with ⟨rfl, rfl⟩ | ⟨found, hfound, rfl⟩
    · exact .inr ⟨.inr hpart, rfl⟩
    · rw [string_eq_ok.mp hfound] at hpart
      exact .inl hpart

/-- **Read from**: the type has the kind and the name of the object, and what that lists. -/
structure ReadFrom (json : Json) (node : TypeNode) : Prop where
  kind : ∀ kind, isOfKind json kind = decide (node.kind = kind)
  name : Named json node.name
  fields : Shape.listFrom FieldNode.shape 0 (json.itemsOf "fields") = .ok (node.fields.getD [])
  inputFields : Shape.listFrom InputValueNode.shape 0 (json.itemsOf "inputFields") =
    .ok (node.inputFields.getD [])
  enumValues : Shape.listFrom (nameShape "EnumValue") 0 (json.itemsOf "enumValues") =
    .ok (node.enumValues.getD [])
  interfaces : Shape.listFrom TypeChain.shape 0 (json.itemsOf "interfaces") =
    .ok (node.interfaces.getD [])

theorem readFrom_of_shape (hjson : isObject json) {node : TypeNode}
    (h : TypeNode.shape json = .ok node) : ReadFrom json node := by
  simp only [TypeNode.shape, bind_eq_ok, pure_eq_ok] at h
  obtain ⟨-, -, kind, hkind, name, hname, fields, hfields, inputFields, hinputFields, enumValues,
    henumValues, interfaces, hinterfaces, rfl⟩ := h
  obtain ⟨part, hpart, hread⟩ := (get_read_eq_ok hjson).mp hkind
  exact ⟨isOfKind_eq hpart hread, named_of_get hjson hname, listFrom_of_nullable hjson hfields,
    listFrom_of_nullable hjson hinputFields, listFrom_of_nullable hjson henumValues,
    listFrom_of_nullable hjson hinterfaces⟩

theorem read_of_schema (hjson : isObject json) {node : SchemaNode}
    (h : SchemaNode.shape json = .ok node) :
    Shape.listFrom TypeNode.shape 0 (json.itemsOf "types") = .ok node.types ∧
      Shape.listFrom (nameShape "DirectiveDef") 0 (json.itemsOf "directives") =
        .ok node.directives := by
  simp only [SchemaNode.shape, bind_eq_ok, pure_eq_ok] at h
  obtain ⟨-, -, query, -, mutation, -, subscription, -, types, htypes, directives, hdirectives, rfl⟩ := h
  exact ⟨listFrom_of_get hjson htypes, listFrom_of_getD hjson hdirectives⟩

end

/-! ## Places -/

section

variable {document : Json} {envelope : Envelope} {path : Path} {root part : Part} {key : String}

/-- **Seen**: the part is in place, and inside the schema the path leads to it. -/
structure Seen (document : Json) (envelope : Envelope) (path : Path) (part : Part) : Prop where
  inPlace : part.InPlace document
  path_eq : part.path = envelope.steps ++ path
  keyed : path.Keyed

/-- A part lies at the origin of its path. -/
theorem Seen.liesAt (h : Seen document envelope path part) :
    LiesAt document (originAt envelope path) part := by
  refine ⟨envelope.pathText path, rfl, ?_, h.inPlace.reached⟩
  rw [pathText_eq envelope h.keyed, ← h.path_eq]
  exact Json.pathOf?_pathText h.inPlace.plain

/-- So does an item that is listed under a plain key of the part. -/
theorem Seen.item (h : Seen document envelope path root) (hkey : Json.Step.isPlain (.key key))
    {json : Json} {index : Nat} (hitem : (root.json.itemsOf key)[index]? = some json) :
    Seen document envelope (path ++ [.key key, .index index])
      ⟨root.path ++ [.key key, .index index], json⟩ := by
  refine ⟨h.inPlace.item hkey hitem, ?_, h.keyed.append_key key _⟩
  rw [h.path_eq, List.append_assoc]

variable {α β : Type} {shape : Shape α} {items : List Json} {as : List α}

/-- What is read from an array item by item. -/
theorem forall₂_listFrom {related : Part → α → Prop} {index first : Nat}
    (hlist : Shape.listFrom shape first items = .ok as)
    (h : ∀ part a, part.json ∈ items → shape part.json = .ok a → related part a) :
    List.Forall₂ related (Json.partsFrom path key index items) as := by
  induction items generalizing index first as with
  | nil =>
    obtain rfl := Except.ok.inj hlist
    exact .nil
  | cons item items ih =>
    simp only [Shape.listFrom, bind_eq_ok, pure_eq_ok, under_eq_ok] at hlist
    obtain ⟨a, ha, others, hothers, rfl⟩ := hlist
    refine .cons (h _ a List.mem_cons_self ha) (ih hothers fun part a hmem => ?_)
    exact h part a (List.mem_cons_of_mem _ hmem)

/-- What is read from an array and converted, each item at its own path. -/
theorem forall₂_convertFrom {convert : Path → α → Fallible β} {related : Part → β → Prop}
    {bs : List β} {rootPath : Path} {index first : Nat}
    (hseen : ∀ k json, items[k]? = some json → Seen document envelope
      (path ++ [.key key, .index (index + k)]) ⟨rootPath ++ [.key key, .index (index + k)], json⟩)
    (hlist : Shape.listFrom shape first items = .ok as)
    (hconvert : convertFrom (path ++ [.key key]) convert index as = .ok bs)
    (h : ∀ part path a b, part.json ∈ items → Seen document envelope path part →
      shape part.json = .ok a → convert path a = .ok b → related part b) :
    List.Forall₂ related (Json.partsFrom rootPath key index items) bs := by
  induction items generalizing index first as bs with
  | nil =>
    obtain rfl := Except.ok.inj hlist
    obtain rfl := Except.ok.inj hconvert
    exact .nil
  | cons item items ih =>
    simp only [Shape.listFrom, bind_eq_ok, pure_eq_ok, under_eq_ok] at hlist
    obtain ⟨a, ha, others, hothers, rfl⟩ := hlist
    simp only [convertFrom, bind_eq_ok, pure_eq_ok, List.append_assoc] at hconvert
    obtain ⟨b, hb, converted, hconverted, rfl⟩ := hconvert
    refine .cons (h _ _ a b List.mem_cons_self (hseen 0 item rfl) ha hb)
      (ih (fun k json hjson => ?_) hothers hconverted fun part path a b hmem => ?_)
    · rw [Nat.add_right_comm, Nat.add_assoc]
      exact hseen (k + 1) json hjson
    · exact h part path a b (List.mem_cons_of_mem _ hmem)

/-- The same for what is listed under a key of a part. -/
theorem Seen.listed {convert : Path → α → Fallible β} {related : Part → β → Prop} {bs : List β}
    (hroot : Seen document envelope path root) (hkey : Json.Step.isPlain (.key key))
    (hlist : Shape.listFrom shape 0 (root.json.itemsOf key) = .ok as)
    (hconvert : convertFrom (path ++ [.key key]) convert 0 as = .ok bs)
    (h : ∀ part path a b, part.json ∈ root.json.itemsOf key → Seen document envelope path part →
      shape part.json = .ok a → convert path a = .ok b → related part b) :
    List.Forall₂ related (root.listed key) bs := by
  refine forall₂_convertFrom (fun k json hjson => ?_) hlist hconvert h
  rw [Nat.zero_add]
  exact hroot.item hkey hjson

end

/-! ## Members -/

section

variable {document : Json} {envelope : Envelope} {path : Path} {part : Part}

theorem inputFrom {node : InputValueNode} {value : InputValue} (hpart : isObject part.json)
    (hseen : Seen document envelope path part) (hshape : InputValueNode.shape part.json = .ok node)
    (hvalue : inputValue envelope path node = .ok value) : InputFrom document part value := by
  simp only [inputValue, bind_eq_ok, pure_eq_ok] at hvalue
  obtain ⟨defaultValue, -, type, -, rfl⟩ := hvalue
  exact ⟨named_of_inputValue hpart hshape, hseen.liesAt⟩

theorem fieldFrom {node : FieldNode} {found : Field} (hpart : KeyedField part.json)
    (hseen : Seen document envelope path part) (hshape : FieldNode.shape part.json = .ok node)
    (hfield : field envelope path node = .ok found) : FieldFrom document part found := by
  obtain ⟨hname, hlist⟩ := read_of_field hpart.isObject hshape
  simp only [field, bind_eq_ok, pure_eq_ok] at hfield
  obtain ⟨type, -, args, hargs, rfl⟩ := hfield
  refine ⟨hname, hseen.liesAt, hseen.listed (by decide) hlist hargs ?_⟩
  exact fun arg _ _ _ hmem hseen hshape hvalue => inputFrom (hpart.args _ hmem) hseen hshape hvalue

/-- What a type is declared as was read from its entry. -/
theorem declarationFrom {node : TypeNode} {kind : DeclarationKind}
    (hseen : Seen document envelope path part) (hread : ReadFrom part.json node)
    (hkind : KindFrom document part kind) :
    DeclarationFrom document part ⟨node.name, kind, originAt envelope path⟩ :=
  ⟨hread.name, hseen.liesAt, hkind⟩

end

/-! ## Items -/

/-- **Items from parts**: if no item is a fault, the declarations among them were read from the given
    parts one by one, and so were the skipped constructs. -/
def ItemsFrom (document : Json) (items : List (Fallible Item)) (declared : List Part)
    (skipped : List (Construct × Part)) : Prop :=
  ∀ found : List Item, items = found.map .ok →
    List.Forall₂ (DeclarationFrom document) declared (found.filterMap Item.declaration?) ∧
      List.Forall₂ (SkippedFrom document) skipped (found.filterMap Item.skipped?)

section

variable {document : Json} {envelope : Envelope} {path : Path} {part : Part}

namespace ItemsFrom

theorem nil : ItemsFrom document [] [] [] := by
  intro found hfound
  obtain rfl := List.map_eq_nil_iff.mp hfound.symm
  exact ⟨.nil, .nil⟩

theorem append {items others : List (Fallible Item)} {declared otherDeclared : List Part}
    {skipped otherSkipped : List (Construct × Part)} (h : ItemsFrom document items declared skipped)
    (hothers : ItemsFrom document others otherDeclared otherSkipped) :
    ItemsFrom document (items ++ others) (declared ++ otherDeclared) (skipped ++ otherSkipped) := by
  intro found hfound
  obtain ⟨front, back, rfl, hfront, hback⟩ := List.map_eq_append_iff.mp hfound.symm
  obtain ⟨hdeclared, hskipped⟩ := h front hfront.symm
  obtain ⟨hotherDeclared, hotherSkipped⟩ := hothers back hback.symm
  rw [List.filterMap_append, List.filterMap_append]
  exact ⟨List.rel_append hdeclared hotherDeclared, List.rel_append hskipped hotherSkipped⟩

/-- A fault is no item. -/
theorem fault (at_ : Path × DocumentFault) (declared : List Part) (skipped : List (Construct × Part)) :
    ItemsFrom document [.error at_] declared skipped := by
  intro found hfound
  obtain ⟨item, -, hitem⟩ := List.map_eq_singleton_iff.mp hfound.symm
  cases hitem

theorem skip {construct : Construct} {name : String}
    (h : SkippedFrom document (construct, part) ⟨construct, name, originAt envelope path⟩) :
    ItemsFrom document [Introspection.skip envelope path construct name] [] [(construct, part)] := by
  intro found hfound
  obtain ⟨item, rfl, hitem⟩ := List.map_eq_singleton_iff.mp hfound.symm
  obtain rfl := Except.ok.inj hitem
  exact ⟨.nil, .cons h .nil⟩

theorem declare {node : TypeNode} {kind : Fallible DeclarationKind}
    (hseen : Seen document envelope path part) (hread : ReadFrom part.json node)
    (h : ∀ found, kind = .ok found → KindFrom document part found) :
    ItemsFrom document [Introspection.declare envelope path node.name kind] [part] [] := by
  cases kind with
  | error at_ => exact fault at_ _ _
  | ok kind =>
    intro found hfound
    obtain ⟨item, rfl, hitem⟩ := List.map_eq_singleton_iff.mp hfound.symm
    obtain rfl := Except.ok.inj hitem
    exact ⟨.cons (declarationFrom hseen hread (h kind rfl)) .nil, .nil⟩

/-- The items of a list, if those of each entry were read from its part. -/
theorem flatten_mapIdx {α : Type} {shape : Shape α} {key : String} {jsons : List Json} {as : List α}
    {index first : Nat} {declared : Part → List Part} {skipped : Part → List (Construct × Part)}
    {items : Nat → α → List (Fallible Item)} (hlist : Shape.listFrom shape first jsons = .ok as)
    (h : ∀ k json a, jsons[k]? = some json → shape json = .ok a → ItemsFrom document (items k a)
      (declared ⟨path ++ [.key key, .index (index + k)], json⟩)
      (skipped ⟨path ++ [.key key, .index (index + k)], json⟩)) :
    ItemsFrom document (as.mapIdx items).flatten
      ((Json.partsFrom path key index jsons).flatMap declared)
      ((Json.partsFrom path key index jsons).flatMap skipped) := by
  -- the entries behind the first one are indexed from one on
  induction jsons generalizing as index first items with
  | nil =>
    obtain rfl := Except.ok.inj hlist
    exact nil
  | cons json jsons ih =>
    simp only [Shape.listFrom, bind_eq_ok, pure_eq_ok, under_eq_ok] at hlist
    obtain ⟨a, ha, others, hothers, rfl⟩ := hlist
    rw [List.mapIdx_cons, List.flatten_cons, Json.partsFrom, List.flatMap_cons, List.flatMap_cons]
    refine (h 0 json a rfl ha).append (ih hothers fun k json a hjson ha => ?_)
    rw [Nat.add_right_comm, Nat.add_assoc]
    exact h (k + 1) json a hjson ha

/-- The items of what is listed under a key of a part. -/
theorem listed {α : Type} {shape : Shape α} {key : String} {as : List α}
    {declared : Part → List Part} {skipped : Part → List (Construct × Part)}
    {items : Nat → α → List (Fallible Item)} (hpart : Seen document envelope path part)
    (hkey : Json.Step.isPlain (.key key))
    (hlist : Shape.listFrom shape 0 (part.json.itemsOf key) = .ok as)
    (h : ∀ k entry a, entry.json ∈ part.json.itemsOf key →
      Seen document envelope (path ++ [.key key, .index k]) entry → shape entry.json = .ok a →
      ItemsFrom document (items k a) (declared entry) (skipped entry)) :
    ItemsFrom document (as.mapIdx items).flatten ((part.listed key).flatMap declared)
      ((part.listed key).flatMap skipped) := by
  refine flatten_mapIdx hlist fun k json a hjson ha => ?_
  rw [Nat.zero_add]
  exact h k _ a (List.mem_of_getElem? hjson) (hpart.item hkey hjson) ha

/-- The items of what is listed under a key where nothing is declared. -/
theorem listed_skipped {α : Type} {shape : Shape α} {key : String} {as : List α}
    {skipped : Part → List (Construct × Part)} {items : Nat → α → List (Fallible Item)}
    (hpart : Seen document envelope path part) (hkey : Json.Step.isPlain (.key key))
    (hlist : Shape.listFrom shape 0 (part.json.itemsOf key) = .ok as)
    (h : ∀ k entry a, entry.json ∈ part.json.itemsOf key →
      Seen document envelope (path ++ [.key key, .index k]) entry → shape entry.json = .ok a →
      ItemsFrom document (items k a) [] (skipped entry)) :
    ItemsFrom document (as.mapIdx items).flatten [] ((part.listed key).flatMap skipped) := by
  have hnone : (part.listed key).flatMap (fun _ => ([] : List Part)) = [] :=
    List.flatMap_eq_nil_iff.mpr fun _ _ => rfl
  rw [← hnone]
  exact listed hpart hkey hlist h

end ItemsFrom

theorem mapIdx_eq_flatten {α β : Type} (f : Nat → α → β) (as : List α) :
    as.mapIdx f = (as.mapIdx fun k a => [f k a]).flatten := by
  induction as generalizing f with
  | nil => rfl
  | cons a as ih =>
    rw [List.mapIdx_cons, List.mapIdx_cons, List.flatten_cons, ih]
    rfl

/-- The interfaces of an object are skipped one by one. -/
theorem implementedFrom {chains : List TypeChain} (hpart : KeyedType part.json)
    (hseen : Seen document envelope path part)
    (hlist : Shape.listFrom TypeChain.shape 0 (part.json.itemsOf "interfaces") = .ok chains) :
    ItemsFrom document
      (chains.mapIdx fun k chain =>
        skip envelope (path ++ [.key "interfaces", .index k]) .implements (chain.name.getD "")) []
      ((part.listed "interfaces").map fun interface => (.implements, interface)) := by
  rw [mapIdx_eq_flatten, List.map_eq_flatMap]
  refine .listed_skipped hseen (by decide) hlist fun k entry chain hmem hseen hchain =>
    .skip ⟨rfl, ?_, hseen.liesAt⟩
  exact (name_of_chain (hpart.interfaces _ hmem) hchain).imp_right fun h => ⟨rfl, h⟩

/-- What the kind of an entry tells of it. -/
theorem entry_eq {kind : TypeKind} (hmeta : isMeta part = false)
    (hkind : ∀ other, isOfKind part.json other = decide (kind = other)) :
    declares part = (match kind with
      | .object | .inputObject | .enum | .scalar => true
      | .interface | .union | .list | .nonNull => false) ∧
    skippedAt part = (match kind with
      | .interface => [(.interface, part)]
      | .union => [(.union, part)]
      | .object => (part.listed "interfaces").map fun interface => (.implements, interface)
      | .inputObject | .enum | .scalar | .list | .nonNull => []) := by
  cases kind <;> simp [declares, skippedAt, hmeta, hkind]

theorem require_eq_ok {α : Type} {kind : TypeKind} {key : String} {members : Option α} {found : α} :
    require path kind key members = .ok found ↔ members = some found := by
  cases members <;> simp [require]

/-- The items of a type were read from its entry. -/
theorem typeItemsFrom {node : TypeNode} (hpart : KeyedType part.json)
    (hseen : Seen document envelope path part) (hshape : TypeNode.shape part.json = .ok node)
    (hmeta : isMeta part = false) :
    ItemsFrom document (typeItems envelope path node) (if declares part then [part] else [])
      (skippedAt part) := by
  have hread := readFrom_of_shape hpart.isObject hshape
  have hkind := hread.kind
  obtain ⟨hdeclares, hskipped⟩ := entry_eq hmeta hkind
  rw [hdeclares, hskipped]
  obtain ⟨kind, name, fields, inputFields, enumValues, interfaces⟩ := node
  cases kind with
  | scalar =>
    refine .declare hseen hread fun found hfound => ?_
    obtain rfl := Except.ok.inj hfound
    exact hkind .scalar
  | object =>
    cases fields with
    | none => exact .fault _ _ _
    | some fields =>
      have hdeclared : ItemsFrom document [declare envelope path name
          ((convertFrom (path ++ [.key "fields"]) (field envelope) 0 fields).map .object)]
          [part] [] := by
        refine .declare hseen hread fun found hfound => ?_
        obtain ⟨converted, hconverted, rfl⟩ := map_eq_ok.mp hfound
        refine ⟨hkind .object, hseen.listed (by decide) hread.fields hconverted ?_⟩
        exact fun part _ _ _ hmem hseen hshape hfield =>
          fieldFrom (hpart.fields _ hmem) hseen hshape hfield
      have hitems := (implementedFrom hpart hseen hread.interfaces).append hdeclared
      rwa [List.append_nil] at hitems
  | interface => exact .skip ⟨rfl, .inl hread.name, hseen.liesAt⟩
  | union => exact .skip ⟨rfl, .inl hread.name, hseen.liesAt⟩
  | enum =>
    refine .declare hseen hread fun found hfound => ?_
    simp only [bind_eq_ok, pure_eq_ok, require_eq_ok] at hfound
    obtain ⟨values, rfl, rfl⟩ := hfound
    refine ⟨hkind .enum, forall₂_listFrom hread.enumValues fun value name hmem hname => ?_⟩
    exact named_of_nameShape (hpart.enumValues _ hmem) hname
  | inputObject =>
    refine .declare hseen hread fun found hfound => ?_
    simp only [bind_eq_ok, pure_eq_ok, require_eq_ok] at hfound
    obtain ⟨listed, rfl, converted, hconverted, rfl⟩ := hfound
    refine ⟨hkind .inputObject, hseen.listed (by decide) hread.inputFields hconverted ?_⟩
    exact fun part _ _ _ hmem hseen hshape hvalue =>
      inputFrom (hpart.inputFields _ hmem) hseen hshape hvalue
  | list => exact .fault _ _ _
  | nonNull => exact .fault _ _ _

end

section

variable {document : Json} {envelope : Envelope} {root : Part}

theorem filter_eq_flatMap {α : Type} (p : α → Bool) (as : List α) :
    as.filter p = as.flatMap fun a => if p a then [a] else [] := by
  induction as with
  | nil => rfl
  | cons a as ih => cases hp : p a <;> simp [hp, ih]

/-- The items of all types were read from their entries. -/
theorem typesFrom {types : List TypeNode} (hroot : KeyedSchema root.json)
    (hseen : Seen document envelope [] root)
    (hlist : Shape.listFrom TypeNode.shape 0 (root.json.itemsOf "types") = .ok types) :
    ItemsFrom document
      (types.mapIdx fun i type =>
        if isMetaName type.name then [] else typeItems envelope [.key "types", .index i] type).flatten
      ((root.listed "types").filter declares) ((root.listed "types").flatMap skippedAt) := by
  rw [filter_eq_flatMap]
  refine .listed hseen (by decide) hlist fun i part type hmem hseen hshape => ?_
  have hpart := hroot.types _ hmem
  have hname : isMeta part = isMetaName type.name := by
    rw [isMeta, name?_eq (readFrom_of_shape hpart.isObject hshape).name]
    rfl
  cases hmeta : isMetaName type.name with
  | true =>
    rw [hmeta] at hname
    simpa [declares, skippedAt, hname] using ItemsFrom.nil
  | false => exact typeItemsFrom hpart hseen hshape (hname.trans hmeta)

/-- The items of all directives were read from their entries. -/
theorem directivesFrom {names : List String} (hroot : KeyedSchema root.json)
    (hseen : Seen document envelope [] root)
    (hlist : Shape.listFrom (nameShape "DirectiveDef") 0 (root.json.itemsOf "directives") = .ok names) :
    ItemsFrom document
      (names.mapIdx fun i name =>
        if isCoreDirective name then []
        else [skip envelope [.key "directives", .index i] .directiveDefinition name]).flatten
      [] ((root.listed "directives").flatMap skippedDirectiveAt) := by
  refine .listed_skipped hseen (by decide) hlist fun i part name hmem hseen hshape => ?_
  have hnamed := named_of_nameShape (hroot.directives _ hmem) hshape
  have hskipped : skippedDirectiveAt part =
      if isCoreDirective name then [] else [(.directiveDefinition, part)] := by
    rw [skippedDirectiveAt, name?_eq hnamed]
    rfl
  rw [hskipped]
  split
  · exact .nil
  · exact .skip ⟨rfl, .inl hnamed, hseen.liesAt⟩

/-- The items of a schema were read from its types, and then from its directives. -/
theorem itemsFrom {node : SchemaNode} (hroot : KeyedSchema root.json)
    (hseen : Seen document envelope [] root) (hshape : SchemaNode.shape root.json = .ok node) :
    ItemsFrom document (items envelope node) ((root.listed "types").filter declares)
      (skippedIn root) := by
  obtain ⟨htypes, hdirectives⟩ := read_of_schema hroot.isObject hshape
  have hlists := (typesFrom hroot hseen htypes).append (directivesFrom hroot hseen hdirectives)
  rw [List.append_nil] at hlists
  unfold items
  cases node.queryType with
  | none => exact (ItemsFrom.fault _ [] []).append hlists
  | some query => exact hlists

end

/-! ## Main Result -/

/-- If items are read without a failure, there is no fault among them. -/
theorem exists_of_readItems {envelope : Envelope} {policy : Policy} {schema result : Schema}
    {its : List (Fallible Item)} (h : readItems envelope policy schema its = .ok result) :
    ∃ found : List Item, its = found.map .ok := by
  induction its generalizing schema with
  | nil => exact ⟨[], rfl⟩
  | cons item its ih =>
    cases item with
    | error at_ => cases h
    | ok item =>
      obtain ⟨next, -, hrest⟩ := bind_eq_ok.mp h
      obtain ⟨found, rfl⟩ := ih hrest
      exact ⟨item :: found, rfl⟩

/-- **Entry by entry**: what is read from a keyed document is declared and skipped entry by entry, in
    the order of the document, and each origin is the path from the document to the object that it
    was read from. -/
theorem document_keeps_its_entries {document : Json} {schema : Schema} (hkeyed : Keyed document)
    (hread : readValue .skip document = .ok schema) :
    ∃ root, schemaOf? document = some root ∧ document.at? root.path = some root.json ∧
      List.Forall₂ (DeclarationFrom document) ((root.listed "types").filter declares)
        schema.declarations ∧
      List.Forall₂ (SkippedFrom document) (skippedIn root) schema.skipped := by
  unfold readValue at hread
  split at hread
  · cases hread
  rename_i envelope json hlocate
  split at hread
  · cases hread
  rename_i node hnode
  have hroot : schemaOf? document = some ⟨envelope.steps, json⟩ := by rw [schemaOf?, hlocate]
  have hinPlace := inPlace_of_locate hlocate
  have hseen : Seen document envelope [] ⟨envelope.steps, json⟩ :=
    ⟨hinPlace, (List.append_nil _).symm, nofun⟩
  obtain ⟨found, hfound⟩ := exists_of_readItems hread
  rw [readNode, hfound, readItems_map_ok] at hread
  obtain rfl := Except.ok.inj hread
  obtain ⟨hdeclared, hskipped⟩ := itemsFrom (hkeyed _ hroot) hseen hnode found hfound
  exact ⟨_, hroot, hinPlace.reached, hdeclared, hskipped⟩

/-- An entry with a kind and a name. -/
def ferryEntry (kind name : String) (members : List (String × Json)) : Json :=
  .object ([("kind", .string kind), ("name", .string name)] ++ members)

/-- A response with entries of most kinds. One of the interfaces has no name. -/
def ferryDocument : Json :=
  let text := ("type", ferryEntry "SCALAR" "String" [])
  let crossing := Json.object [("name", .string "crossing"), text,
    ("args", .array [.object [("name", .string "by"), text]])]
  let types := [
    ferryEntry "OBJECT" "__Type" [("fields", .array [])],
    ferryEntry "OBJECT" "Query" [("fields", .array [crossing]),
      ("interfaces", .array [ferryEntry "INTERFACE" "Node" [],
        .object [("kind", .string "INTERFACE")]])],
    ferryEntry "INTERFACE" "Node" [],
    ferryEntry "INPUT_OBJECT" "Load"
      [("inputFields", .array [.object [("name", .string "deck"), text]])],
    ferryEntry "ENUM" "Deck" [("enumValues", .array [.object [("name", .string "UPPER")]])],
    ferryEntry "UNION" "Any" []]
  let schema := Json.object [("queryType", .object [("name", .string "Query")]),
    ("types", .array types),
    ("directives", .array [.object [("name", .string "skip")], .object [("name", .string "lit")]])]
  .object [("data", .object [("__schema", schema)])]

/-- The types that the response declares, and where. -/
def ferryDeclared : List (String × Origin) :=
  [("Query", .introspection "data.__schema.types[1]"),
   ("Load", .introspection "data.__schema.types[3]"),
   ("Deck", .introspection "data.__schema.types[4]")]

/-- What is left out of it, and where. -/
def ferrySkipped : List Skipped :=
  [⟨.implements, "Node", .introspection "data.__schema.types[1].interfaces[0]"⟩,
   ⟨.implements, "", .introspection "data.__schema.types[1].interfaces[1]"⟩,
   ⟨.interface, "Node", .introspection "data.__schema.types[2]"⟩,
   ⟨.union, "Any", .introspection "data.__schema.types[5]"⟩,
   ⟨.directiveDefinition, "lit", .introspection "data.__schema.directives[1]"⟩]

theorem document_keeps_its_entries_ferry :
    Keyed ferryDocument ∧ ∃ schema root, readValue .skip ferryDocument = .ok schema ∧
      schema.declarations.map (fun decl => (decl.name, decl.origin)) = ferryDeclared ∧
      schema.skipped = ferrySkipped ∧
      schemaOf? ferryDocument = some root ∧ ferryDocument.at? root.path = some root.json ∧
      List.Forall₂ (DeclarationFrom ferryDocument) ((root.listed "types").filter declares)
        schema.declarations ∧
      List.Forall₂ (SkippedFrom ferryDocument) (skippedIn root) schema.skipped := by
  have hkeyed : Keyed ferryDocument := by decide +kernel
  have hfound : (readValue .skip ferryDocument).toOption.map (fun schema =>
      (schema.declarations.map (fun decl => (decl.name, decl.origin)), schema.skipped)) =
        some (ferryDeclared, ferrySkipped) := by decide +kernel
  obtain ⟨schema, hschema, hboth⟩ := Option.map_eq_some_iff.mp hfound
  obtain ⟨hdeclared, hskipped⟩ := Prod.mk.inj hboth
  have hread : readValue .skip ferryDocument = .ok schema := toOption_eq_some.mp hschema
  obtain ⟨root, hroot⟩ := document_keeps_its_entries hkeyed hread
  exact ⟨hkeyed, schema, root, hread, hdeclared, hskipped, hroot⟩

end SchemaModel.Introspection
