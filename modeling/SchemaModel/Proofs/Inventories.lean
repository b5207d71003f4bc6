import SchemaModel.Proofs.Derivations
import SchemaModel.Proofs.Encodings

/-! # Skipped Constructs in Both Encodings

    Definition text lists every construct that no model has room for. An introspection document
    lists fewer of them, and by how many can be told from the schema that both write down.

    * **Inventory**: types of every kind, with interfaces that implement interfaces, and definitions
      of directives. The roots are left to each writing.
    * **passedOver**: the constructs of an inventory that a document is read without a word of. The
      interfaces that an interface implements are among them.
    * **Lists**: a text or a document that writes down an inventory, in any order.
    * **skipped_of_lists**: what is skipped in a text is what is skipped in a document and what is
      passed over. -/

namespace SchemaModel

/-! ## Inventories -/

/-- What an inventory says about a type. Interfaces implement interfaces as objects do. -/
inductive FullBody where
  | object (interfaces : List String) (fields : List FieldOutline)
  | interface (interfaces : List String) (fields : List FieldOutline)
  | input (fields : List InputOutline)
  | enum (values : List String)
  | scalar
  | union (members : List String)
  deriving Repr, DecidableEq

/-- A named type of an inventory. -/
structure FullType where
  name : String
  body : FullBody
  deriving Repr, DecidableEq

/-- The types of a schema and the names of the directives that it defines. -/
structure Inventory where
  types : List FullType
  directives : List String
  deriving Repr, DecidableEq

namespace FullBody

/-- The body without the interfaces of an interface. -/
def basic : FullBody → TypeBody
  | object interfaces fields => .object interfaces fields
  | interface _ fields => .interface fields
  | input fields => .input fields
  | enum values => .enum values
  | scalar => .scalar
  | union members => .union members

/-- The interfaces that a type implements. -/
def interfaces : FullBody → List String
  | object interfaces _ | interface interfaces _ => interfaces
  | input _ | enum _ | scalar | union _ => []

/-- The construct that a type itself is, if no model has room for it. -/
def construct? : FullBody → Option Construct
  | interface .. => some .interface
  | union _ => some .union
  | object .. | input _ | enum _ | scalar => none

end FullBody

namespace FullType

/-- The type without the interfaces of an interface. -/
def basic (type : FullType) : TypeOutline := ⟨type.name, type.body.basic⟩

/-- The constructs in a type that no model has room for. -/
def unsupported (type : FullType) : List (Construct × String) :=
  type.body.interfaces.map (fun name => (.implements, name)) ++
    (type.body.construct?.map fun construct => (construct, type.name)).toList

/-- The constructs in a type that a document is read without a word of: all of them if the name is
    one of the introspection system, and else the interfaces of an interface. -/
def passedOver (type : FullType) : List (Construct × String) :=
  if Introspection.isMetaName type.name then type.unsupported
  else
    match type.body with
    | .interface interfaces _ => interfaces.map fun name => (.implements, name)
    | _ => []

/-- The constructs in a type are those that a document lists and those that it passes over. -/
theorem unsupported_perm (type : FullType) :
    type.unsupported.Perm (Introspection.shownSkipped type.basic ++ type.passedOver) := by
  obtain ⟨name, body⟩ := type
  unfold Introspection.shownSkipped passedOver basic
  by_cases hmeta : Introspection.isMetaName name
  · simp [hmeta]
  · cases body with
    | interface interfaces fields =>
      -- the interface itself comes last in a text
      simp only [hmeta, unsupported, FullBody.interfaces, FullBody.construct?, FullBody.basic,
        TypeOutline.skipped]
      exact List.perm_append_comm
    | _ =>
      simp [hmeta, unsupported, FullBody.interfaces, FullBody.construct?, FullBody.basic,
        TypeOutline.skipped]

end FullType

namespace Inventory

/-- The constructs that no model has room for. -/
def unsupported (inventory : Inventory) : List (Construct × String) :=
  inventory.types.flatMap FullType.unsupported ++
    inventory.directives.map fun name => (.directiveDefinition, name)

/-- The constructs that a document is read without a word of. Core directives are among them, since
    documents list them whether they are defined or not. -/
def passedOver (inventory : Inventory) : List (Construct × String) :=
  inventory.types.flatMap FullType.passedOver ++
    (inventory.directives.filter isCoreDirective).map fun name => (.directiveDefinition, name)

/-- The constructs that a document is read with. -/
def shown (inventory : Inventory) : List (Construct × String) :=
  (inventory.types.map FullType.basic).flatMap Introspection.shownSkipped ++
    inventory.directives.flatMap Introspection.shownDirective

/-- Definitions of directives are listed by a document or passed over. -/
theorem directives_perm (names : List String) :
    (names.map fun name => (Construct.directiveDefinition, name)).Perm
      (names.flatMap Introspection.shownDirective ++
        (names.filter isCoreDirective).map fun name => (.directiveDefinition, name)) := by
  have hshown : names.flatMap Introspection.shownDirective =
      (names.filter fun name => !isCoreDirective name).map
        fun name => (.directiveDefinition, name) := by
    induction names with
    | nil => rfl
    | cons name names ih =>
      by_cases hcore : isCoreDirective name <;> simp [Introspection.shownDirective, hcore, ih]
  rw [hshown, ← List.map_append]
  have hsplit := (List.filter_append_perm isCoreDirective names).symm
  exact (hsplit.trans List.perm_append_comm).map _

/-- The constructs of an inventory are those that a document lists and those that it passes
    over. -/
theorem unsupported_perm (inventory : Inventory) :
    inventory.unsupported.Perm (inventory.shown ++ inventory.passedOver) := by
  have htypes : (inventory.types.flatMap FullType.unsupported).Perm
      ((inventory.types.map FullType.basic).flatMap Introspection.shownSkipped ++
        inventory.types.flatMap FullType.passedOver) := by
    rw [List.flatMap_map]
    exact (List.Perm.flatMap_left _ fun type _ => type.unsupported_perm).trans
      (List.flatMap_append_perm _ _ _).symm
  have hparts := htypes.append (directives_perm inventory.directives)
  -- what is passed over among the types is moved behind the directives
  refine hparts.trans ?_
  unfold shown passedOver
  simp only [List.append_assoc]
  refine List.Perm.append_left _ ?_
  rw [← List.append_assoc, ← List.append_assoc]
  exact List.perm_append_comm.append_right _

/-- **Ordinary inventories**: no type has a name of the introspection system, and no core directive
    is defined. -/
structure Ordinary (inventory : Inventory) : Prop where
  names : ∀ type ∈ inventory.types, ¬Introspection.isMetaName type.name
  directives : ∀ name ∈ inventory.directives, ¬isCoreDirective name

/-- **Flat inventories**: no interface implements an interface. -/
def Flat (inventory : Inventory) : Prop :=
  ∀ type ∈ inventory.types, ∀ interfaces fields,
    type.body = .interface interfaces fields → interfaces = []

/-- In an ordinary inventory, nothing is passed over but the interfaces of interfaces. -/
theorem Ordinary.passedOver_eq_nil {inventory : Inventory} (h : inventory.Ordinary) :
    inventory.passedOver = [] ↔ inventory.Flat := by
  have hnone : inventory.directives.filter isCoreDirective = [] :=
    List.filter_eq_nil_iff.mpr h.directives
  have htype : ∀ type ∈ inventory.types, type.passedOver = [] ↔
      ∀ interfaces fields, type.body = .interface interfaces fields → interfaces = [] := by
    intro type htype
    unfold FullType.passedOver
    rw [if_neg (h.names type htype)]
    cases type.body <;> simp
  unfold passedOver Flat
  rw [hnone, List.map_nil, List.append_nil, List.flatMap_eq_nil_iff]
  exact forall₂_congr htype

end Inventory

/-! ## Writing as Text -/

namespace Sdl

/-- What a body says about a type in an inventory, if it is the body of one. -/
def Body.full? : Body → Option FullBody
  | .object interfaces fields =>
    some (.object (interfaces.map Name.text) (fields.map FieldDef.outline))
  | .interface interfaces fields =>
    some (.interface (interfaces.map Name.text) (fields.map FieldDef.outline))
  | .union members => some (.union (members.map Name.text))
  | .enum values => some (.enum (values.map (·.name.text)))
  | .input fields => some (.input (fields.map InputValueDef.outline))
  | .scalar => some .scalar
  | .schema _ | .directive .. => none

/-- The type that a definition stands for, if it is that of one. -/
def Definition.full? (d : Definition) : Option FullType :=
  d.body.full?.map fun body => ⟨d.name, body⟩

/-- The name of the directive that is defined, if one is. -/
def Definition.directive? (d : Definition) : Option String :=
  match d.body with
  | .directive .. => some d.name
  | _ => none

/-- A document is one definition for each type and each directive of an inventory, and perhaps a
    schema block, in any order. It uses no directives other than core ones. -/
structure Document.Lists (document : Document) (inventory : Inventory) : Prop where
  items : ∃ blocks types directives : List Definition,
    document.Perm ((blocks ++ types ++ directives).map .definition) ∧
      (∀ block ∈ blocks, ∃ operations, block.body = .schema operations) ∧
      types.map Definition.full? = inventory.types.map some ∧
      directives.map Definition.directive? = inventory.directives.map some
  core : ∀ usage ∈ document.flatMap Entry.allUsages, usage.construct ≠ .directive

/-- **Texts of an inventory**: the source has no malformed lexeme, and its tokens derive a document
    that lists the inventory. -/
def Lists (source : String) (inventory : Inventory) : Prop :=
  (Feed.ofSource source).ending.fault = none ∧
    ∃ document, DocumentPhrase (Feed.ofSource source).tokens document ∧ document.Lists inventory

/-- The document that a source is parsed into. -/
def treeOf? (source : String) : Option Document :=
  match document (.start .skip (.ofSource source)) with
  | .ok items _ => some items
  | .error _ _ => none

/-- Items that are definitions, and not extensions of the schema block, are those of the grammar. -/
theorem Many.entries_of_definitions {ts : List Token} {items : Document}
    (h : Many ItemPhrase ts items) (hitems : ∀ e ∈ items, ∃ d, e = .definition d) :
    Many EntryPhrase ts items := by
  induction h with
  | nil => exact .nil
  | cons he _ ih =>
    obtain ⟨⟨d, rfl⟩, hothers⟩ := List.forall_mem_cons.mp hitems
    cases he with
    | entry he => exact .cons he (ih hothers)

/-- A source that is parsed into a document that lists an inventory lists it. -/
theorem lists_of_treeOf? {source : String} {items : Document} {inventory : Inventory}
    (htree : treeOf? source = some items) (h : items.Lists inventory) :
    Lists source inventory := by
  have hdefinitions : ∀ e ∈ items, ∃ d, e = .definition d := by
    intro e he
    obtain ⟨blocks, types, directives, hperm, -⟩ := h.items
    obtain ⟨d, -, rfl⟩ := List.mem_map.mp (hperm.mem_iff.mp he)
    exact ⟨d, rfl⟩
  unfold treeOf? at htree
  cases hrun : document (.start .skip (.ofSource source)) with
  | error fault t => simp [hrun] at htree
  | ok found t =>
    obtain rfl : found = items := by simpa [hrun] using htree
    obtain ⟨hfault, hitems, hblocks, hdistinct⟩ := document_ok hrun
    exact ⟨hfault, found, ⟨hitems.entries_of_definitions hdefinitions, hblocks, hdistinct⟩, h⟩

section

variable {d : Definition} (h : ∀ usage ∈ d.usages, usage.construct ≠ .directive)

include h

/-- What is skipped for a definition is what no model has room for in the type. -/
theorem usages_of_full {type : FullType} (hfull : d.full? = some type) :
    d.usages.map Usage.what = type.unsupported := by
  rw [usages_of_core h]
  unfold Definition.full? at hfull
  cases hbody : d.body with
  | schema _ | directive _ _ => simp [hbody, Body.full?] at hfull
  | _ =>
    simp only [hbody, Body.full?, Option.map_some, Option.some.injEq] at hfull
    subst hfull
    simp [FullType.unsupported, FullBody.interfaces, FullBody.construct?, Body.interfaces,
      Body.construct?]

/-- The definition of a directive is skipped itself. -/
theorem usages_of_directive {name : String} (hdirective : d.directive? = some name) :
    d.usages.map Usage.what = [(.directiveDefinition, name)] := by
  rw [usages_of_core h]
  unfold Definition.directive? at hdirective
  cases hbody : d.body with
  | directive _ _ =>
    simp only [hbody, Option.some.injEq] at hdirective
    subst hdirective
    simp [Body.interfaces, Body.construct?]
  | _ => simp [hbody] at hdirective

end

/-- Everything in an inventory that no model has room for is skipped in a document that lists it. -/
theorem Document.Lists.usages_perm {document : Document} {inventory : Inventory}
    (h : document.Lists inventory) :
    ((document.flatMap Entry.usages).map Usage.what).Perm inventory.unsupported := by
  obtain ⟨blocks, types, directives, hperm, hblocks, htypes, hdirectives⟩ := h.items
  have hcore : ∀ d ∈ blocks ++ types ++ directives, ∀ usage ∈ d.usages,
      usage.construct ≠ .directive := by
    intro d hd usage husage
    have hmem : .definition d ∈ document := hperm.mem_iff.mpr (List.mem_map_of_mem hd)
    exact h.core usage (List.mem_flatMap.mpr ⟨_, hmem, husage⟩)
  -- nothing is skipped for a schema block
  have hblockUsages : (blocks.flatMap Definition.usages).map Usage.what = [] := by
    rw [List.map_flatMap]
    apply List.flatMap_eq_nil_iff.mpr
    intro block hblock
    obtain ⟨operations, hbody⟩ := hblocks block hblock
    rw [usages_of_core (hcore block (by simp [hblock]))]
    simp [hbody, Body.interfaces, Body.construct?]
  have htypeUsages : (types.flatMap Definition.usages).map Usage.what =
      inventory.types.flatMap FullType.unsupported :=
    flatMap_usages htypes fun d hd _ hfull => usages_of_full (hcore d (by simp [hd])) hfull
  have hdirectiveUsages : (directives.flatMap Definition.usages).map Usage.what =
      inventory.directives.map fun name => (.directiveDefinition, name) := by
    refine Eq.trans ?_ List.map_eq_flatMap.symm
    exact flatMap_usages hdirectives fun d hd _ hdirective =>
      usages_of_directive (hcore d (by simp [hd])) hdirective
  have hitems := (hperm.flatMap_right Entry.usages).map Usage.what
  rw [List.flatMap_map] at hitems
  refine hitems.trans (List.Perm.of_eq ?_)
  show ((blocks ++ types ++ directives).flatMap Definition.usages).map Usage.what = _
  simp only [List.flatMap_append, List.map_append, hblockUsages, htypeUsages, hdirectiveUsages,
    List.nil_append]
  rfl

/-- A text that lists an inventory is read with everything in it that no model has room for. -/
theorem exists_read_of_lists {source : String} {inventory : Inventory}
    (h : Lists source inventory) :
    ∃ schema, read .skip source = .ok schema ∧
      (schema.skipped.map Skipped.what).Perm inventory.unsupported := by
  obtain ⟨hfault, document, hphrase, hlists⟩ := h
  refine ⟨_, read_of_phrase hphrase hfault, ?_⟩
  rw [skipped_toSchema, List.map_map]
  exact hlists.usages_perm

end Sdl

/-! ## Writing as a Document -/

namespace Introspection

open Json (Shape Slot)

/-- The members of a type. Interfaces list the interfaces that they implement as objects do. -/
def WritesFullBody (json : Json) : FullBody → Prop
  | .object interfaces fields => WritesBody json (.object interfaces fields)
  | .interface interfaces fields =>
    HoldsAll WritesField json "fields" fields ∧ WritesInterfaces json interfaces ∧
      Lacks json "inputFields" ∧ Lacks json "enumValues"
  | .input fields => WritesBody json (.input fields)
  | .enum values => WritesBody json (.enum values)
  | .scalar => WritesBody json .scalar
  | .union members => WritesBody json (.union members)

/-- An entry among the types. -/
structure WritesFullType (json : Json) (type : FullType) : Prop where
  kind : Holds json "kind" (.string (bodyKind type.body.basic).text)
  name : Named json type.name
  body : WritesFullBody json type.body

/-- **Listing in a schema object**: the types stand in any order, among further ones that are
    built-in scalars or part of the introspection system, and so do the directives, among core
    ones. -/
structure ListsSchema (json : Json) (inventory : Inventory) : Prop where
  query : ∃ name, WritesRoot json "queryType" (some name)
  mutation : ∃ root, WritesRoot json "mutationType" root
  subscription : ∃ root, WritesRoot json "subscriptionType" root
  types : ∃ listed others, HoldsAll WritesFullType json "types" listed ∧
    listed.Perm (inventory.types ++ others) ∧
    ∀ type ∈ others, type.basic.isIdle ∨ isMetaName type.name
  directives : json.member? "directives" = none ∧ inventory.directives = [] ∨
    ∃ listed others, HoldsAll Named json "directives" listed ∧
      listed.Perm (inventory.directives ++ others) ∧ ∀ name ∈ others, isCoreDirective name

/-- **Documents of an inventory**: a schema object that lists it, perhaps inside an envelope. -/
def Lists (document : Json) (inventory : Inventory) : Prop :=
  ∃ schema, Encloses document schema ∧ ListsSchema schema inventory

/-- A written type is read as a node that says nothing of the interfaces of an interface. -/
theorem WritesFullType.exists_node {json : Json} {type : FullType} (h : WritesFullType json type) :
    ∃ node, TypeNode.shape json = .ok node ∧ node.Says type.basic := by
  obtain ⟨hkind, hname, hbody⟩ := h
  obtain ⟨name, body⟩ := type
  cases body with
  | interface interfaces fields =>
    obtain ⟨hfields, hinterfaces, hinputs, hvalues⟩ := hbody
    exact exists_interface hname hkind hfields hinterfaces hinputs hvalues
  | object | input | enum | scalar | union => exact WritesEntry.exists_node ⟨hkind, hname, hbody⟩

/-- The directives of a schema object are read as those of the inventory, among core ones. -/
theorem ListsSchema.exists_directives {members : List (String × Json)} {inventory : Inventory}
    (h : ListsSchema (.object members) inventory) :
    ∃ names, (Slot.read (.object members) ⟨4, "directives", true, true⟩
        (Shape.list (nameShape "DirectiveDef"))).getD [] = .ok names ∧
      (names.flatMap shownDirective).Perm (inventory.directives.flatMap shownDirective) := by
  rcases h.directives with ⟨hmissing, hnone⟩ | ⟨names, others, hlisted, hperm, hcore⟩
  · exact ⟨[], getD_directives_of_none hmissing, by simp [hnone]⟩
  · have hothers : others.flatMap shownDirective = [] :=
      List.flatMap_eq_nil_iff.mpr fun name hname => if_pos (hcore name hname)
    refine ⟨names, hlisted.getD_directives, ?_⟩
    simpa [hothers] using hperm.flatMap_right shownDirective

/-- The types of a schema object are read as nodes that say those of the inventory, among others
    for which nothing is skipped. -/
theorem ListsSchema.exists_types {json : Json} {inventory : Inventory}
    (h : ListsSchema json inventory) :
    ∃ part nodes listed, Holds json "types" part ∧ Shape.list TypeNode.shape part = .ok nodes ∧
      List.Forall₂ TypeNode.Says nodes listed ∧
      (listed.flatMap shownSkipped).Perm
        ((inventory.types.map FullType.basic).flatMap shownSkipped) := by
  obtain ⟨listed, others, ⟨part, hpart, hwrites⟩, hperm, hidle⟩ := h.types
  obtain ⟨nodes, hnodes, hsay⟩ := exists_list hwrites fun _ _ htype =>
    WritesFullType.exists_node htype
  refine ⟨part, nodes, listed.map FullType.basic, hpart, hnodes,
    List.forall₂_map_right_iff.mpr hsay, ?_⟩
  have hothers : (others.map FullType.basic).flatMap shownSkipped = [] := by
    rw [List.flatMap_map]
    exact List.flatMap_eq_nil_iff.mpr fun type htype => (shown_of_extra (hidle type htype)).2
  have hshown := (hperm.map FullType.basic).flatMap_right shownSkipped
  rwa [List.map_append, List.flatMap_append, hothers, List.append_nil] at hshown

/-- A document that lists an inventory is read with everything in it that documents show. -/
theorem exists_read_of_lists {document : Json} {inventory : Inventory}
    (h : Lists document inventory) :
    ∃ schema, readValue .skip document = .ok schema ∧
      (schema.skipped.map Skipped.what).Perm inventory.shown := by
  obtain ⟨json, hencloses, hlists⟩ := h
  obtain ⟨query, hquery⟩ := hlists.query
  obtain ⟨mutation, hmutation⟩ := hlists.mutation
  obtain ⟨subscription, hsubscription⟩ := hlists.subscription
  obtain ⟨part, nodes, listed, htypes, hnodes, hsay, hskipped⟩ := hlists.exists_types
  obtain ⟨envelope, hlocate⟩ := hencloses.exists_located htypes
  obtain ⟨members, rfl⟩ := htypes.exists_members
  obtain ⟨names, hnames, hdirectives⟩ := hlists.exists_directives
  have hshape := SchemaNode.shape_eq_ok hquery hmutation hsubscription htypes hnodes hnames
  have hitems : ItemsTell (items envelope ⟨some query, mutation, subscription, nodes, names⟩) _ _ :=
    items_tell envelope rfl hsay
  obtain ⟨schema, hread, hcontent⟩ := readNode_tells hitems
  refine ⟨schema, by simpa only [readValue, hlocate, hshape] using hread, ?_⟩
  -- the content of the schema determines what is skipped up to order
  have hwhat := Multiset.coe_eq_coe.mp (congrArg Content.skipped hcontent)
  exact hwhat.trans (hskipped.append hdirectives)

end Introspection

/-! ## Main Result -/

/-- The findings of a compilation that are about skipped constructs. -/
def Compilation.skippedFindings (compilation : Compilation) : List Diagnostic :=
  compilation.findings.filter (·.code == Diagnostic.skippedConstruct)

/-- What is found about members has one of two codes. -/
theorem code_of_mem_declarationFindings {schema : Schema} {decl : Declaration}
    {finding : Diagnostic} (h : finding ∈ schema.declarationFindings decl) :
    finding.code = Diagnostic.droppedField ∨ finding.code = Diagnostic.droppedArgument := by
  have hinput : ∀ {code noun path : String} {value : InputValue},
      finding ∈ schema.inputFindings code noun path value → finding.code = code := by
    intro code noun path value hmem
    unfold Schema.inputFindings at hmem
    split at hmem
    · rw [List.mem_singleton.mp hmem]
      rfl
    · cases hmem
  unfold Schema.declarationFindings at h
  cases hkind : decl.kind with
  | object fields =>
    rw [hkind] at h
    obtain ⟨field, -, hfield⟩ := List.mem_flatMap.mp h
    unfold Schema.fieldFindings at hfield
    split at hfield
    · rw [List.mem_singleton.mp hfield]
      exact .inl rfl
    · obtain ⟨arg, -, harg⟩ := List.mem_flatMap.mp hfield
      exact .inr (hinput harg)
  | input fields =>
    rw [hkind] at h
    obtain ⟨field, -, hfield⟩ := List.mem_flatMap.mp h
    exact .inl (hinput hfield)
  | enum _ | scalar =>
    rw [hkind] at h
    cases h

/-- The warnings about skipped constructs are the findings of their code. -/
theorem filter_findings (schema : Schema) :
    schema.findings.filter (·.code == Diagnostic.skippedConstruct) =
      schema.skipped.map Diagnostic.ofSkipped := by
  have hskipped : (schema.skipped.map Diagnostic.ofSkipped).filter
      (·.code == Diagnostic.skippedConstruct) = schema.skipped.map Diagnostic.ofSkipped := by
    simp [Diagnostic.ofSkipped]
  have hsubscription : schema.subscriptionFindings.filter
      (·.code == Diagnostic.skippedConstruct) = [] := by
    unfold Schema.subscriptionFindings
    split <;> rfl
  have hdeclarations : (schema.declarations.flatMap schema.declarationFindings).filter
      (·.code == Diagnostic.skippedConstruct) = [] := by
    apply List.filter_eq_nil_iff.mpr
    intro finding hmem
    obtain ⟨decl, -, hfinding⟩ := List.mem_flatMap.mp hmem
    rcases code_of_mem_declarationFindings hfinding with hcode | hcode
    · simp [hcode, Diagnostic.droppedField, Diagnostic.skippedConstruct]
    · simp [hcode, Diagnostic.droppedArgument, Diagnostic.skippedConstruct]
  unfold Schema.findings
  rw [List.filter_append, List.filter_append, hskipped, hsubscription, hdeclarations,
    List.append_nil, List.append_nil]

/-- The number of skipped constructs and the warnings about them are those of the schema. -/
theorem skipped_of_compileSchema {options : Options} {schema : Schema} {compilation : Compilation}
    (h : compileSchema options schema = .ok compilation) :
    compilation.skipped = schema.skipped.length ∧
      compilation.skippedFindings.map Diagnostic.remark =
        (schema.skipped.map Skipped.what).map skippedRemark := by
  obtain ⟨-, rfl⟩ := compileSchema_eq_ok.mp h
  refine ⟨rfl, ?_⟩
  unfold Compilation.skippedFindings
  rw [filter_findings, map_remark_ofSkipped]

/-- **Skipped constructs in both encodings**: for a text and a document that list an inventory,
    everything that no model has room for is skipped in the text, and in the document all of it but
    what is passed over. The numbers and the warnings of the compilations differ by as much. If the
    inventory is ordinary, the same is skipped in both if and only if no interface implements an
    interface. -/
theorem skipped_of_lists {inventory : Inventory} {source : String} {document : Json}
    (hsource : Sdl.Lists source inventory) (hdocument : Introspection.Lists document inventory) :
    ∃ text value, Sdl.read .skip source = .ok text ∧
      Introspection.readValue .skip document = .ok value ∧
      (text.skipped.map Skipped.what).Perm inventory.unsupported ∧
      (text.skipped.map Skipped.what).Perm
        (value.skipped.map Skipped.what ++ inventory.passedOver) ∧
      (inventory.Ordinary →
        ((text.skipped.map Skipped.what).Perm (value.skipped.map Skipped.what) ↔
          inventory.Flat)) ∧
      ∀ options a b, options.policy = .skip → compile options .sdl source = .ok a →
        compileDocument options document = .ok b →
          a.skipped = b.skipped + inventory.passedOver.length ∧
          (a.skippedFindings.map Diagnostic.remark).Perm
            (b.skippedFindings.map Diagnostic.remark ++
              inventory.passedOver.map skippedRemark) := by
  obtain ⟨text, htext, hunsupported⟩ := Sdl.exists_read_of_lists hsource
  obtain ⟨value, hvalue, hshown⟩ := Introspection.exists_read_of_lists hdocument
  have hperm : (text.skipped.map Skipped.what).Perm
      (value.skipped.map Skipped.what ++ inventory.passedOver) :=
    hunsupported.trans (inventory.unsupported_perm.trans (hshown.symm.append_right _))
  have hlength : text.skipped.length = value.skipped.length + inventory.passedOver.length := by
    simpa using hperm.length_eq
  refine ⟨text, value, htext, hvalue, hunsupported, hperm, ?_, ?_⟩
  · intro hordinary
    rw [← hordinary.passedOver_eq_nil]
    constructor
    · intro hagree
      have hsame : text.skipped.length = value.skipped.length := by simpa using hagree.length_eq
      rw [← List.length_eq_zero_iff]
      omega
    · intro hnone
      simpa [hnone] using hperm
  · intro options a b hpolicy ha hb
    obtain ⟨textRead, htextRead, ha⟩ := compile_eq_ok.mp ha
    obtain ⟨valueRead, hvalueRead, hb⟩ := bind_eq_ok.mp hb
    rw [hpolicy] at htextRead hvalueRead
    obtain rfl : text = textRead := Except.ok.inj (htext.symm.trans htextRead)
    obtain rfl : value = valueRead := Except.ok.inj (hvalue.symm.trans hvalueRead)
    obtain ⟨haSkipped, haWarnings⟩ := skipped_of_compileSchema ha
    obtain ⟨hbSkipped, hbWarnings⟩ := skipped_of_compileSchema hb
    constructor
    · rw [haSkipped, hbSkipped, hlength]
    · rw [haWarnings, hbWarnings, ← List.map_append]
      exact hperm.map skippedRemark

/-! ## A Fleet -/

/-- The one field of the types of the fleet. -/
def fleetField : FieldOutline := ⟨"id", [], .named "ID"⟩

/-- An interface that implements another one, an object that implements it, a union, and the
    definition of a directive. -/
def fleetInventory : Inventory where
  types := [⟨"Node", .interface [] [fleetField]⟩, ⟨"Vehicle", .interface ["Node"] [fleetField]⟩,
    ⟨"Query", .object ["Vehicle"] [fleetField]⟩, ⟨"Any", .union ["Query"]⟩]
  directives := ["key"]

/-- The fleet as text. -/
def fleetText : String :=
  "interface Node\x7bid:ID\x7d interface Vehicle implements Node\x7bid:ID\x7d " ++
    "type Query implements Vehicle\x7bid:ID\x7d union Any=Query directive@key on OBJECT"

namespace Sdl

/-- The tree of the text of the fleet. -/
def fleetTree : List Definition :=
  [⟨0, "Node", [], .interface [] [⟨⟨"id", 15⟩, [], .named "ID", []⟩]⟩,
   ⟨22, "Vehicle", [], .interface [⟨"Node", 51⟩] [⟨⟨"id", 56⟩, [], .named "ID", []⟩]⟩,
   ⟨63, "Query", [], .object [⟨"Vehicle", 85⟩] [⟨⟨"id", 93⟩, [], .named "ID", []⟩]⟩,
   ⟨100, "Any", [], .union [⟨"Query", 110⟩]⟩,
   ⟨116, "key", [], .directive [] [⟨"OBJECT", 133⟩]⟩]

theorem lists_fleetText : Lists fleetText fleetInventory := by
  have htree : treeOf? fleetText = some (fleetTree.map .definition) := by decide +kernel
  refine lists_of_treeOf? htree ⟨?_, by decide⟩
  exact ⟨[], fleetTree.take 4, fleetTree.drop 4, .refl _, by simp, by decide, by decide⟩

end Sdl

/-- A type of the fleet in the document, with one field. -/
def fleetEntry (kind name : String) (interfaces : List String) : Json :=
  let field : Json := .object
    [("args", .array []), ("name", .string "id"), ("type", clockLink "SCALAR" "ID")]
  .object [("fields", .array [field]),
    ("interfaces", .array (interfaces.map (clockLink "INTERFACE"))),
    ("kind", .string kind), ("name", .string name)]

/-- The fleet as a document. -/
def fleetDocument : Json :=
  .object
    [("directives", .array [.object [("name", .string "skip")], .object [("name", .string "key")]]),
     ("queryType", .object [("name", .string "Query")]),
     ("types", .array [fleetEntry "OBJECT" "Query" ["Vehicle"], clockLink "UNION" "Any",
       fleetEntry "INTERFACE" "Node" [], fleetEntry "INTERFACE" "Vehicle" ["Node"]])]

namespace Introspection

theorem lists_fleetDocument : Lists fleetDocument fleetInventory := by
  have hlink : ∀ kind name, kind.isWrapper = false →
      WritesType (clockLink (TypeKind.text kind) name) (.named name) :=
    fun _ _ hkind => .named hkind rfl rfl (.inl rfl)
  have hfields : ∀ kind name interfaces, HoldsAll WritesField (fleetEntry kind name interfaces)
      "fields" [fleetField] := by
    intro kind name interfaces
    refine ⟨_, rfl, _, rfl, .cons ?_ .nil⟩
    exact ⟨rfl, ⟨_, rfl, _, rfl, .nil⟩, _, rfl, hlink .scalar "ID" rfl⟩
  have hinterfaces : ∀ kind name interfaces,
      WritesInterfaces (fleetEntry kind name interfaces) interfaces := by
    intro kind name interfaces
    refine .inl ⟨_, rfl, _, rfl, List.forall₂_map_left_iff.mpr ?_⟩
    exact List.forall₂_same.mpr fun name _ => hlink .interface name rfl
  have hinterface : ∀ name interfaces, WritesFullType (fleetEntry "INTERFACE" name interfaces)
      ⟨name, .interface interfaces [fleetField]⟩ := fun name interfaces =>
    ⟨rfl, rfl, hfields _ _ _, hinterfaces _ _ _, .inl rfl, .inl rfl⟩
  have hobject : ∀ name interfaces, WritesFullType (fleetEntry "OBJECT" name interfaces)
      ⟨name, .object interfaces [fleetField]⟩ := fun name interfaces =>
    ⟨rfl, rfl, hfields _ _ _, hinterfaces _ _ _, .inl rfl, .inl rfl⟩
  have hunion : WritesFullType (clockLink "UNION" "Any") ⟨"Any", .union ["Query"]⟩ :=
    ⟨rfl, rfl, .inl rfl, .inl rfl, .inl rfl, .inl rfl⟩
  refine ⟨fleetDocument, .bare rfl rfl,
    ⟨"Query", _, rfl, rfl⟩, ⟨none, .inl rfl⟩, ⟨none, .inl rfl⟩, ?_, .inr ?_⟩
  · refine ⟨[⟨"Query", .object ["Vehicle"] [fleetField]⟩, ⟨"Any", .union ["Query"]⟩,
      ⟨"Node", .interface [] [fleetField]⟩, ⟨"Vehicle", .interface ["Node"] [fleetField]⟩], [],
      ⟨_, rfl, _, rfl, ?_⟩, by decide, by simp⟩
    exact .cons (hobject "Query" ["Vehicle"]) (.cons hunion (.cons (hinterface "Node" [])
      (.cons (hinterface "Vehicle" ["Node"]) .nil)))
  · exact ⟨["skip", "key"], ["skip"], ⟨_, rfl, _, rfl, .cons rfl (.cons rfl .nil)⟩, by decide,
      by decide⟩

end Introspection

theorem skipped_of_lists_fleet :
    ∃ text value a b, Sdl.read .skip fleetText = .ok text ∧
      Introspection.readValue .skip fleetDocument = .ok value ∧
      compile .standard .sdl fleetText = .ok a ∧
      compileDocument .standard fleetDocument = .ok b ∧
      (text.skipped.map Skipped.what).Perm
        (value.skipped.map Skipped.what ++ [(.implements, "Node")]) ∧
      a.skipped = b.skipped + 1 := by
  have htext : (compile .standard .sdl fleetText).toOption.isSome := by decide +kernel
  have hdocument : (compileDocument .standard fleetDocument).toOption.isSome := by decide +kernel
  obtain ⟨a, ha⟩ := Option.isSome_iff_exists.mp htext
  obtain ⟨b, hb⟩ := Option.isSome_iff_exists.mp hdocument
  have ha := toOption_eq_some.mp ha
  have hb := toOption_eq_some.mp hb
  obtain ⟨text, value, hread, hvalue, -, hperm, -, hcompile⟩ :=
    skipped_of_lists Sdl.lists_fleetText Introspection.lists_fleetDocument
  obtain ⟨hskipped, -⟩ := hcompile .standard a b rfl ha hb
  have hpassed : fleetInventory.passedOver = [(.implements, "Node")] := by decide
  rw [hpassed] at hperm hskipped
  exact ⟨text, value, a, b, hread, hvalue, ha, hb, hperm, hskipped⟩

/-- The fleet is ordinary, but what is skipped in its text and in its document is not the same. -/
theorem fleet_skipped_not_perm :
    Sdl.Lists fleetText fleetInventory ∧ Introspection.Lists fleetDocument fleetInventory ∧
      fleetInventory.Ordinary ∧
      ¬∃ text value, Sdl.read .skip fleetText = .ok text ∧
        Introspection.readValue .skip fleetDocument = .ok value ∧
        (text.skipped.map Skipped.what).Perm (value.skipped.map Skipped.what) := by
  refine ⟨Sdl.lists_fleetText, Introspection.lists_fleetDocument,
    ⟨by decide, by decide⟩, ?_⟩
  rintro ⟨text, value, hread, hvalue, hperm⟩
  obtain ⟨found, hfound, hunsupported⟩ := Sdl.exists_read_of_lists Sdl.lists_fleetText
  obtain rfl : text = found := Except.ok.inj (hread.symm.trans hfound)
  obtain ⟨shown, hshown, hlisted⟩ :=
    Introspection.exists_read_of_lists Introspection.lists_fleetDocument
  obtain rfl : value = shown := Except.ok.inj (hvalue.symm.trans hshown)
  -- six constructs are skipped in the text, and five in the document
  have hlength := (hunsupported.symm.trans (hperm.trans hlisted)).length_eq
  exact absurd hlength (by decide)

end SchemaModel
