import SchemaModel.Proofs.Meaning
import SchemaModel.Proofs.Outline
import SchemaModel.Proofs.Parsing

/-! # Outlines Written as Definition Text

    What it is for a definition text to write down an outline, and that reading it tells the
    content of the outline.

    * **Outlines of trees**: the type that a definition stands for, without offsets and directives.
    * **Writes**: the tokens of a source make up a document that consists of a schema block for the
      roots and one definition for each type, in any order. Descriptions, comments and core
      directives may stand anywhere.
    * **tells_of_writes**: a source tells what it writes. -/

namespace SchemaModel.Sdl

/-! ## Outlines of Trees -/

/-- The outline of an argument or input field. -/
def InputValueDef.outline (value : InputValueDef) : InputOutline :=
  ⟨value.name.text, value.type, value.defaultValue⟩

/-- The outline of a field. -/
def FieldDef.outline (field : FieldDef) : FieldOutline :=
  ⟨field.name.text, field.args.map InputValueDef.outline, field.type⟩

/-- What a body says about a type, if it is the body of one. -/
def Body.outline? : Body → Option TypeBody
  | .object interfaces fields =>
    some (.object (interfaces.map Name.text) (fields.map FieldDef.outline))
  | .interface [] fields => some (.interface (fields.map FieldDef.outline))
  | .union members => some (.union (members.map Name.text))
  | .enum values => some (.enum (values.map (·.name.text)))
  | .input fields => some (.input (fields.map InputValueDef.outline))
  | .scalar => some .scalar
  | .interface (_ :: _) _ | .schema _ | .directive .. => none

/-- The type that a definition stands for, if it is that of one. -/
def Definition.outline? (d : Definition) : Option TypeOutline :=
  d.body.outline?.map fun body => ⟨d.name, body⟩

/-! ## Writing -/

/-- A document is one schema block for the roots of an outline and one definition for each of its
    types, in any order, without directives other than core ones. -/
structure Document.Shows (document : Document) (outline : Outline) : Prop where
  items : ∃ (block : Definition) (operations : List (RootOperation × String))
    (definitions : List Definition),
    document.Perm (.definition block :: definitions.map .definition) ∧
      block.body = .schema operations ∧ operations.Perm outline.operations ∧
      definitions.map Definition.outline? = outline.types.map some
  core : ∀ usage ∈ document.flatMap Entry.allUsages, usage.construct ≠ .directive

/-- **Writing as text**: the source has no malformed lexeme, and its tokens derive a document that
    shows the outline. -/
def Writes (source : String) (outline : Outline) : Prop :=
  (Feed.ofSource source).ending.fault = none ∧
    ∃ document, DocumentPhrase (Feed.ofSource source).tokens document ∧ document.Shows outline

/-! ## Contents of Definitions -/

section

variable {lines : LineTable}

@[simp] theorem outline_toInputValue (value : InputValueDef) :
    (value.toInputValue lines).outline = value.outline := rfl

@[simp] theorem outline_toField (field : FieldDef) :
    (field.toField lines).outline = field.outline := by
  simp [FieldDef.toField, Field.outline, FieldDef.outline, Function.comp_def]

/-- What a definition declares has the content of its outline. -/
theorem content_declaration? (d : Definition) :
    ((d.declaration? lines).filter fun decl => !decl.isIdle).map Declaration.content =
      d.outline?.bind TypeOutline.content? := by
  unfold Definition.declaration? Definition.outline?
  cases hbody : d.body with
  | interface interfaces fields =>
    cases interfaces <;>
      simp [Body.declarationKind?, Body.outline?, TypeOutline.content?, TypeBody.content?]
  | scalar =>
    -- a built-in scalar is declared, but does not count
    by_cases hb : isBuiltinScalar d.name <;>
      simp [Body.declarationKind?, Body.outline?, TypeOutline.content?, TypeBody.content?,
        TypeOutline.isIdle, Declaration.isIdle, Declaration.isScalar, Declaration.content,
        DeclarationKind.content, Option.filter, hb]
  | _ =>
    simp [Body.declarationKind?, Body.outline?, TypeOutline.content?, TypeBody.content?,
      TypeOutline.isIdle, Declaration.isIdle, Declaration.isScalar, Declaration.content,
      DeclarationKind.content, Option.filter, Function.comp_def]

/-- What a usage says, without its place. -/
def Usage.what (usage : Usage) : Construct × String :=
  (usage.construct, usage.name)

theorem directive_of_mem_directiveUsages {directives : List Name} {usage : Usage}
    (h : usage ∈ directiveUsages directives) : usage.construct = .directive := by
  obtain ⟨d, -, rfl⟩ := List.mem_map.mp h
  rfl

theorem directive_of_mem_usages {value : InputValueDef} {usage : Usage}
    (h : usage ∈ value.usages) : usage.construct = .directive :=
  directive_of_mem_directiveUsages h

/-- Inside the braces of a definition nothing but directives is skipped. -/
theorem directive_of_mem_memberUsages {body : Body} {usage : Usage}
    (h : usage ∈ body.memberUsages) : usage.construct = .directive := by
  have hfields : ∀ fields : List FieldDef, usage ∈ fields.flatMap FieldDef.usages →
      usage.construct = .directive := by
    intro fields hmem
    obtain ⟨field, -, hfield⟩ := List.mem_flatMap.mp hmem
    rcases List.mem_append.mp hfield with hargs | hdirectives
    · obtain ⟨arg, -, harg⟩ := List.mem_flatMap.mp hargs
      exact directive_of_mem_usages harg
    · exact directive_of_mem_directiveUsages hdirectives
  have hinputs : ∀ values : List InputValueDef, usage ∈ values.flatMap InputValueDef.usages →
      usage.construct = .directive := by
    intro values hmem
    obtain ⟨value, -, hvalue⟩ := List.mem_flatMap.mp hmem
    exact directive_of_mem_usages hvalue
  cases body with
  | object _ fields | interface _ fields => exact hfields fields h
  | input values | directive values _ => exact hinputs values h
  | enum values =>
    obtain ⟨value, -, hvalue⟩ := List.mem_flatMap.mp h
    exact directive_of_mem_directiveUsages hvalue
  | schema _ | union _ | scalar => simp [Body.memberUsages] at h

/-- Without directives other than core ones, the interfaces and the definition itself are all that
    is skipped. -/
theorem usages_of_core {d : Definition} (h : ∀ usage ∈ d.usages, usage.construct ≠ .directive) :
    d.usages.map Usage.what = d.body.interfaces.map (fun name => (.implements, name.text)) ++
      (d.body.construct?.map fun construct => (construct, d.name)).toList := by
  have hdirectives : directiveUsages d.directives = [] := by
    apply List.eq_nil_iff_forall_not_mem.mpr
    intro usage hmem
    exact h usage (by simp [Definition.usages, hmem]) (directive_of_mem_directiveUsages hmem)
  have hmembers : d.body.memberUsages = [] := by
    apply List.eq_nil_iff_forall_not_mem.mpr
    intro usage hmem
    exact h usage (by simp [Definition.usages, hmem]) (directive_of_mem_memberUsages hmem)
  cases hconstruct : d.body.construct? <;>
    simp [Definition.usages, hdirectives, hmembers, hconstruct, Usage.what]

/-- What is skipped for definitions that stand for something each is what is skipped for what they
    stand for. -/
theorem flatMap_usages {α : Type} {stands : Definition → Option α}
    {skipped : α → List (Construct × String)} {ds : List Definition} {as : List α}
    (h : ds.map stands = as.map some)
    (hskipped : ∀ d ∈ ds, ∀ a, stands d = some a → d.usages.map Usage.what = skipped a) :
    (ds.flatMap Definition.usages).map Usage.what = as.flatMap skipped := by
  induction ds generalizing as with
  | nil => simp_all
  | cons d ds ih =>
    cases as with
    | nil => simp at h
    | cons a as =>
      simp only [List.map_cons, List.cons.injEq] at h
      rw [List.forall_mem_cons] at hskipped
      rw [List.flatMap_cons, List.map_append, hskipped.1 a h.1, ih h.2 hskipped.2,
        List.flatMap_cons]

/-- What is skipped for a definition is what is skipped for the type that it stands for. -/
theorem usages_of_outline {d : Definition} {type : TypeOutline} (houtline : d.outline? = some type)
    (h : ∀ usage ∈ d.usages, usage.construct ≠ .directive) :
    d.usages.map Usage.what = type.skipped := by
  rw [usages_of_core h]
  unfold Definition.outline? at houtline
  cases hbody : d.body with
  | interface interfaces fields =>
    cases interfaces <;> simp [hbody, Body.outline?] at houtline
    subst houtline
    rfl
  | schema _ | directive _ _ => simp [hbody, Body.outline?] at houtline
  | _ =>
    simp only [hbody, Body.outline?, Option.map_some, Option.some.injEq] at houtline
    subst houtline
    simp [TypeOutline.skipped, Body.interfaces, Body.construct?]

end

/-! ## Contents of Documents -/

theorem operations_nodup (outline : Outline) : (outline.operations.map Prod.fst).Nodup := by
  unfold Outline.operations
  cases outline.mutation <;> cases outline.subscription <;> simp

/-- A schema block for the operations of an outline names its roots, in whatever order. -/
theorem rootsOfOperations_of_perm {operations : List (RootOperation × String)} {outline : Outline}
    (h : operations.Perm outline.operations) : rootsOfOperations operations = outline.roots := by
  -- no operation is named twice, so that looking one up does not depend on the order
  have hlookup : ∀ operation, operations.lookup operation =
      outline.operations.lookup operation := by
    intro operation
    have hnodup := operations_nodup outline
    apply Option.ext
    intro type
    rw [lookup_eq_some_iff_mem ((h.map Prod.fst).nodup_iff.mpr hnodup),
      lookup_eq_some_iff_mem hnodup]
    exact h.mem_iff
  unfold rootsOfOperations Outline.roots
  rw [hlookup, hlookup, hlookup]
  unfold Outline.operations
  cases outline.mutation <;> cases outline.subscription <;> rfl

namespace Document.Shows

variable {document : Document} {outline : Outline} (h : document.Shows outline)
  (lines : LineTable)

include h

theorem declarations_eq :
    ((Schema.counted (document.filterMap (Entry.declaration? lines))).map
      Declaration.content : Multiset DeclarationContent) = outline.content.declarations := by
  obtain ⟨block, operations, definitions, hperm, hblock, -, hdefinitions⟩ := h.items
  -- the schema block declares nothing
  have hnone : Entry.declaration? lines (.definition block) = none := by
    simp [Entry.declaration?, Definition.declaration?, hblock, Body.declarationKind?]
  have hitems := (hperm.filterMap (Entry.declaration? lines)).filter fun decl => !decl.isIdle
  rw [List.filterMap_cons, hnone, List.filterMap_map] at hitems
  have hcontents : (((definitions.filterMap (Definition.declaration? lines)).filter
      fun decl => !decl.isIdle).map Declaration.content) =
      outline.types.filterMap TypeOutline.content? := by
    have htypes : outline.types.filterMap TypeOutline.content? =
        (definitions.map Definition.outline?).filterMap (·.bind TypeOutline.content?) := by
      rw [hdefinitions, List.filterMap_map]
      rfl
    rw [htypes, List.filter_filterMap, List.map_filterMap, List.filterMap_map]
    apply List.filterMap_congr
    intro d _
    exact content_declaration? d
  refine Multiset.coe_eq_coe.mpr ((hitems.map Declaration.content).trans ?_)
  exact List.Perm.of_eq hcontents

theorem skipped_eq :
    ((document.flatMap Entry.usages).map Usage.what : Multiset (Construct × String)) =
      outline.content.skipped := by
  obtain ⟨block, operations, definitions, hperm, hblock, -, hdefinitions⟩ := h.items
  have hcore : ∀ d, .definition d ∈ document → ∀ usage ∈ d.usages,
      usage.construct ≠ .directive := fun d hd usage husage =>
    h.core usage (List.mem_flatMap.mpr ⟨_, hd, husage⟩)
  -- nothing is skipped for the schema block
  have hnone : block.usages.map Usage.what = [] := by
    rw [usages_of_core (hcore block (hperm.mem_iff.mpr (by simp)))]
    simp [hblock, Body.interfaces, Body.construct?]
  have hdefined : (definitions.flatMap Definition.usages).map Usage.what =
      outline.types.flatMap TypeOutline.skipped := by
    refine flatMap_usages hdefinitions fun d hd _ houtline => usages_of_outline houtline ?_
    exact hcore d (hperm.mem_iff.mpr (List.mem_cons_of_mem _ (List.mem_map_of_mem hd)))
  have hitems := (hperm.flatMap_right Entry.usages).map Usage.what
  rw [List.flatMap_cons, List.map_append, List.flatMap_map] at hitems
  refine Multiset.coe_eq_coe.mpr (hitems.trans (List.Perm.of_eq ?_))
  show block.usages.map Usage.what ++ (definitions.flatMap Definition.usages).map Usage.what = _
  rw [hnone, List.nil_append, hdefined]

theorem roots_eq : ∃ offset operations, document.findSome? Entry.schemaBlock? =
    some (offset, operations) ∧ rootsOfOperations operations = outline.roots := by
  obtain ⟨block, operations, definitions, hperm, hblock, hoperations, hdefinitions⟩ := h.items
  -- definitions of types are no schema blocks
  have hnone : definitions.filterMap (Entry.schemaBlock? ∘ Entry.definition) = [] := by
    apply List.filterMap_eq_nil_iff.mpr
    intro d hd
    have hsome : d.outline? ∈ outline.types.map some := hdefinitions ▸ List.mem_map_of_mem hd
    obtain ⟨offset, name, directives, body⟩ := d
    cases body with
    | schema _ => simp [Definition.outline?, Body.outline?] at hsome
    | _ => rfl
  have hsome : Entry.schemaBlock? (.definition block) = some (block.offset, operations) := by
    obtain ⟨offset, name, directives, body⟩ := block
    obtain rfl : body = .schema operations := hblock
    rfl
  have hfilter := hperm.filterMap Entry.schemaBlock?
  rw [List.filterMap_cons, hsome, List.filterMap_map, hnone] at hfilter
  refine ⟨block.offset, operations, ?_, rootsOfOperations_of_perm hoperations⟩
  rw [← List.head?_filterMap, List.perm_singleton.mp hfilter]
  rfl

theorem content_toSchema :
    (document.toSchema lines (document.flatMap Entry.usages)).content = outline.content := by
  obtain ⟨offset, operations, hfind, hroots⟩ := h.roots_eq
  -- places are all that is lost
  have hskipped : ((document.flatMap Entry.usages).map (Usage.skipped lines)).map
      Skipped.what = (document.flatMap Entry.usages).map Usage.what := by
    rw [List.map_map]
    rfl
  unfold Document.toSchema Schema.content
  rw [hfind]
  simp only [hskipped, h.declarations_eq lines, h.skipped_eq, hroots]
  rfl

end Document.Shows

/-! ## Main Result -/

/-- **Texts tell what they write**: the reading of a definition text that writes an outline. -/
theorem tells_of_writes {source : String} {outline : Outline} (h : Writes source outline) :
    Tells (Sdl.read .skip source) outline.content := by
  obtain ⟨hfault, document, hphrase, hshows⟩ := h
  exact ⟨_, read_of_phrase hphrase hfault,
    hshows.content_toSchema (LineTable.ofText source.toList)⟩

end SchemaModel.Sdl
