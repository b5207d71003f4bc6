import SchemaModel.Proofs.Relocation
import SchemaModel.Proofs.Reprinting

/-! # Schemas up to Origins

    Where things are written has no bearing on what a schema compiles to.

    * **Moved trees**: a tree with other offsets declares the same if the positions of these are the
      same ones.
    * **Same but origins**: schemas that differ in their origins alone. Such are the schemas of a tree
      with the line tables of any two texts, and at any offsets.
    * **Compiled alike**: schemas that are the same but for their origins have equal models, and what
      is found about them reads the same. -/

namespace SchemaModel

namespace Sdl

open Movable (move)

/-! ## Moved Trees -/

theorem schemaBlock?_move (f : Nat → Nat) (e : Entry) :
    (move f e).schemaBlock? = e.schemaBlock?.map fun block => (f block.1, block.2) := by
  cases e with
  | extension => rfl
  | definition d =>
    obtain ⟨offset, name, directives, body⟩ := d
    cases body <;> rfl

theorem findSome?_schemaBlock?_move (f : Nat → Nat) (items : Document) :
    (items.map (move f)).findSome? Entry.schemaBlock? =
      (items.findSome? Entry.schemaBlock?).map fun block => (f block.1, block.2) := by
  induction items with
  | nil => rfl
  | cons e items ih =>
    rw [List.map_cons, List.findSome?_cons, List.findSome?_cons, schemaBlock?_move]
    cases e.schemaBlock? with
    | none => exact ih
    | some block => rfl

section

variable {lines other : LineTable} {f : Nat → Nat}
  (h : ∀ offset, other.position (f offset) = lines.position offset)

include h

theorem toInputValue_move (value : InputValueDef) :
    (move f value).toInputValue other = value.toInputValue lines := by
  show (⟨_, _, _, .sdl (other.position (f value.name.offset))⟩ : InputValue) = _
  rw [h]
  rfl

theorem toField_move (field : FieldDef) : (move f field).toField other = field.toField lines := by
  show (⟨_, _, (field.args.map (move f)).map _, .sdl (other.position (f field.name.offset))⟩ :
    Field) = _
  simp only [h, List.map_map, Function.comp_def, toInputValue_move h]
  rfl

theorem declaration?_move (e : Entry) : (move f e).declaration? other = e.declaration? lines := by
  cases e with
  | extension offset d => rfl
  | definition d =>
    obtain ⟨offset, name, directives, body⟩ := d
    have hkind : (move f body).declarationKind? other = body.declarationKind? lines := by
      cases body with
      | object interfaces fields =>
        show some (DeclarationKind.object ((fields.map (move f)).map _)) = _
        simp only [List.map_map, Function.comp_def, toField_move h]
        rfl
      | input fields =>
        show some (DeclarationKind.input ((fields.map (move f)).map _)) = _
        simp only [List.map_map, Function.comp_def, toInputValue_move h]
        rfl
      | enum values =>
        show some (DeclarationKind.enum ((values.map (move f)).map _)) = _
        rw [List.map_map]
        rfl
      | _ => rfl
    show ((move f body).declarationKind? other).map
      (fun kind => (⟨name, kind, .sdl (other.position (f offset))⟩ : Declaration)) = _
    rw [hkind, h]
    rfl

theorem skipped_move (usage : Usage) : (move f usage).skipped other = usage.skipped lines := by
  show (⟨_, _, .sdl (other.position (f usage.offset))⟩ : Skipped) = _
  rw [h]
  rfl

/-- **Moved trees**: a tree with other offsets, whose positions are the same, is the same schema. -/
theorem toSchema_move (usages : List Usage) (items : Document) :
    Document.toSchema other (move f usages) (move f items) = items.toSchema lines usages := by
  have hdeclarations : (items.map (move f)).filterMap (Entry.declaration? other) =
      items.filterMap (Entry.declaration? lines) := by
    rw [List.filterMap_map]
    exact congrArg (List.filterMap · items) (funext (declaration?_move h))
  have hskipped : (usages.map (move f)).map (Usage.skipped other) =
      usages.map (Usage.skipped lines) := by
    rw [List.map_map]
    exact congrArg (List.map · usages) (funext (skipped_move h))
  show Document.toSchema other (usages.map (move f)) (items.map (move f)) = _
  unfold Document.toSchema
  rw [hdeclarations, hskipped, findSome?_schemaBlock?_move]
  cases items.findSome? Entry.schemaBlock? with
  | none => rfl
  | some block => simp only [Option.map_some, h]

end

end Sdl

/-! ## Same but Origins -/

/-- **Same but origins**: the schemas say the same in the same order, perhaps in other places. -/
structure SameButOrigins (schema other : Schema) : Prop where
  declarations : schema.declarations.map Declaration.outline =
    other.declarations.map Declaration.outline
  roots : schema.roots = other.roots
  skipped : schema.skipped.map Skipped.what = other.skipped.map Skipped.what

namespace SameButOrigins

theorem symm {schema other : Schema} (h : SameButOrigins schema other) :
    SameButOrigins other schema :=
  ⟨h.declarations.symm, h.roots.symm, h.skipped.symm⟩

theorem trans {schema middle other : Schema} (h : SameButOrigins schema middle)
    (hother : SameButOrigins middle other) : SameButOrigins schema other :=
  ⟨h.declarations.trans hother.declarations, h.roots.trans hother.roots,
    h.skipped.trans hother.skipped⟩

end SameButOrigins

namespace Sdl

open Movable (move)

/-- The outline of what is declared does not depend on the positions. -/
theorem outline_declaration? (lines other : LineTable) (e : Entry) :
    (e.declaration? lines).map Declaration.outline =
      (e.declaration? other).map Declaration.outline := by
  cases e with
  | extension => rfl
  | definition d =>
    obtain ⟨offset, name, directives, body⟩ := d
    cases body <;>
      simp [Entry.declaration?, Definition.declaration?, Body.declarationKind?, Declaration.outline,
        DeclarationKind.outline, Field.outline, FieldDef.toField, InputValue.outline,
        InputValueDef.toInputValue, Function.comp_def]

/-- The conventional roots are found by names and by what is an object. -/
theorem conventionalRoots_of_outlines {decls others : List Declaration}
    (h : decls.map Declaration.outline = others.map Declaration.outline) :
    conventionalRoots decls = conventionalRoots others := by
  have hnamed : ∀ name, objectNamed? decls name = objectNamed? others name := by
    intro name
    induction decls generalizing others with
    | nil => simp_all
    | cons decl decls ih =>
      cases others with
      | nil => simp at h
      | cons found others =>
        obtain ⟨heq, hothers⟩ := List.cons.inj (show decl.outline :: _ = found.outline :: _ from h)
        have hname : decl.name = found.name := congrArg TypeOutline.name heq
        unfold objectNamed?
        rw [List.find?_cons, List.find?_cons, hname]
        cases found.name == name with
        | true => simp only [isObject_of_content (content_of_outline heq)]
        | false => exact ih hothers
  simp only [conventionalRoots, hnamed]

/-- A tree says the same with the positions of any text. -/
theorem sameButOrigins_toSchema (lines other : LineTable) (usages : List Usage) (items : Document) :
    SameButOrigins (items.toSchema lines usages) (items.toSchema other usages) := by
  have hdeclarations : (items.filterMap (Entry.declaration? lines)).map Declaration.outline =
      (items.filterMap (Entry.declaration? other)).map Declaration.outline := by
    rw [List.map_filterMap, List.map_filterMap]
    exact congrArg (List.filterMap · items) (funext (outline_declaration? lines other))
  have hskipped : (usages.map (Usage.skipped lines)).map Skipped.what =
      (usages.map (Usage.skipped other)).map Skipped.what := by
    rw [List.map_map, List.map_map]
    exact List.map_congr_left fun _ _ => rfl
  unfold Document.toSchema
  cases items.findSome? Entry.schemaBlock? with
  | none => exact ⟨hdeclarations, conventionalRoots_of_outlines hdeclarations, hskipped⟩
  | some block => exact ⟨hdeclarations, Eq.refl (rootsOfOperations block.2), hskipped⟩

/-- **Trees up to places**: trees that differ in their offsets alone say the same. -/
theorem sameButOrigins_of_unplaced {usages usages' : List Usage} {items items' : Document}
    (husages : unplaced usages = unplaced usages') (hitems : unplaced items = unplaced items')
    (lines other : LineTable) :
    SameButOrigins (items.toSchema lines usages) (items'.toSchema other usages') := by
  -- in an empty text everything has the same position
  let empty := LineTable.ofText []
  have hempty : ∀ offset, empty.position ((fun _ => 0) offset) = empty.position offset := by
    intro offset
    simp [empty, LineTable.position, LineTable.ofText]
  have hmove : Document.toSchema empty (unplaced usages) (unplaced items) =
      items.toSchema empty usages := toSchema_move hempty usages items
  have hmove' : Document.toSchema empty (unplaced usages') (unplaced items') =
      items'.toSchema empty usages' := toSchema_move hempty usages' items'
  rw [husages, hitems, hmove'] at hmove
  have hsame := sameButOrigins_toSchema lines empty usages items
  rw [← hmove] at hsame
  exact hsame.trans (sameButOrigins_toSchema empty other usages' items')

end Sdl

/-! ## Compiled Alike -/

section

variable {schema other : Schema} (h : SameButOrigins schema other)

include h

theorem SameButOrigins.content_eq : schema.content = other.content := by
  unfold Schema.content
  rw [Multiset.coe_eq_coe.mpr (counted_of_outlines (.of_eq h.declarations)), h.roots, h.skipped]

/-- The models of both schemas are the same, if the schemas are acceptable. -/
theorem SameButOrigins.modelOf_eq (hacceptable : schema.Acceptable) (options : Options) :
    modelOf options schema = modelOf options other := by
  have hcontent := h.content_eq
  have hnamed : (Schema.named schema.declarations).map Declaration.outline =
      (Schema.named other.declarations).map Declaration.outline :=
    filter_outlines (fun x y hxy => by rw [show x.name = y.name from congrArg TypeOutline.name hxy])
      h.declarations
  have hdefinitions : definitionsOf options schema = definitionsOf options other :=
    map_eq_of_outlines (fun x y hxy => definitionOf_of_outline hcontent hacceptable hxy) hnamed
  simp only [modelOf, hdefinitions, h.roots]

/-- What is found about both schemas reads the same, in the same order. -/
theorem SameButOrigins.findings_eq :
    schema.findings.map Diagnostic.remark = other.findings.map Diagnostic.remark := by
  have hcontent := h.content_eq
  have hskipped : (schema.skipped.map Diagnostic.ofSkipped).map Diagnostic.remark =
      (other.skipped.map Diagnostic.ofSkipped).map Diagnostic.remark := by
    rw [map_remark_ofSkipped, map_remark_ofSkipped, h.skipped]
  have hsubscription : schema.subscriptionFindings.map Diagnostic.remark =
      other.subscriptionFindings.map Diagnostic.remark := by
    unfold Schema.subscriptionFindings
    rw [h.roots]
    split <;> rfl
  have hdeclarations : (schema.declarations.flatMap schema.declarationFindings).map
      Diagnostic.remark = (other.declarations.flatMap other.declarationFindings).map
        Diagnostic.remark := by
    rw [List.map_flatMap, List.map_flatMap, List.flatMap_def, List.flatMap_def]
    exact congrArg List.flatten (map_eq_of_outlines
      (fun x y hxy => declarationFindings_of_content hcontent (content_of_outline hxy))
      h.declarations)
  simp only [Schema.findings, List.map_append, hskipped, hsubscription, hdeclarations]

end

/-- **Alike**: two compilations both fail, or both succeed with the same model, as many skipped
    constructs, and findings that read the same. -/
def AlikeOutcome : Except Failure Compilation → Except Failure Compilation → Prop
  | .ok a, .ok b =>
    a.model = b.model ∧ a.skipped = b.skipped ∧
      a.findings.map Diagnostic.remark = b.findings.map Diagnostic.remark
  | .error _, .error _ => True
  | _, _ => False

/-- **Compiled alike**: schemas that are the same but for their origins are compiled alike. -/
theorem compileSchema_of_sameButOrigins {schema other : Schema} (h : SameButOrigins schema other)
    (options : Options) :
    AlikeOutcome (compileSchema options schema) (compileSchema options other) := by
  have hcontent := h.content_eq
  by_cases hs : schema.Acceptable
  · have ho := acceptable_of_content hcontent hs
    have hlength : schema.skipped.length = other.skipped.length := by
      simpa using congrArg List.length h.skipped
    rw [compileSchema_eq_ok.mpr ⟨hs, rfl⟩, compileSchema_eq_ok.mpr ⟨ho, rfl⟩]
    exact ⟨h.modelOf_eq hs options, hlength, h.findings_eq⟩
  · obtain ⟨_, hschema⟩ := compileSchema_error hs options
    obtain ⟨_, hother⟩ :=
      compileSchema_error (fun ho => hs (acceptable_of_content hcontent.symm ho)) options
    rw [hschema, hother]
    trivial

end SchemaModel
