import SchemaModel.Proofs.Printing
import SchemaModel.Proofs.Pruning

/-! # Legible Sources

    Everything that is read from a source is legible: written down again, it is read as the same.

    * **Phrases**: what a phrase of portable tokens stands for is legible, phrase by phrase up to
      the items of a document.
    * **Sources**: the declarations of a source are legible, and so are the pruned ones. -/

namespace SchemaModel

namespace Sdl

/-! ## Members -/

section

variable {ts : List Token} (hts : ∀ token ∈ ts, token.Portable)

include hts

theorem NamePhrase.word {key : Name} (h : NamePhrase ts key) : Word (fun _ => True) key.text := by
  obtain @⟨token, hname⟩ := h
  exact word_of_portable (hts token List.mem_cons_self) hname trivial

/-- What phrases of portable tokens in braces or parentheses stand for is good, if what such a phrase
    stands for is. -/
theorem Enclosed.forall_of_portable {α : Type} {opening closing : Punctuator} {phrase : Phrase α}
    {good : α → Prop} {as : List α}
    (hphrase : ∀ {us : List Token}, (∀ token ∈ us, token.Portable) →
      ∀ {a : α}, phrase us a → good a)
    (h : Enclosed opening closing phrase ts as) : ∀ a ∈ as, good a := by
  intro a ha
  obtain ⟨us, hus, hsub⟩ := h.exists_of_mem ha
  exact hphrase (fun token htoken => hts token (hsub htoken)) hus

/-- A default is legible. -/
theorem DefaultPhrase.legible {defaultValue : Option Value} (h : DefaultPhrase ts defaultValue) :
    ∀ v ∈ defaultValue, LegibleValue v := by
  cases h with
  | absent => simp
  | present _ hv =>
    intro v hmem
    obtain rfl := Option.mem_some_iff.mp hmem
    exact hv.spells fun token htoken => hts token (List.mem_append_right _ htoken)

/-- An argument or input field is legible. -/
theorem InputValuePhrase.legible {d : InputValueDef} (h : InputValuePhrase ts d) :
    d.outline.Legible := by
  obtain ⟨-, hkey, -, htype, hdefault, -⟩ := h
  exact ⟨hkey.word fun token ht => hts token (by simp [ht]),
    htype.spells fun token ht => hts token (by simp [ht]),
    hdefault.legible fun token ht => hts token (by simp [ht])⟩

/-- A field is legible. -/
theorem FieldPhrase.legible {d : FieldDef} (h : FieldPhrase ts d) : d.outline.Legible := by
  cases h with
  | @intro ds ks as cs ts us key args type directives _ hkey hargs _ htype _ =>
    have hlegible : ∀ arg ∈ args, arg.outline.Legible :=
      Enclosed.forall_of_portable (fun token ht => hts token (by simp [ht]))
        InputValuePhrase.legible hargs
    exact ⟨hkey.word fun token ht => hts token (by simp [ht]), List.forall_mem_map.mpr hlegible,
      htype.spells fun token ht => hts token (by simp [ht])⟩

/-- A value of an enum is legible. -/
theorem EnumValuePhrase.word {d : EnumValueDef} (h : EnumValuePhrase ts d) :
    Word (·.isReserved = false) d.name.text := by
  obtain ⟨-, hname, hreserved, -⟩ := h
  exact word_of_portable (hts _ (by simp)) hname hreserved

/-! ## Definitions -/

/-- What a definition of a type declares is legible. -/
theorem TypePhrase.legible {d : Definition} (h : TypePhrase ts d) {lines : LineTable}
    {decl : Declaration} (hdecl : d.declaration? lines = some decl) : decl.outline.Legible := by
  cases h with
  | @object token ks is us fs key interfaces directives fields _ hkey _ _ hfields =>
    have hlegible : ∀ field ∈ fields, field.outline.Legible :=
      Enclosed.forall_of_portable (fun token ht => hts token (by simp [ht])) FieldPhrase.legible
        hfields
    obtain rfl := Option.some.inj hdecl
    refine ⟨hkey.word fun token ht => hts token (by simp [ht]), ?_⟩
    simpa [Declaration.outline, DeclarationKind.outline, TypeBody.Legible] using hlegible
  | interface _ _ _ _ _ => simp [Definition.declaration?, Body.declarationKind?] at hdecl
  | union _ _ _ _ => simp [Definition.declaration?, Body.declarationKind?] at hdecl
  | @enum token ks us vs key directives values _ hkey _ hvalues =>
    have hlegible : ∀ value ∈ values, Word (·.isReserved = false) value.name.text :=
      Enclosed.forall_of_portable (fun token ht => hts token (by simp [ht])) EnumValuePhrase.word
        hvalues
    obtain rfl := Option.some.inj hdecl
    refine ⟨hkey.word fun token ht => hts token (by simp [ht]), ?_⟩
    simpa [Declaration.outline, DeclarationKind.outline, TypeBody.Legible] using hlegible
  | @input token ks us fs key directives fields _ hkey _ hfields =>
    have hlegible : ∀ field ∈ fields, field.outline.Legible :=
      Enclosed.forall_of_portable (fun token ht => hts token (by simp [ht])) InputValuePhrase.legible
        hfields
    obtain rfl := Option.some.inj hdecl
    refine ⟨hkey.word fun token ht => hts token (by simp [ht]), ?_⟩
    simpa [Declaration.outline, DeclarationKind.outline, TypeBody.Legible] using hlegible
  | scalar _ hkey _ =>
    obtain rfl := Option.some.inj hdecl
    exact ⟨hkey.word fun token ht => hts token (by simp [ht]), trivial⟩

/-- What an item of a document declares is legible. Extensions declare nothing. -/
theorem ItemPhrase.legible {e : Entry} (h : ItemPhrase ts e) {lines : LineTable}
    {decl : Declaration} (hdecl : e.declaration? lines = some decl) : decl.outline.Legible := by
  cases h with
  | schemaExtension _ _ _ => simp [Entry.declaration?] at hdecl
  | entry h =>
    cases h with
    | schema _ h | directive _ h =>
      cases h
      simp [Entry.declaration?, Definition.declaration?, Body.declarationKind?] at hdecl
    | extension _ _ _ => simp [Entry.declaration?] at hdecl
    | type _ h => exact h.legible (fun token ht => hts token (by simp [ht])) hdecl

end

/-! ## Sources -/

/-- **Legible sources**: the declarations of a schema that is read from a source are legible. -/
theorem legible_of_read {policy : Policy} {source : String} {schema : Schema}
    (h : read policy source = .ok schema) :
    ∀ decl ∈ schema.declarations, decl.outline.Legible := by
  obtain ⟨items, t, hrun, rfl⟩ := read_eq_ok.mp h
  obtain ⟨-, hitems, -, -⟩ := document_ok hrun
  intro decl hdecl
  -- the schema block has no part in the declarations
  have hdecl : decl ∈ items.filterMap (Entry.declaration? (LineTable.ofText source.toList)) := by
    unfold Document.toSchema at hdecl
    split at hdecl <;> exact hdecl
  obtain ⟨e, he, hdecl⟩ := List.mem_filterMap.mp hdecl
  obtain ⟨us, hus, hsub⟩ := hitems.exists_of_mem he
  exact hus.legible (fun token ht => portable_of_mem_tokens token (hsub ht)) hdecl

end Sdl

/-! ## Pruned Declarations -/

/-- A pruned declaration is legible if the declaration is. -/
theorem legible_pruned {schema : Schema} {decl : Declaration} (h : decl.outline.Legible) :
    (decl.pruned schema).outline.Legible := by
  refine ⟨h.name, ?_⟩
  have hbody := h.body
  obtain ⟨name, kind, origin⟩ := decl
  cases kind with
  | object fields =>
    intro outline hmem
    obtain ⟨_, hpruned, rfl⟩ := List.mem_map.mp hmem
    obtain ⟨field, hfield, rfl⟩ := List.mem_map.mp hpruned
    have hlegible := hbody field.outline (List.mem_map_of_mem (List.mem_of_mem_filter hfield))
    refine ⟨hlegible.name, fun outline hmem => ?_, hlegible.type⟩
    obtain ⟨arg, harg, rfl⟩ := List.mem_map.mp hmem
    exact hlegible.args _ (List.mem_map_of_mem (List.mem_of_mem_filter harg))
  | input fields =>
    intro outline hmem
    obtain ⟨field, hfield, rfl⟩ := List.mem_map.mp hmem
    exact hbody _ (List.mem_map_of_mem (List.mem_of_mem_filter hfield))
  | enum values => exact hbody
  | scalar => trivial

end SchemaModel
