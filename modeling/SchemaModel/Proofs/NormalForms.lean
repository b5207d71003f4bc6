import SchemaModel.Proofs.Items
import SchemaModel.Proofs.Literals
import SchemaModel.Proofs.References
import SchemaModel.Proofs.Strictness

/-! # Normal Forms

    No type reference has a non-null wrapping directly inside another one, and both encodings read
    every other one.

    * **Written**: a reference in normal form is a phrase of tokens and a chain of links, and is read
      from either of them.
    * **Links**: what a chain has to be like for a reference to be read from it.
    * **Read schemas**: the references in a schema that is read, and in its model, are in normal form. -/

namespace SchemaModel

/-! ## Normal Forms -/

namespace TypeRef

@[simp] theorem isNonNull_map {α β : Type} (f : α → β) (type : TypeRef α) :
    (type.map f).isNonNull = type.isNonNull := by
  cases type <;> rfl

theorem map_map {α β γ : Type} (f : α → β) (g : β → γ) (type : TypeRef α) :
    (type.map f).map g = type.map (g ∘ f) := by
  induction type with
  | named leaf => rfl
  | list item ih => exact congrArg TypeRef.list ih
  | nonNull inner ih => exact congrArg TypeRef.nonNull ih

theorem map_id {α : Type} (type : TypeRef α) : type.map id = type := by
  induction type with
  | named leaf => rfl
  | list item ih => exact congrArg TypeRef.list ih
  | nonNull inner ih => exact congrArg TypeRef.nonNull ih

theorem normal_map {α β : Type} {f : α → β} {type : TypeRef α} :
    (type.map f).Normal ↔ type.Normal := by
  induction type with
  | named leaf => rfl
  | list item ih => exact ih
  | nonNull inner ih => simp [TypeRef.map, Normal, ih]

/-- The characters of the text of a type. -/
theorem toList_text_list (item : TypeRef String) :
    (TypeRef.list item).text.toList = ('[' :: item.text.toList) ++ [']'] := by
  simp [text, textWith]

theorem toList_text_nonNull (inner : TypeRef String) :
    (TypeRef.nonNull inner).text.toList = inner.text.toList ++ ['!'] := by
  simp [text, textWith]

end TypeRef

/-! ## Texts -/

namespace Sdl

/-- A name has nothing but characters of names in it. -/
theorem not_mem_of_isNameText {text : String} (h : isNameText text) {c : Char}
    (hc : isNamePart c = false) : c ∉ text.toList := by
  obtain ⟨d, ds, htext, -, hall⟩ := exists_of_isNameText h
  intro hmem
  have hpart := hall c (htext ▸ hmem)
  rw [hc] at hpart
  cases hpart

/-- A name ends in no bang, and in no bracket. -/
theorem ne_concat_of_isNameText {name : String} (h : isNameText name) {c : Char}
    (hc : isNamePart c = false) (cs : List Char) : name.toList ≠ cs ++ [c] := by
  intro hname
  refine not_mem_of_isNameText h hc ?_
  rw [hname]
  exact List.mem_append_right _ List.mem_cons_self

/-- **Distinct texts**: types whose leaves are names are written alike only if they are the same. -/
theorem text_injective {type other : TypeRef String} (h : isNameText type.base)
    (hother : isNameText other.base) (heq : type.text.toList = other.text.toList) :
    type = other := by
  -- the last character tells a name, a list and a non-null type apart
  induction type generalizing other with
  | named leaf =>
    cases other with
    | named name => exact congrArg TypeRef.named (String.toList_inj.mp heq)
    | list item =>
      exact absurd (heq.trans (TypeRef.toList_text_list item))
        (ne_concat_of_isNameText h (by decide) _)
    | nonNull inner =>
      exact absurd (heq.trans (TypeRef.toList_text_nonNull inner))
        (ne_concat_of_isNameText h (by decide) _)
  | list item ih =>
    rw [TypeRef.toList_text_list] at heq
    cases other with
    | named name =>
      exact absurd heq.symm (ne_concat_of_isNameText hother (by decide) _)
    | list other =>
      rw [TypeRef.toList_text_list] at heq
      exact congrArg TypeRef.list (ih h hother (by simpa using heq))
    | nonNull inner =>
      rw [TypeRef.toList_text_nonNull] at heq
      exact absurd (List.append_inj_right' heq rfl) (by decide)
  | nonNull inner ih =>
    rw [TypeRef.toList_text_nonNull] at heq
    cases other with
    | named name => exact absurd heq.symm (ne_concat_of_isNameText hother (by decide) _)
    | list item =>
      rw [TypeRef.toList_text_list] at heq
      exact absurd (List.append_inj_right' heq rfl) (by decide)
    | nonNull other =>
      rw [TypeRef.toList_text_nonNull] at heq
      exact congrArg TypeRef.nonNull (ih h hother (by simpa using heq))

/-! ## Phrases -/

/-- A name, wherever it stands. -/
def nameToken (name : String) : Token := ⟨wordKind name.toList, ⟨0, 0⟩, name⟩

/-- The tokens of a type. -/
def typeTokens : TypeRef String → List Token
  | .named leaf => [nameToken leaf]
  | .list item => [markToken .bracketOpen] ++ (typeTokens item ++ [markToken .bracketClose])
  | .nonNull inner => typeTokens inner ++ [markToken .bang]

theorem portable_typeTokens {type : TypeRef String} (h : isNameText type.base) :
    ∀ token ∈ typeTokens type, token.Portable := by
  induction type with
  | named leaf =>
    intro token htoken
    obtain rfl := List.mem_singleton.mp htoken
    exact scansAs_of_isNameText h
  | list item ih =>
    intro token htoken
    simp only [typeTokens, List.mem_append, List.mem_singleton] at htoken
    rcases htoken with rfl | hitem | rfl
    · exact portable_markToken .bracketOpen
    · exact ih h token hitem
    · exact portable_markToken .bracketClose
  | nonNull inner ih =>
    intro token htoken
    simp only [typeTokens, List.mem_append, List.mem_singleton] at htoken
    rcases htoken with hinner | rfl
    · exact ih h token hinner
    · exact portable_markToken .bang

/-- The types that may stand in front of a bang. -/
def BareTypePhrase : Nat → Phrase (TypeRef String)
  | 0 => BareType fun _ _ => False
  | levels + 1 => BareType (TypeRefPhrase levels)

theorem typeRefPhrase_eq (levels : Nat) : TypeRefPhrase levels = Banged (BareTypePhrase levels) := by
  cases levels <;> rfl

/-- The tokens of a type in normal form are a phrase for it, at every level that is deep enough. If
    there is no bang at its end, there may be one more. -/
theorem typeRefPhrase_typeTokens {type : TypeRef String} (h : type.Normal) {levels : Nat}
    (hdepth : type.listDepth ≤ levels) :
    TypeRefPhrase levels (typeTokens type) type ∧
      (type.isNonNull = false → BareTypePhrase levels (typeTokens type) type) := by
  rw [typeRefPhrase_eq]
  -- the second half is what a bang behind the type asks for
  induction type generalizing levels with
  | named leaf =>
    have hname : NamePhrase [nameToken leaf] ⟨leaf, 0⟩ := .intro (isName_wordKind _)
    have hbare : BareTypePhrase levels [nameToken leaf] (.named leaf) := by
      cases levels <;> exact .named hname
    exact ⟨.plain hbare, fun _ => hbare⟩
  | list item ih =>
    cases levels with
    | zero => exact absurd hdepth (Nat.not_succ_le_zero _)
    | succ levels =>
      have hitem := (ih h (Nat.le_of_succ_le_succ hdepth)).1
      rw [← typeRefPhrase_eq] at hitem
      have hbare : BareTypePhrase (levels + 1) (typeTokens (.list item)) (.list item) :=
        .list (lone_markToken .bracketOpen) hitem (lone_markToken .bracketClose)
      exact ⟨.plain hbare, fun _ => hbare⟩
  | nonNull inner ih =>
    obtain ⟨hinner, hnormal⟩ := h
    have hbare := (ih hnormal hdepth).2 hinner
    exact ⟨.nonNull hbare (lone_markToken .bang), fun hfalse => absurd hfalse (by simp [TypeRef.isNonNull])⟩

/-- **Written**: a type in normal form with a name for its leaf is legible, as long as it is not
    nested too deep. -/
theorem legibleType_of_normal {type : TypeRef String} (h : type.Normal)
    (hleaf : isNameText type.base) (hdepth : type.listDepth ≤ nestingLimit) : LegibleType type :=
  (typeRefPhrase_typeTokens h hdepth).1.spells (portable_typeTokens hleaf)

/-- A phrase stands for a type in normal form. -/
theorem TypeRefPhrase.normal {levels : Nat} {ts : List Token} {type : TypeRef String}
    (h : TypeRefPhrase levels ts type) : type.Normal := by
  have hbanged : ∀ {inner : Phrase (TypeRef String)} {ts : List Token} {type : TypeRef String},
      (∀ {us : List Token} {item : TypeRef String}, inner us item → item.Normal) →
      Banged (BareType inner) ts type → type.Normal := by
    intro inner ts type hinner hbanged
    cases hbanged with
    | plain hbare =>
      cases hbare with
      | named _ => trivial
      | list _ hitem _ =>
        have hnormal := hinner hitem
        exact hnormal
    | nonNull hbare _ =>
      cases hbare with
      | named _ => exact ⟨rfl, trivial⟩
      | list _ hitem _ =>
        have hnormal := hinner hitem
        exact ⟨rfl, hnormal⟩
  induction levels generalizing ts type with
  | zero => exact hbanged (fun h => h.elim) h
  | succ levels ih => exact hbanged ih h

/-- So every legible type is in normal form. -/
theorem LegibleType.normal {type : TypeRef String} (h : LegibleType type) : type.Normal := by
  obtain ⟨ts, -, -, hphrase⟩ := h 0 [] (by simp [Apart])
  exact hphrase.normal

/-! ## Sources -/

/-- A type with one field. -/
def fieldSource (name key : String) (type : TypeRef String) : String :=
  "type " ++ name ++ " \x7b\n  " ++ key ++ ": " ++ type.text ++ "\n\x7d\n"

theorem word_of_isNameText {text : String} (h : isNameText text) : Word (fun _ => True) text :=
  ⟨_, isName_wordKind _, trivial, scansAs_of_isNameText h⟩

/-- A legible type is read as the type of a field. -/
theorem read_fieldSource {name key : String} {type : TypeRef String} (hname : isNameText name)
    (hkey : isNameText key) (htype : LegibleType type) (policy : Policy) :
    ∃ schema, readSource .sdl policy (fieldSource name key type) = .ok schema ∧
      schema.declarations.map Declaration.outline =
        [⟨name, .object [] [⟨key, [], type⟩]⟩] := by
  -- the source is the print of a definition
  let resolved : ModelType := type.map fun leaf => ⟨leaf, .object, ⟨leaf, false⟩⟩
  let definition : ModelDefinition := .object ⟨name, name, [⟨key, key, resolved, []⟩]⟩
  have hresolved : resolved.map NamedRef.name = type := by
    rw [TypeRef.map_map]
    exact TypeRef.map_id type
  have hlegible : definition.outline.Legible := by
    refine ⟨word_of_isNameText hname, ?_⟩
    show ∀ field ∈ [ModelField.outline _], field.Legible
    simp only [List.forall_mem_singleton, ModelField.outline, hresolved]
    exact ⟨word_of_isNameText hkey, by simp, htype⟩
  have htext : definition.source = fieldSource name key type := by
    show bracedText "type" name [ModelField.text _] = _
    simp only [ModelField.text, modelTypeText_eq, hresolved]
    apply String.toList_inj.mp
    simp [bracedText, fieldSource]
  obtain ⟨⟨d, hphrase, hdeclares, husages⟩, hfault⟩ :=
    feed_of_spells (spells_definition hlegible) trivial
  rw [htext] at hphrase hfault
  have hdocument : DocumentPhrase (Feed.ofSource (fieldSource name key type)).tokens
      [.definition d] := by
    refine ⟨many_singleton.mpr (.type .absent hphrase), ?_, ?_⟩
    · simp [hphrase.schemaBlock?_eq_none]
    · simp [Document.operations, hphrase.schemaBlock?_eq_none]
  have hread := read_of_phrase hdocument hfault
  have houtline := congrFun hdeclares (LineTable.ofText (fieldSource name key type).toList)
  obtain ⟨decl, hdecl, hdeclOutline⟩ := Option.map_eq_some_iff.mp houtline
  refine ⟨Document.toSchema (LineTable.ofText (fieldSource name key type).toList)
    ([Entry.definition d].flatMap Entry.usages) [.definition d], ?_, ?_⟩
  · -- nothing is skipped, so that both policies read the same
    cases policy with
    | skip => exact hread
    | reject =>
      refine readSource_reject_eq_ok.mpr ⟨hread, ?_⟩
      simp [Document.toSchema, hphrase.schemaBlock?_eq_none, Entry.usages, husages]
  · simp [Document.toSchema, hphrase.schemaBlock?_eq_none, Entry.declaration?, hdecl, hdeclOutline,
      definition, ModelDefinition.outline, ModelField.outline, hresolved]

end Sdl

/-! ## Chains -/

namespace Introspection

/-- The chain that encodes a type, with a link of the given kind for its leaf. -/
def TypeChain.ofTypeRef (kind : TypeKind) : TypeRef String → TypeChain
  | .named leaf => .last kind (some leaf)
  | .list item => .wrapping .list none (ofTypeRef kind item)
  | .nonNull inner => .wrapping .nonNull none (ofTypeRef kind inner)

/-- A link of a chain, and whether it has an inner one. -/
structure Link where
  kind : TypeKind
  name : Option String
  hasInner : Bool
  deriving Repr, DecidableEq

/-- The links of a chain. The first one that is no list and not non-null is the final one: it names a
    type, and nothing is wrapped in it. -/
def TypeChain.links : TypeChain → List Link
  | .last kind name => [⟨kind, name, false⟩]
  | .wrapping kind name inner => ⟨kind, name, true⟩ :: if kind.isWrapper then inner.links else []

/-- **Well linked**: every wrapper wraps something, the final link has a name, and no non-null link
    wraps another one. -/
structure TypeChain.WellLinked (chain : TypeChain) : Prop where
  wraps : ∀ link ∈ chain.links, link.kind.isWrapper → link.hasInner
  named : ∀ link ∈ chain.links.getLast?, link.name.isSome
  single : chain.links.IsChain fun outer inner => ¬(outer.kind = .nonNull ∧ inner.kind = .nonNull)

theorem toTypeRef_final_eq_ok (chain : TypeChain) {path : Json.Path} {type : TypeRef String}
    (hkind : ¬chain.kind.isWrapper) :
    chain.toTypeRef path = .ok type ↔ ∃ leaf, chain.name = some leaf ∧ type = .named leaf := by
  cases chain with
  | last kind name | wrapping kind name inner =>
    replace hkind : ¬kind.isWrapper := hkind
    cases name <;>
      simp [TypeChain.toTypeRef, hkind, TypeChain.toTypeRef.leaf, TypeChain.name, eq_comm]

theorem toTypeRef_list_eq_ok {path : Json.Path} {name : Option String} {inner : TypeChain}
    {type : TypeRef String} :
    (TypeChain.wrapping .list name inner).toTypeRef path = .ok type ↔
      ∃ item, inner.toTypeRef (path ++ [.key "ofType"]) = .ok item ∧ type = .list item := by
  simp only [TypeChain.toTypeRef, TypeKind.isWrapper, if_true, bind_eq_ok]
  refine exists_congr fun item => and_congr_right fun _ => ?_
  rw [if_neg (by decide), pure_eq_ok, eq_comm]

theorem toTypeRef_nonNull_eq_ok {path : Json.Path} {name : Option String} {inner : TypeChain}
    {type : TypeRef String} :
    (TypeChain.wrapping .nonNull name inner).toTypeRef path = .ok type ↔
      ∃ item, inner.toTypeRef (path ++ [.key "ofType"]) = .ok item ∧ item.isNonNull = false ∧
        type = .nonNull item := by
  simp only [TypeChain.toTypeRef, TypeKind.isWrapper, if_true, bind_eq_ok]
  refine exists_congr fun item => and_congr_right fun _ => ?_
  cases h : item.isNonNull <;> simp [TypeRef.nonNull?, h, pure, Except.pure, throw, throwThe,
    MonadExceptOf.throw, eq_comm]

/-- What can be the kind of the outermost link of a chain. -/
theorem isWrapper_iff {kind : TypeKind} : kind.isWrapper ↔ kind = .list ∨ kind = .nonNull := by
  cases kind <;> simp [TypeKind.isWrapper]

/-- **Written**: a type in normal form is read from its chain. -/
theorem toTypeRef_ofTypeRef {type : TypeRef String} (h : type.Normal) {kind : TypeKind}
    (hkind : ¬kind.isWrapper) (path : Json.Path) :
    (TypeChain.ofTypeRef kind type).toTypeRef path = .ok type := by
  induction type generalizing path with
  | named leaf => exact (toTypeRef_final_eq_ok (.last kind leaf) hkind).mpr ⟨leaf, rfl, rfl⟩
  | list item ih => exact toTypeRef_list_eq_ok.mpr ⟨item, ih h _, rfl⟩
  | nonNull inner ih =>
    obtain ⟨hinner, hnormal⟩ := h
    exact toTypeRef_nonNull_eq_ok.mpr ⟨inner, ih hnormal _, hinner, rfl⟩

/-- What is read from a chain is non-null exactly if its outermost link is. -/
theorem isNonNull_of_toTypeRef {chain : TypeChain} {path : Json.Path} {type : TypeRef String}
    (h : chain.toTypeRef path = .ok type) : type.isNonNull ↔ chain.kind = .nonNull := by
  by_cases hkind : chain.kind.isWrapper
  · cases chain with
    | last kind name =>
      replace hkind : kind.isWrapper := hkind
      simp [TypeChain.toTypeRef, hkind] at h
    | wrapping kind name inner =>
      rcases isWrapper_iff.mp hkind with hlist | hnonNull
      · obtain rfl : kind = .list := hlist
        obtain ⟨item, -, rfl⟩ := toTypeRef_list_eq_ok.mp h
        simp [TypeRef.isNonNull, TypeChain.kind]
      · obtain rfl : kind = .nonNull := hnonNull
        obtain ⟨item, -, -, rfl⟩ := toTypeRef_nonNull_eq_ok.mp h
        simp [TypeRef.isNonNull, TypeChain.kind]
  · obtain ⟨leaf, -, rfl⟩ := (toTypeRef_final_eq_ok _ hkind).mp h
    have hne : chain.kind ≠ .nonNull := fun hnonNull => hkind (isWrapper_iff.mpr (.inr hnonNull))
    simp [TypeRef.isNonNull, hne]

/-- **Read**: what is read from a chain is in normal form. -/
theorem normal_of_toTypeRef {chain : TypeChain} {path : Json.Path} {type : TypeRef String}
    (h : chain.toTypeRef path = .ok type) : type.Normal := by
  induction chain generalizing path type with
  | last kind name =>
    by_cases hkind : kind.isWrapper
    · simp [TypeChain.toTypeRef, hkind] at h
    · obtain ⟨leaf, -, rfl⟩ := (toTypeRef_final_eq_ok (.last kind name) hkind).mp h
      trivial
  | wrapping kind name inner ih =>
    by_cases hkind : kind.isWrapper
    · rcases isWrapper_iff.mp hkind with rfl | rfl
      · obtain ⟨item, hitem, rfl⟩ := toTypeRef_list_eq_ok.mp h
        have hnormal := ih hitem
        exact hnormal
      · obtain ⟨item, hitem, hinner, rfl⟩ := toTypeRef_nonNull_eq_ok.mp h
        exact ⟨hinner, ih hitem⟩
    · obtain ⟨leaf, -, rfl⟩ := (toTypeRef_final_eq_ok (.wrapping kind name inner) hkind).mp h
      trivial

theorem links_eq_cons (chain : TypeChain) :
    ∃ hasInner others, chain.links = ⟨chain.kind, chain.name, hasInner⟩ :: others := by
  cases chain <;> exact ⟨_, _, rfl⟩

/-- A final link is well linked if it has a name. -/
theorem wellLinked_final {chain : TypeChain} (hkind : ¬chain.kind.isWrapper) :
    chain.WellLinked ↔ chain.name.isSome := by
  have hlinks : ∃ hasInner, chain.links = [⟨chain.kind, chain.name, hasInner⟩] := by
    cases chain with
    | last kind name => exact ⟨false, rfl⟩
    | wrapping kind name inner =>
      refine ⟨true, ?_⟩
      replace hkind : ¬kind.isWrapper := hkind
      simp [TypeChain.links, hkind, TypeChain.kind, TypeChain.name]
  obtain ⟨hasInner, hlinks⟩ := hlinks
  constructor
  · intro h
    exact h.named ⟨chain.kind, chain.name, hasInner⟩ (by rw [hlinks]; rfl)
  · intro h
    constructor <;> simp [hlinks, hkind, h]

/-- So a type is read from a final link exactly if that is well linked. -/
theorem succeeds_final_iff (chain : TypeChain) (path : Json.Path)
    (hkind : ¬chain.kind.isWrapper) :
    (∃ type, chain.toTypeRef path = .ok type) ↔ chain.WellLinked := by
  simp [toTypeRef_final_eq_ok chain hkind, wellLinked_final hkind, Option.isSome_iff_exists]

/-- A wrapper is well linked if what it wraps is, and if they are not both non-null. -/
theorem wellLinked_wrapping {kind : TypeKind} {name : Option String} {inner : TypeChain}
    (hkind : kind.isWrapper) :
    (TypeChain.wrapping kind name inner).WellLinked ↔
      inner.WellLinked ∧ ¬(kind = .nonNull ∧ inner.kind = .nonNull) := by
  obtain ⟨hasInner, others, hinner⟩ := links_eq_cons inner
  have hlinks : (TypeChain.wrapping kind name inner).links = ⟨kind, name, true⟩ :: inner.links := by
    simp [TypeChain.links, hkind]
  constructor
  · intro h
    obtain ⟨hwraps, hnamed, hsingle⟩ := h
    rw [hlinks, hinner] at hwraps hnamed hsingle
    obtain ⟨hkinds, hsingle⟩ := List.isChain_cons_cons.mp hsingle
    refine ⟨⟨?_, ?_, ?_⟩, hkinds⟩
    · rw [hinner]
      exact fun link hlink => hwraps link (List.mem_cons_of_mem _ hlink)
    · rw [hinner]
      simpa using hnamed
    · rw [hinner]
      exact hsingle
  · intro h
    obtain ⟨⟨hwraps, hnamed, hsingle⟩, hkinds⟩ := h
    rw [hinner] at hwraps hnamed hsingle
    refine ⟨?_, ?_, ?_⟩
    · rw [hlinks, hinner]
      intro link hlink hwrapper
      rcases List.mem_cons.mp hlink with rfl | hlink
      · rfl
      · exact hwraps link hlink hwrapper
    · rw [hlinks, hinner]
      simpa using hnamed
    · rw [hlinks, hinner]
      exact List.isChain_cons_cons.mpr ⟨hkinds, hsingle⟩

/-- **Chains**: a type is read from a chain exactly if that is well linked, however long it is. -/
theorem toTypeRef_succeeds_iff (chain : TypeChain) (path : Json.Path) :
    (∃ type, chain.toTypeRef path = .ok type) ↔ chain.WellLinked := by
  induction chain generalizing path with
  | last kind name =>
    by_cases hkind : kind.isWrapper
    · constructor
      · intro h
        obtain ⟨type, htype⟩ := h
        simp [TypeChain.toTypeRef, hkind] at htype
      · intro h
        have hinner := h.wraps ⟨kind, name, false⟩ List.mem_cons_self hkind
        cases hinner
    · exact succeeds_final_iff (.last kind name) path hkind
  | wrapping kind name inner ih =>
    by_cases hkind : kind.isWrapper
    · -- what is wrapped decides, but for a non-null type, which must not be wrapped in another one
      rw [wellLinked_wrapping hkind, ← ih (path ++ [.key "ofType"])]
      rcases isWrapper_iff.mp hkind with rfl | rfl
      · simp [toTypeRef_list_eq_ok]
      · simp only [toTypeRef_nonNull_eq_ok]
        constructor
        · intro h
          obtain ⟨type, item, hitem, hinner, -⟩ := h
          refine ⟨⟨item, hitem⟩, ?_⟩
          simp [← isNonNull_of_toTypeRef hitem, hinner]
        · intro h
          obtain ⟨⟨item, hitem⟩, hkinds⟩ := h
          refine ⟨.nonNull item, item, hitem, ?_, rfl⟩
          simpa [← isNonNull_of_toTypeRef hitem] using hkinds
    · exact succeeds_final_iff (.wrapping kind name inner) path hkind

/-! ## Documents -/

/-- What the items of a list are converted to is good, if what each of them is converted to is. -/
theorem forall_of_convertFrom {α β : Type} {convert : Json.Path → α → Fallible β}
    {good : β → Prop} (h : ∀ {path a b}, convert path a = .ok b → good b) {path : Json.Path}
    {index : Nat} {as : List α} {bs : List β} (hrun : convertFrom path convert index as = .ok bs) :
    ∀ b ∈ bs, good b := by
  induction as generalizing index bs with
  | nil =>
    obtain rfl : [] = bs := Except.ok.inj hrun
    simp
  | cons a as ih =>
    simp only [convertFrom, bind_eq_ok, pure_eq_ok] at hrun
    obtain ⟨b, hb, others, hothers, rfl⟩ := hrun
    exact List.forall_mem_cons.mpr ⟨h hb, ih hothers⟩

section

variable {envelope : Envelope} {path : Json.Path}

theorem normal_of_inputValue {node : InputValueNode} {value : InputValue}
    (h : inputValue envelope path node = .ok value) : value.type.Normal := by
  simp only [inputValue, bind_eq_ok, pure_eq_ok] at h
  obtain ⟨defaultValue, -, type, htype, rfl⟩ := h
  exact normal_of_toTypeRef htype

theorem normal_of_field {node : FieldNode} {found : Field}
    (h : field envelope path node = .ok found) :
    ∀ type ∈ found.type :: found.args.map InputValue.type, type.Normal := by
  simp only [field, bind_eq_ok, pure_eq_ok] at h
  obtain ⟨type, htype, args, hargs, rfl⟩ := h
  have hnormal := forall_of_convertFrom normal_of_inputValue hargs
  exact List.forall_mem_cons.mpr ⟨normal_of_toTypeRef htype, List.forall_mem_map.mpr hnormal⟩

theorem kind_of_declare {name : String} {kind : Fallible DeclarationKind} {decl : Declaration}
    (h : declare envelope path name kind = .ok (.declared decl)) : kind = .ok decl.kind := by
  obtain ⟨found, hfound, hdecl⟩ := map_eq_ok.mp h
  obtain rfl := Item.declared.inj hdecl
  exact hfound

/-- What an item of a type declares has references in normal form. -/
theorem normal_of_mem_typeItems {node : TypeNode} {decl : Declaration}
    (h : .ok (.declared decl) ∈ typeItems envelope path node) :
    ∀ type ∈ decl.kind.typeRefs, type.Normal := by
  unfold typeItems at h
  split at h
  · -- a scalar has none
    have hkind := kind_of_declare (List.mem_singleton.mp h).symm
    rw [← Except.ok.inj hkind]
    simp [DeclarationKind.typeRefs]
  · split at h
    · simp at h
    · rcases List.mem_append.mp h with himplemented | hdeclared
      · simp [skip, List.mem_mapIdx] at himplemented
      · obtain ⟨fields, hfields, hkind⟩ :=
          map_eq_ok.mp (kind_of_declare (List.mem_singleton.mp hdeclared).symm)
        have hnormal := forall_of_convertFrom normal_of_field hfields
        rw [← hkind]
        intro type htype
        obtain ⟨field, hfield, htype⟩ := List.mem_flatMap.mp htype
        exact hnormal field hfield type htype
  · have hkind := kind_of_declare (List.mem_singleton.mp h).symm
    simp only [bind_eq_ok, pure_eq_ok] at hkind
    obtain ⟨nodes, -, fields, hfields, hkind⟩ := hkind
    have hnormal := forall_of_convertFrom normal_of_inputValue hfields
    rw [← hkind]
    exact List.forall_mem_map.mpr hnormal
  · have hkind := kind_of_declare (List.mem_singleton.mp h).symm
    simp only [bind_eq_ok, pure_eq_ok] at hkind
    obtain ⟨values, -, hkind⟩ := hkind
    rw [← hkind]
    simp [DeclarationKind.typeRefs]
  all_goals simp [skip] at h

/-- What an item of a schema declares has references in normal form. -/
theorem normal_of_mem_items {node : SchemaNode} {decl : Declaration}
    (h : .ok (.declared decl) ∈ items envelope node) :
    ∀ type ∈ decl.kind.typeRefs, type.Normal := by
  simp only [items, List.mem_append, List.mem_flatten, List.mem_mapIdx] at h
  rcases h with (hroot | htype) | hdirective
  · split at hroot <;> simp at hroot
  · obtain ⟨listed, ⟨i, hi, rfl⟩, hmem⟩ := htype
    split at hmem
    · cases hmem
    · exact normal_of_mem_typeItems hmem
  · obtain ⟨listed, ⟨i, hi, rfl⟩, hmem⟩ := hdirective
    split at hmem <;> simp [skip] at hmem

/-- What is declared in the end was declared before, or is by one of the items. -/
theorem mem_of_readItems {policy : Policy} {schema result : Schema} {its : List (Fallible Item)}
    (h : readItems envelope policy schema its = .ok result) {decl : Declaration}
    (hdecl : decl ∈ result.declarations) :
    decl ∈ schema.declarations ∨ .ok (.declared decl) ∈ its := by
  induction its generalizing schema with
  | nil =>
    obtain rfl : schema = result := Except.ok.inj h
    exact .inl hdecl
  | cons item its ih =>
    match item with
    | .error _ => cases h
    | .ok item =>
      obtain ⟨next, hnext, hrest⟩ := bind_eq_ok.mp h
      rcases ih hrest with hbefore | hmem
      · cases item with
        | declared declaration =>
          obtain rfl := Except.ok.inj hnext
          rcases List.mem_append.mp hbefore with hold | hnew
          · exact .inl hold
          · obtain rfl := List.mem_singleton.mp hnew
            exact .inr List.mem_cons_self
        | skipped construct =>
          cases policy with
          | skip =>
            obtain rfl := Except.ok.inj hnext
            exact .inl hbefore
          | reject => cases hnext
      · exact .inr (List.mem_cons_of_mem _ hmem)

end

/-- **Documents**: the references in a schema that is read from a document are in normal form. -/
theorem normal_of_readValue {policy : Policy} {document : Json} {schema : Schema}
    (h : readValue policy document = .ok schema) : ∀ type ∈ schema.typeRefs, type.Normal := by
  unfold readValue at h
  split at h
  · cases h
  · split at h
    · cases h
    · intro type htype
      obtain ⟨decl, hdecl, htype⟩ := List.mem_flatMap.mp htype
      rcases mem_of_readItems h hdecl with hnone | hmem
      · cases hnone
      · exact normal_of_mem_items hmem type htype

end Introspection

/-! ## Schemas -/

/-- **Texts**: the references in a schema that is read from definition text are in normal form. -/
theorem Sdl.normal_of_read {policy : Policy} {source : String} {schema : Schema}
    (h : Sdl.read policy source = .ok schema) : ∀ type ∈ schema.typeRefs, type.Normal := by
  intro type htype
  obtain ⟨decl, hdecl, htype⟩ := List.mem_flatMap.mp htype
  have hbody := (legible_of_read h decl hdecl).body
  obtain ⟨name, kind, origin⟩ := decl
  cases kind with
  | object fields =>
    obtain ⟨field, hfield, htype⟩ := List.mem_flatMap.mp htype
    have hlegible := hbody _ (List.mem_map_of_mem hfield)
    rcases List.mem_cons.mp htype with rfl | harg
    · exact hlegible.type.normal
    · obtain ⟨arg, hmem, rfl⟩ := List.mem_map.mp harg
      exact (hlegible.args _ (List.mem_map_of_mem hmem)).type.normal
  | input fields =>
    obtain ⟨value, hvalue, rfl⟩ := List.mem_map.mp htype
    exact (hbody _ (List.mem_map_of_mem hvalue)).type.normal
  | enum values | scalar => simp [DeclarationKind.typeRefs] at htype

/-- **Models**: the references in the model of a schema are in normal form if those in the schema are. -/
theorem normal_of_compileSchema {options : Options} {schema : Schema} {compilation : Compilation}
    (h : ∀ type ∈ schema.typeRefs, type.Normal)
    (hcompile : compileSchema options schema = .ok compilation) :
    ∀ reference ∈ compilation.model.references, reference.2.Normal := by
  obtain ⟨hacceptable, rfl⟩ := compileSchema_eq_ok.mp hcompile
  intro reference hreference
  obtain ⟨type, htype, -, heq⟩ := declared_of_mem_references hacceptable hreference
  rw [heq, typeOf, TypeRef.normal_map]
  exact h type htype

/-! ## Main Result -/

open Sdl Introspection

/-- **Read schemas**: those that are read from either encoding. -/
inductive IsRead (schema : Schema) : Prop
  | text {policy : Policy} {source : String} :
      read policy source = .ok schema → IsRead schema
  | document {policy : Policy} {document : Json} :
      Introspection.readValue policy document = .ok schema → IsRead schema

/-- **Normal forms**: the type references in everything that is read are in normal form, and so are
    those in models of it. Every reference in normal form to a name, of up to 128 lists, is read as the
    type of a field from its text, and from its chain, so that no two of them have the same text. And a
    chain of any length is read exactly if it is well linked. -/
theorem type_references_normal :
    (∀ schema, IsRead schema →
      (∀ type ∈ schema.typeRefs, type.Normal) ∧
        ∀ options compilation, compileSchema options schema = .ok compilation →
          ∀ reference ∈ compilation.model.references, reference.2.Normal) ∧
    (∀ type : TypeRef String, type.Normal → isNameText type.base → type.listDepth ≤ 128 →
      (∀ policy name key, isNameText name → isNameText key →
        ∃ schema, read policy (fieldSource name key type) = .ok schema ∧
          schema.declarations.map Declaration.outline =
            [⟨name, .object [] [⟨key, [], type⟩]⟩]) ∧
        ∀ kind path, ¬kind.isWrapper →
          (TypeChain.ofTypeRef kind type).toTypeRef path = .ok type) ∧
    (∀ type other : TypeRef String, isNameText type.base → isNameText other.base →
      (type.text = other.text ↔ type = other)) ∧
    ∀ (chain : TypeChain) (path : Json.Path),
      (∃ type, chain.toTypeRef path = .ok type) ↔ chain.WellLinked := by
  refine ⟨?_, ?_, ?_, toTypeRef_succeeds_iff⟩
  · intro schema hread
    have hnormal : ∀ type ∈ schema.typeRefs, type.Normal := by
      cases hread with
      | text h => exact normal_of_read h
      | document h => exact normal_of_readValue h
    exact ⟨hnormal, fun options compilation => normal_of_compileSchema hnormal⟩
  · intro type hnormal hleaf hdepth
    constructor
    · intro policy name key hname hkey
      exact read_fieldSource hname hkey (legibleType_of_normal hnormal hleaf hdepth) policy
    · intro kind path hkind
      exact toTypeRef_ofTypeRef hnormal hkind path
  · intro type other hleaf hother
    constructor
    · intro heq
      exact text_injective hleaf hother (congrArg String.toList heq)
    · intro heq
      rw [heq]

/-- `[[Int!]]!`. -/
def gridType : TypeRef String := .nonNull (.list (.list (.nonNull (.named "Int"))))

/-- `[[Int!]!]!`. -/
def denseGridType : TypeRef String :=
  .nonNull (.list (.nonNull (.list (.nonNull (.named "Int")))))

/-- A type with a field of type `[[Int!]]!`. -/
def gridText : String := "type Query\x7bgrid:[[Int!]]!\x7d"

/-- A chain with a non-null link directly around another one. -/
def doubleChain : TypeChain :=
  .wrapping .nonNull none (.wrapping .nonNull none (.last .scalar (some "Int")))

theorem type_references_normal_grid :
    (∃ schema, read .skip gridText = .ok schema ∧ schema.typeRefs = [gridType] ∧
      ∀ type ∈ schema.typeRefs, type.Normal) ∧
    (∃ schema, read .reject (fieldSource "Query" "grid" gridType) = .ok schema ∧
      schema.declarations.map Declaration.outline =
        [⟨"Query", .object [] [⟨"grid", [], gridType⟩]⟩]) ∧
    (TypeChain.ofTypeRef .scalar gridType).toTypeRef [] = .ok gridType ∧
    gridType.text ≠ denseGridType.text ∧
    ¬∃ type, doubleChain.toTypeRef [] = .ok type := by
  obtain ⟨hread, hwritten, hdistinct, hchains⟩ := type_references_normal
  have hrefs : (read .skip gridText).toOption.map Schema.typeRefs = some [gridType] := by
    decide +kernel
  obtain ⟨schema, hschema, htypes⟩ := Option.map_eq_some_iff.mp hrefs
  have hschema : read .skip gridText = .ok schema := toOption_eq_some.mp hschema
  have hnormal : gridType.Normal := by simp [gridType, TypeRef.Normal, TypeRef.isNonNull]
  obtain ⟨hsource, hchain⟩ := hwritten gridType hnormal (by decide) (by decide)
  refine ⟨⟨schema, hschema, htypes, (hread schema (.text hschema)).1⟩,
    hsource .reject "Query" "grid" (by decide) (by decide), hchain .scalar [] (by decide), ?_, ?_⟩
  · rw [Ne, hdistinct gridType denseGridType (by decide) (by decide)]
    decide
  · rw [hchains]
    intro hlinked
    exact (List.isChain_cons_cons.mp hlinked.single).1 ⟨rfl, rfl⟩

end SchemaModel
