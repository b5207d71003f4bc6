import SchemaModel.Model.Text
import SchemaModel.Proofs.Derivations
import SchemaModel.Proofs.SourceWriting
import SchemaModel.Proofs.Spelling

/-! # Models Printed as Definition Text

    What a model is printed as, and which document the print is.

    * **source**: a schema block for the two roots, and a definition for each type, with one line
      for each of its members.
    * **Legible**: an outline whose names, types and defaults are read from their texts as they are.
    * **Prints**: the text of a legible member, definition or model consists of the tokens of a
      phrase with the same outline. -/

namespace SchemaModel

/-! ## Printing -/

/-- A keyword and a name with lines in braces behind them. -/
def bracedText (keyword name : String) (lines : List String) : String :=
  keyword ++ " " ++ name ++ " \x7b\n" ++ String.join (lines.map fun line => "  " ++ line ++ "\n") ++
    "\x7d\n"

/-- The definition of a type. -/
def ModelDefinition.source : ModelDefinition → String
  | .object type => bracedText "type" type.name (type.fields.map ModelField.text)
  | .input type => bracedText "input" type.name (type.fields.map ModelInput.text)
  | .enum type => bracedText "enum" type.name type.values
  | .scalar type => "scalar " ++ type.name ++ "\n"

/-- The types of a model: objects, roots first, then inputs, enums and scalars. -/
def Model.definitions (model : Model) : List ModelDefinition :=
  model.objects.map .object ++ model.inputs.map .input ++ model.enums.map .enum ++
    model.scalars.map .scalar

/-- A model as definition text. -/
def Model.source (model : Model) : String :=
  "schema \x7b query: " ++ model.query.name ++ " mutation: " ++ model.mutation.name ++ " \x7d\n" ++
    String.join (model.definitions.map ModelDefinition.source)

/-! ## Outlines of Models -/

/-- The outline of an argument or input field of a model. -/
def ModelInput.outline (input : ModelInput) : InputOutline :=
  ⟨input.name, input.type.map NamedRef.name, input.defaultValue⟩

/-- The outline of a field of a model. -/
def ModelField.outline (field : ModelField) : FieldOutline :=
  ⟨field.name, field.args.map ModelInput.outline, field.type.map NamedRef.name⟩

/-- The outline of a type of a model. -/
def ModelDefinition.outline : ModelDefinition → TypeOutline
  | .object type => ⟨type.name, .object [] (type.fields.map ModelField.outline)⟩
  | .input type => ⟨type.name, .input (type.fields.map ModelInput.outline)⟩
  | .enum type => ⟨type.name, .enum type.values⟩
  | .scalar type => ⟨type.name, .scalar⟩

/-- The outline of the body of a declaration. -/
def DeclarationKind.outline : DeclarationKind → TypeBody
  | .object fields => .object [] (fields.map Field.outline)
  | .input fields => .input (fields.map InputValue.outline)
  | .enum values => .enum values
  | .scalar => .scalar

/-- The outline of a declared type. -/
def Declaration.outline (decl : Declaration) : TypeOutline := ⟨decl.name, decl.kind.outline⟩

/-- **Restates**: the schema declares the types of a model in their order and names its roots, and
    nothing is skipped in it. -/
structure Schema.Restates (schema : Schema) (model : Model) : Prop where
  declarations :
    schema.declarations.map Declaration.outline = model.definitions.map ModelDefinition.outline
  roots : schema.roots = ⟨some model.query.name, some model.mutation.name, none⟩
  skipped : schema.skipped = []

/-- The text of a resolved type is that of the type with its names. -/
theorem modelTypeText_eq (type : ModelType) :
    modelTypeText type = (type.map NamedRef.name).text := by
  unfold modelTypeText TypeRef.text
  induction type with
  | named leaf => rfl
  | list item ih => simp [TypeRef.textWith, TypeRef.map, ih]
  | nonNull inner ih => simp [TypeRef.textWith, TypeRef.map, ih]

namespace Sdl

/-! ## Legible Outlines -/

/-- The text is scanned as a name, and the kind of the name is among the given ones. -/
def Word (kinds : TokenKind → Prop) (text : String) : Prop :=
  ∃ kind : TokenKind, kind.isName ∧ kinds kind ∧ ScansAs kind text.toList

/-- The text of a type is read as the type. -/
def LegibleType (type : TypeRef String) : Prop :=
  Spells Apart type.text.toList fun ts => TypeRefPhrase nestingLimit ts type

/-- The text of a value is read as the value. -/
def LegibleValue (v : Value) : Prop :=
  Spells Apart v.text.toList fun ts => ValuePhrase nestingLimit ts v

end Sdl

open Sdl

/-- A legible argument or input field. -/
structure InputOutline.Legible (input : InputOutline) : Prop where
  name : Word (fun _ => True) input.name
  type : LegibleType input.type
  defaultValue : ∀ v ∈ input.defaultValue, LegibleValue v

/-- A legible field. -/
structure FieldOutline.Legible (field : FieldOutline) : Prop where
  name : Word (fun _ => True) field.name
  args : ∀ arg ∈ field.args, arg.Legible
  type : LegibleType field.type

/-- What is legible in a body. Nothing is asked of what models have no room for. -/
def TypeBody.Legible : TypeBody → Prop
  | .object _ fields => ∀ field ∈ fields, field.Legible
  | .input fields => ∀ field ∈ fields, field.Legible
  | .enum values => ∀ value ∈ values, Word (·.isReserved = false) value
  | .scalar | .union _ | .interface _ => True

/-- A legible type. -/
structure TypeOutline.Legible (type : TypeOutline) : Prop where
  name : Word (fun _ => True) type.name
  body : type.body.Legible

namespace Sdl

/-! ## Lists of Phrases -/

section

variable {α β γ : Type} {phrase : Phrase α} {ts : List Token}

/-- Each item of a run of phrases has its own tokens in it. -/
theorem Many.exists_of_mem {as : List α} (h : Many phrase ts as) {a : α} (ha : a ∈ as) :
    ∃ us, phrase us a ∧ us ⊆ ts := by
  induction h with
  | nil => simp at ha
  | @cons us vs b bs hb _ ih =>
    rcases List.mem_cons.mp ha with rfl | ha
    · exact ⟨us, hb, List.subset_append_left us vs⟩
    · obtain ⟨ws, hws, hsub⟩ := ih ha
      exact ⟨ws, hws, fun t ht => List.mem_append_right us (hsub ht)⟩

theorem Enclosed.exists_of_mem {openMark closeMark : Punctuator} {as : List α}
    (h : Enclosed openMark closeMark phrase ts as) {a : α} (ha : a ∈ as) :
    ∃ us, phrase us a ∧ us ⊆ ts := by
  cases h with
  | absent => simp at ha
  | @present os us vs _ _ hitems _ =>
    obtain ⟨ws, hws, hsub⟩ := hitems.exists_of_mem ha
    exact ⟨ws, hws, fun t ht => List.mem_append_right os (List.mem_append_left vs (hsub ht))⟩

/-- Phrases that are known by an outline make up a run of phrases that is known by its outlines. -/
theorem Many.exists_outlines {xs : List β} {outline : α → γ} {outlineOf : β → γ} {good : α → Prop}
    (h : Many (fun us x => ∃ a, phrase us a ∧ outline a = outlineOf x ∧ good a) ts xs) :
    ∃ as, Many phrase ts as ∧ as.map outline = xs.map outlineOf ∧ ∀ a ∈ as, good a := by
  induction h with
  | nil => exact ⟨[], .nil, rfl, by simp⟩
  | cons hx _ ih =>
    obtain ⟨a, ha, houtline, hgood⟩ := hx
    obtain ⟨as, has, houtlines, hall⟩ := ih
    refine ⟨a :: as, .cons ha has, ?_, List.forall_mem_cons.mpr ⟨hgood, hall⟩⟩
    rw [List.map_cons, List.map_cons, houtline, houtlines]

end

namespace Spells

variable {fits : List Char → Prop} {cs : List Char} {meaning : List Token → Prop}

/-- A name in front of input that is apart. -/
theorem word_append {kinds : TokenKind → Prop} {text : String} (hword : Word kinds text)
    (hapart : ∀ rest, fits rest → Apart (cs ++ rest))
    (h : ∀ token : Token, token.kind.isName → kinds token.kind → token.text = text →
      Spells fits cs fun ts => meaning (token :: ts)) :
    Spells fits (text.toList ++ cs) meaning := by
  obtain ⟨kind, hname, hkind, hscans⟩ := hword
  refine append (lexeme hscans) hapart ?_
  rintro us ⟨token, rfl, rfl, htext⟩
  exact h token hname hkind htext

end Spells

/-- A name from a source is a word. -/
theorem word_of_portable {token : Token} {kinds : TokenKind → Prop} (h : token.Portable)
    (hname : token.kind.isName) (hkind : kinds token.kind) : Word kinds token.text :=
  ⟨token.kind, hname, hkind, h⟩

/-! ## Values -/

/-- A lexeme that is scanned again is a value, if every token of its kind and text is. -/
theorem spells_plainValue {kind : TokenKind} {text : String} {v : Value}
    (h : ScansAs kind text.toList)
    (hplain : ∀ token : Token, token.kind = kind → token.text = text → PlainValue [token] v) :
    Spells Apart text.toList (PlainValue · v) := by
  refine (Spells.lexeme h).imp ?_
  rintro us ⟨token, rfl, hkind, htext⟩
  exact hplain token hkind htext

/-- A string is read from what it is quoted as. -/
theorem spells_quote (contents : String) :
    Spells Apart (Value.quote contents).toList (PlainValue · (.string contents)) := by
  refine spells_plainValue (scansAs_quote contents) fun token hkind htext => ?_
  have hunquote : unquote (literalBody 1 token.text) = .ok contents.toList := by
    rw [htext, unquote_quote]
  simpa using PlainValue.string hkind hunquote

section

variable {ts : List Token} (hts : ∀ token ∈ ts, token.Portable)

include hts

/-- The text of a value of one token is read as the value. -/
theorem PlainValue.spells {v : Value} (h : PlainValue ts v) :
    Spells Apart v.text.toList (PlainValue · v) := by
  cases h with
  | @int token hkind =>
    refine spells_plainValue (hts token List.mem_cons_self) fun other hother htext => ?_
    rw [← show other.text = token.text from htext]
    exact .int (hother.trans hkind)
  | @float token hkind =>
    refine spells_plainValue (hts token List.mem_cons_self) fun other hother htext => ?_
    rw [← show other.text = token.text from htext]
    exact .float (hother.trans hkind)
  | string _ _ | blockString _ => exact spells_quote _
  | trueValue _ => exact spells_plainValue (scansAs_keyword .trueValue) fun _ h _ => .trueValue h
  | falseValue _ => exact spells_plainValue (scansAs_keyword .falseValue) fun _ h _ => .falseValue h
  | nullValue _ => exact spells_plainValue (scansAs_keyword .nullValue) fun _ h _ => .nullValue h
  | @enum token hname htrue hfalse hnull =>
    refine spells_plainValue (hts token List.mem_cons_self) fun other hother htext => ?_
    rw [← hother] at hname htrue hfalse hnull
    rw [← show other.text = token.text from htext]
    exact .enum hname htrue hfalse hnull

end

theorem itemTexts_eq (items : List Value) : Value.itemTexts items = items.map Value.text := by
  induction items with
  | nil => rfl
  | cons item items ih => rw [Value.itemTexts, ih, List.map_cons]

theorem entryTexts_eq (entries : List (String × Value)) :
    Value.entryTexts entries = entries.map fun entry => entry.1 ++ ": " ++ entry.2.text := by
  induction entries with
  | nil => rfl
  | cons entry entries ih => rw [Value.entryTexts, ih, List.map_cons]

/-- An entry of an object is read as the name and the value in it. -/
theorem spells_entry {inner : Phrase Value} {key : String} {v : Value}
    (hkey : Word (fun _ => True) key) (hv : Spells Apart v.text.toList (inner · v)) :
    Spells Apart (key ++ ": " ++ v.text).toList (EntryOf inner · (key, v)) := by
  have htext : (key ++ ": " ++ v.text).toList = key.toList ++ ':' :: ' ' :: v.text.toList := by
    simp
  rw [htext]
  refine Spells.word_append hkey (fun _ _ => apart_cons (by decide) _) ?_
  rintro token hname - rfl
  refine Spells.mark_cons .colon fun us hcolon => Spells.blank_cons rfl (hv.imp fun vs hvs => ?_)
  exact EntryOf.intro (NamePhrase.intro hname) hcolon hvs

/-- A list is read from its text if its items are read from theirs. -/
theorem spells_list {inner : Phrase Value} {items : List Value}
    (h : ∀ item ∈ items, Spells Apart item.text.toList (inner · item)) :
    Spells Apart (Value.list items).text.toList (ValueAround inner · (.list items)) := by
  have htext : (Value.list items).text.toList =
      '[' :: ([',', ' '].intercalate (items.map fun item => item.text.toList) ++ [']']) := by
    simp [Value.text, itemTexts_eq, String.toList_intercalate, Function.comp_def]
  rw [htext]
  refine Spells.mark_cons .bracketOpen fun os hopen => ?_
  refine (Spells.intercalate h).append (fun _ _ => apart_cons (by decide) _) fun us hus => ?_
  refine Spells.mark_cons .bracketClose fun vs hclose => Spells.nil ?_
  rw [List.append_nil]
  exact .list hopen hus hclose

/-- An object is read from its text if its entries are read from theirs. -/
theorem spells_object {inner : Phrase Value} {entries : List (String × Value)}
    (h : ∀ entry ∈ entries, Spells Apart (entry.1 ++ ": " ++ entry.2.text).toList
      (EntryOf inner · entry)) :
    Spells Apart (Value.object entries).text.toList (ValueAround inner · (.object entries)) := by
  have htext : (Value.object entries).text.toList =
      '{' :: ([',', ' '].intercalate
        (entries.map fun entry => (entry.1 ++ ": " ++ entry.2.text).toList) ++ ['}']) := by
    simp [Value.text, entryTexts_eq, String.toList_intercalate, Function.comp_def]
  rw [htext]
  refine Spells.mark_cons .braceOpen fun os hopen => ?_
  refine (Spells.intercalate h).append (fun _ _ => apart_cons (by decide) _) fun us hus => ?_
  refine Spells.mark_cons .braceClose fun vs hclose => Spells.nil ?_
  rw [List.append_nil]
  exact .object hopen hus hclose

/-- The text of a value around legible values is read as the value. -/
theorem ValueAround.spells {inner : Phrase Value} {ts : List Token} {v : Value}
    (hinner : ∀ {us : List Token} {w : Value}, (∀ token ∈ us, token.Portable) → inner us w →
      Spells Apart w.text.toList (inner · w))
    (hts : ∀ token ∈ ts, token.Portable) (h : ValueAround inner ts v) :
    Spells Apart v.text.toList (ValueAround inner · v) := by
  cases h with
  | plain h => exact (h.spells hts).imp fun us hus => .plain hus
  | @list os us vs items _ hitems _ =>
    refine spells_list fun item hmem => ?_
    obtain ⟨ws, hws, hsub⟩ := hitems.exists_of_mem hmem
    refine hinner (fun token htoken => hts token ?_) hws
    exact List.mem_append_right os (List.mem_append_left vs (hsub htoken))
  | @object os us vs entries _ hentries _ =>
    refine spells_object fun entry hmem => ?_
    obtain ⟨ws, hws, hsub⟩ := hentries.exists_of_mem hmem
    have hportable : ∀ token ∈ ws, token.Portable := fun token htoken =>
      hts token (List.mem_append_right os (List.mem_append_left vs (hsub htoken)))
    obtain ⟨@⟨token, hname⟩, -, hvalue⟩ := hws
    exact spells_entry (word_of_portable (hportable token (by simp)) hname trivial)
      (hinner (fun t ht => hportable t (by simp [ht])) hvalue)

/-- **Values**: the text of a value from a source is read as the value. -/
theorem ValuePhrase.spells {levels : Nat} {ts : List Token} {v : Value}
    (hts : ∀ token ∈ ts, token.Portable) (h : ValuePhrase levels ts v) :
    Spells Apart v.text.toList (ValuePhrase levels · v) := by
  induction levels generalizing ts v with
  | zero => exact PlainValue.spells hts h
  | succ levels ih => exact ValueAround.spells ih hts h

/-! ## Types -/

/-- The text of a type without a bang is read as the type. -/
theorem BareType.spells {inner : Phrase (TypeRef String)} {ts : List Token} {type : TypeRef String}
    (hinner : ∀ {us : List Token} {item : TypeRef String}, (∀ token ∈ us, token.Portable) →
      inner us item → Spells Apart item.text.toList (inner · item))
    (hts : ∀ token ∈ ts, token.Portable) (h : BareType inner ts type) :
    Spells Apart type.text.toList (BareType inner · type) := by
  cases h with
  | named hleaf =>
    obtain @⟨token, hname⟩ := hleaf
    refine (Spells.lexeme (hts token List.mem_cons_self)).imp ?_
    rintro us ⟨other, rfl, hkind, htext⟩
    rw [← hkind] at hname
    have hleaf : NamePhrase [other] ⟨other.text, other.span.start⟩ := NamePhrase.intro hname
    rw [← htext]
    show BareType inner [other] (.named (Name.text ⟨other.text, other.span.start⟩))
    exact .named hleaf
  | @list os us vs item _ hitem _ =>
    have hlegible := hinner (fun token ht => hts token (by simp [ht])) hitem
    have htext : (TypeRef.list item).text.toList = '[' :: (item.text.toList ++ [']']) := by
      simp [TypeRef.text, TypeRef.textWith]
    rw [htext]
    refine Spells.mark_cons .bracketOpen fun os hopen => ?_
    refine hlegible.append (fun _ _ => apart_cons (by decide) _) fun us hus => ?_
    refine Spells.mark_cons .bracketClose fun vs hclose => Spells.nil ?_
    rw [List.append_nil]
    exact .list hopen hus hclose

/-- The text of a type with or without a bang is read as the type. -/
theorem Banged.spells {bare : Phrase (TypeRef String)} {ts : List Token} {type : TypeRef String}
    (hbare : ∀ {us : List Token} {inner : TypeRef String}, (∀ token ∈ us, token.Portable) →
      bare us inner → Spells Apart inner.text.toList (bare · inner))
    (hts : ∀ token ∈ ts, token.Portable) (h : Banged bare ts type) :
    Spells Apart type.text.toList (Banged bare · type) := by
  cases h with
  | plain h => exact (hbare hts h).imp fun us hus => .plain hus
  | @nonNull us vs inner h _ =>
    have hlegible := hbare (fun token ht => hts token (by simp [ht])) h
    have htext : (TypeRef.nonNull inner).text.toList = inner.text.toList ++ ['!'] := by
      simp [TypeRef.text, TypeRef.textWith]
    rw [htext]
    refine hlegible.append (fun _ _ => apart_cons (by decide) _) fun us hus => ?_
    refine Spells.mark_cons .bang fun vs hbang => Spells.nil ?_
    rw [List.append_nil]
    exact .nonNull hus hbang

/-- **Types**: the text of a type from a source is read as the type. -/
theorem TypeRefPhrase.spells {levels : Nat} {ts : List Token} {type : TypeRef String}
    (hts : ∀ token ∈ ts, token.Portable) (h : TypeRefPhrase levels ts type) :
    Spells Apart type.text.toList (TypeRefPhrase levels · type) := by
  induction levels generalizing ts type with
  | zero => exact Banged.spells (BareType.spells fun _ h => h.elim) hts h
  | succ levels ih => exact Banged.spells (BareType.spells ih) hts h

/-! ## Members -/

/-- The phrase of an argument or input field of a model, without directives. -/
def ModelInputPhrase : Phrase ModelInput := fun ts input =>
  ∃ d, InputValuePhrase ts d ∧ d.outline = input.outline ∧ d.usages = []

/-- The phrase of a field of a model, without directives. -/
def ModelFieldPhrase : Phrase ModelField := fun ts field =>
  ∃ d, FieldPhrase ts d ∧ d.outline = field.outline ∧ d.usages = []

/-- An argument or input field is printed as its phrase. -/
theorem spells_input {input : ModelInput} (h : input.outline.Legible) :
    Spells Apart input.text.toList (ModelInputPhrase · input) := by
  have hdefault : Spells Apart
      ((input.defaultValue.map fun value => " = " ++ value.text).getD "").toList
      (DefaultPhrase · input.defaultValue) := by
    cases hv : input.defaultValue with
    | none => exact Spells.nil .absent
    | some v =>
      have htext : (((some v).map fun value => " = " ++ value.text).getD "").toList =
          ' ' :: '=' :: ' ' :: v.text.toList := by simp
      rw [htext]
      refine Spells.blank_cons rfl (Spells.mark_cons .equals fun us hequals => ?_)
      exact Spells.blank_cons rfl ((h.defaultValue v hv).imp fun ts hts => .present hequals hts)
  have htext : input.text.toList = input.name.toList ++ ':' :: ' ' ::
      ((input.type.map NamedRef.name).text.toList ++
        ((input.defaultValue.map fun value => " = " ++ value.text).getD "").toList) := by
    simp [ModelInput.text, modelTypeText_eq]
  rw [htext]
  refine Spells.word_append h.name (fun _ _ => apart_cons (by decide) _) ?_
  intro token hname _ hkey
  refine Spells.mark_cons .colon fun us hcolon => Spells.blank_cons rfl ?_
  have hlegible : LegibleType (input.type.map NamedRef.name) := h.type
  refine Spells.append hlegible ?_ fun ts htype => hdefault.imp fun vs hvs => ?_
  · -- an equals sign comes behind a blank
    intro rest hrest
    cases input.defaultValue with
    | none => simpa using hrest
    | some v => simpa using apart_cons (by decide) _
  · refine ⟨⟨⟨token.text, token.span.start⟩, input.type.map NamedRef.name, input.defaultValue, []⟩,
      ?_, ?_, rfl⟩
    · simpa using InputValuePhrase.intro .absent (NamePhrase.intro hname) hcolon htype hvs .nil
    · simp [InputValueDef.outline, ModelInput.outline, hkey]

/-- Arguments in parentheses are printed as their phrases. Nothing is put in parentheses if there
    are none. -/
theorem spells_args (args : List ModelInput) (h : ∀ arg ∈ args, arg.outline.Legible) :
    Spells Apart (if args.isEmpty then ""
      else "(" ++ ", ".intercalate (args.map ModelInput.text) ++ ")").toList
      fun ts => ∃ ds, Enclosed .parenOpen .parenClose InputValuePhrase ts ds ∧
        ds.map InputValueDef.outline = args.map ModelInput.outline ∧ ∀ d ∈ ds, d.usages = [] := by
  split
  · rename_i hempty
    obtain rfl : args = [] := by simpa using hempty
    exact Spells.nil ⟨[], .absent, rfl, by simp⟩
  · have htext : ("(" ++ ", ".intercalate (args.map ModelInput.text) ++ ")").toList =
        '(' :: ([',', ' '].intercalate (args.map fun arg => arg.text.toList) ++ [')']) := by
      simp [String.toList_intercalate, Function.comp_def]
    rw [htext]
    have hitems := Spells.intercalate fun arg harg => spells_input (h arg harg)
    refine Spells.mark_cons .parenOpen fun os hopen => ?_
    refine hitems.append (fun _ _ => apart_cons (by decide) _) fun us hus => ?_
    refine Spells.mark_cons .parenClose fun vs hclose => Spells.nil ?_
    obtain ⟨ds, hds, houtlines, husages⟩ := hus.exists_outlines
    rw [List.append_nil]
    exact ⟨ds, .present hopen hds hclose, houtlines, husages⟩

/-- A field is printed as its phrase. -/
theorem spells_field {field : ModelField} (h : field.outline.Legible) :
    Spells Apart field.text.toList (ModelFieldPhrase · field) := by
  have hargs := spells_args field.args fun arg harg =>
    h.args _ (List.mem_map_of_mem harg)
  have htype : LegibleType (field.type.map NamedRef.name) := h.type
  have htext : field.text.toList = field.name.toList ++ ((if field.args.isEmpty then ""
      else "(" ++ ", ".intercalate (field.args.map ModelInput.text) ++ ")").toList ++
        ':' :: ' ' :: (field.type.map NamedRef.name).text.toList) := by
    simp [ModelField.text, modelTypeText_eq]
  rw [htext]
  refine Spells.word_append h.name ?_ fun token hname _ hkey => ?_
  · -- a parenthesis or a colon comes behind the name
    intro rest _
    by_cases hempty : field.args.isEmpty
    · simpa [hempty] using apart_cons (by decide) _
    · simpa [hempty] using apart_cons (by decide) _
  refine hargs.append (fun _ _ => apart_cons (by decide) _) fun as has => ?_
  obtain ⟨ds, hds, houtlines, husages⟩ := has
  refine Spells.mark_cons .colon fun cs hcolon => Spells.blank_cons rfl ?_
  refine htype.imp fun ts hts => ?_
  refine ⟨⟨⟨token.text, token.span.start⟩, ds, field.type.map NamedRef.name, []⟩, ?_, ?_, ?_⟩
  · simpa using FieldPhrase.intro .absent (NamePhrase.intro hname) hds hcolon hts .nil
  · simp [FieldDef.outline, ModelField.outline, hkey, houtlines]
  · simpa [FieldDef.usages, directiveUsages] using husages

/-! ## Definitions -/

/-- The outline of the type that a definition declares, wherever its lines begin. -/
def Definition.declares (d : Definition) (lines : LineTable) : Option TypeOutline :=
  (d.declaration? lines).map Declaration.outline

/-- The phrase of a definition of a model, without directives. -/
def ModelDefinitionPhrase : Phrase ModelDefinition := fun ts definition =>
  ∃ d, TypePhrase ts d ∧ d.declares = (fun _ => some definition.outline) ∧ d.usages = []

/-- Lines in braces are printed as phrases in braces. -/
theorem spells_lines {α β γ : Type} {phrase : Phrase α} {outline : α → γ} {outlineOf : β → γ}
    {good : α → Prop} (text : β → String) {xs : List β}
    (h : ∀ x ∈ xs, Spells Apart (text x).toList fun ts =>
      ∃ a, phrase ts a ∧ outline a = outlineOf x ∧ good a) :
    Spells Anywhere (' ' :: '{' :: '\n' ::
      (xs.flatMap (fun x => ' ' :: ' ' :: ((text x).toList ++ ['\n'])) ++ ['}', '\n']))
      fun ts => ∃ as, Enclosed .braceOpen .braceClose phrase ts as ∧
        as.map outline = xs.map outlineOf ∧ ∀ a ∈ as, good a := by
  have hline : ∀ x ∈ xs, Spells Anywhere (' ' :: ' ' :: ((text x).toList ++ ['\n'])) fun ts =>
      ∃ a, phrase ts a ∧ outline a = outlineOf x ∧ good a := by
    intro x hx
    refine Spells.blank_cons rfl (Spells.blank_cons rfl ?_)
    refine (h x hx).append (fun _ _ => apart_cons (by decide) _) fun us hus => ?_
    exact Spells.blank_cons rfl (Spells.nil (by simpa using hus))
  refine Spells.blank_cons rfl (Spells.mark_cons .braceOpen fun os hopen => ?_)
  refine Spells.blank_cons rfl ?_
  refine (Spells.flatMap hline).append (fun _ _ => trivial) fun us hus => ?_
  refine Spells.mark_cons .braceClose fun vs hclose => Spells.blank_cons rfl (Spells.nil ?_)
  obtain ⟨as, has, houtlines, hgood⟩ := hus.exists_outlines
  rw [List.append_nil]
  exact ⟨as, .present hopen has hclose, houtlines, hgood⟩

theorem toList_bracedText {α : Type} (keyword name : String) (text : α → String) (xs : List α) :
    (bracedText keyword name (xs.map text)).toList = keyword.toList ++ ' ' :: (name.toList ++
      ' ' :: '{' :: '\n' :: (xs.flatMap (fun x => ' ' :: ' ' :: ((text x).toList ++ ['\n'])) ++
        ['}', '\n'])) := by
  simp [bracedText, String.toList_join, List.flatMap_map]

/-- A value of an enum is printed as its phrase. -/
theorem spells_enumValue {value : String} (h : Word (·.isReserved = false) value) :
    Spells Apart value.toList fun ts => ∃ d, EnumValuePhrase ts d ∧ d.name.text = value ∧
      directiveUsages d.directives = [] := by
  rw [← List.append_nil value.toList]
  refine Spells.word_append h (fun rest hrest => hrest) fun token hname hreserved htext => ?_
  refine Spells.nil ⟨⟨⟨token.text, token.span.start⟩, []⟩, ?_, htext, rfl⟩
  simpa using EnumValuePhrase.intro .absent hname hreserved .nil

/-- A keyword and a name in front of a blank. -/
theorem spells_head (word : Keyword) {name : String} {c : Char} {cs : List Char}
    {meaning : List Token → Prop} (hname : Word (fun _ => True) name) (hc : c ∈ separators)
    (h : ∀ token key : Token, token.kind = .keyword word → key.kind.isName → key.text = name →
      Spells Anywhere (c :: cs) fun ts => meaning (token :: key :: ts)) :
    Spells Anywhere (word.text.toList ++ ' ' :: (name.toList ++ c :: cs)) meaning := by
  refine Spells.keyword_append word (fun _ _ => apart_cons (by decide) _) fun token hkind => ?_
  refine Spells.blank_cons rfl ?_
  exact Spells.word_append hname (fun _ _ => apart_cons hc _) fun key hkey _ htext =>
    h token key hkind hkey htext

/-- A keyword and a name with lines in braces behind them are printed as their phrases. -/
theorem spells_bracedText {α β γ : Type} {phrase : Phrase α} {outline : α → γ} {outlineOf : β → γ}
    {good : α → Prop} {meaning : List Token → Prop} (word : Keyword) {name : String}
    (text : β → String) {xs : List β} (hname : Word (fun _ => True) name)
    (hlines : ∀ x ∈ xs, Spells Apart (text x).toList fun ts =>
      ∃ a, phrase ts a ∧ outline a = outlineOf x ∧ good a)
    (h : ∀ (token key : Token) (ts : List Token) (as : List α), token.kind = .keyword word →
      key.kind.isName → key.text = name → Enclosed .braceOpen .braceClose phrase ts as →
      as.map outline = xs.map outlineOf → (∀ a ∈ as, good a) → meaning (token :: key :: ts)) :
    Spells Anywhere (bracedText word.text name (xs.map text)).toList meaning := by
  rw [toList_bracedText]
  refine spells_head word hname (by decide) fun token key hkind hkey htext => ?_
  refine (spells_lines text hlines).imp fun ts hts => ?_
  obtain ⟨as, has, houtlines, hgood⟩ := hts
  exact h token key ts as hkind hkey htext has houtlines hgood

/-- A phrase without directives is that of a definition if its body has the same outline. -/
theorem modelDefinitionPhrase_intro {ts : List Token} {offset : Nat} {name : String} {body : Body}
    {definition : ModelDefinition} (h : TypePhrase ts ⟨offset, name, [], body⟩)
    (hname : name = definition.outline.name)
    (hbody : ∀ lines, (body.declarationKind? lines).map DeclarationKind.outline =
      some definition.outline.body)
    (hinterfaces : body.interfaces = []) (hmembers : body.memberUsages = [])
    (hconstruct : body.construct? = none) : ModelDefinitionPhrase ts definition := by
  refine ⟨_, h, ?_, ?_⟩
  · funext lines
    obtain ⟨kind, hkind, houtline⟩ := Option.map_eq_some_iff.mp (hbody lines)
    simp [Definition.declares, Definition.declaration?, Declaration.outline, hkind, houtline, hname]
  · simp [Definition.usages, directiveUsages, hinterfaces, hmembers, hconstruct]

/-- **Definitions**: a legible definition is printed as its phrase. -/
theorem spells_definition {definition : ModelDefinition} (h : definition.outline.Legible) :
    Spells Anywhere definition.source.toList (ModelDefinitionPhrase · definition) := by
  -- the kinds differ in their keyword and in what their lines are
  cases definition with
  | object type =>
    have hlines : ∀ field ∈ type.fields, Spells Apart field.text.toList _ := fun field hfield =>
      spells_field (h.body _ (List.mem_map_of_mem hfield))
    refine spells_bracedText .type ModelField.text h.name hlines ?_
    intro token key ts fields hkind hname hkey hfields houtlines husages
    have hphrase := TypePhrase.object hkind (NamePhrase.intro hname) .absent .nil hfields
    refine modelDefinitionPhrase_intro (by simpa using hphrase) hkey (fun lines => ?_) rfl ?_ rfl
    · simp [Body.declarationKind?, DeclarationKind.outline, ModelDefinition.outline,
        Function.comp_def, houtlines]
    · simpa [Body.memberUsages] using husages
  | input type =>
    have hlines : ∀ field ∈ type.fields, Spells Apart field.text.toList _ := fun field hfield =>
      spells_input (h.body _ (List.mem_map_of_mem hfield))
    refine spells_bracedText .input ModelInput.text h.name hlines ?_
    intro token key ts fields hkind hname hkey hfields houtlines husages
    have hphrase := TypePhrase.input hkind (NamePhrase.intro hname) .nil hfields
    refine modelDefinitionPhrase_intro (by simpa using hphrase) hkey (fun lines => ?_) rfl ?_ rfl
    · simp [Body.declarationKind?, DeclarationKind.outline, ModelDefinition.outline,
        Function.comp_def, houtlines]
    · simpa [Body.memberUsages] using husages
  | enum type =>
    have hlines : ∀ value ∈ type.values, Spells Apart value.toList _ := fun value hvalue =>
      spells_enumValue (h.body value hvalue)
    have htext : ModelDefinition.source (.enum type) =
        bracedText Keyword.enum.text type.name (type.values.map id) := by
      rw [List.map_id]
      rfl
    rw [htext]
    refine spells_bracedText .enum id h.name hlines ?_
    intro token key ts values hkind hname hkey hvalues hnames husages
    have hphrase := TypePhrase.enum hkind (NamePhrase.intro hname) .nil hvalues
    refine modelDefinitionPhrase_intro (by simpa using hphrase) hkey (fun lines => ?_) rfl ?_ rfl
    · simp [Body.declarationKind?, DeclarationKind.outline, ModelDefinition.outline, hnames]
    · simpa [Body.memberUsages] using husages
  | scalar type =>
    have htext : (ModelDefinition.source (.scalar type)).toList =
        Keyword.scalar.text.toList ++ ' ' :: (type.name.toList ++ '\n' :: []) := by
      simp [ModelDefinition.source, Keyword.text]
    rw [htext]
    refine spells_head .scalar h.name (by decide) fun token key hkind hname hkey => ?_
    refine Spells.blank_cons rfl (Spells.nil ?_)
    have hphrase := TypePhrase.scalar hkind (NamePhrase.intro hname) .nil
    exact modelDefinitionPhrase_intro (by simpa using hphrase) hkey (fun _ => rfl) rfl rfl rfl

/-! ## Documents -/

/-- An operation with its root type is printed as its phrase. -/
theorem spells_operation (word : Keyword) {operation : RootOperation} {name : String}
    {cs : List Char} {meaning : List Token → Prop}
    (hoperation : operationOf? (.keyword word) = some operation)
    (hname : Word (fun _ => True) name)
    (h : ∀ us, OperationPhrase us (operation, name) →
      Spells Anywhere cs fun ts => meaning (us ++ ts)) :
    Spells Anywhere (word.text.toList ++ ':' :: ' ' :: (name.toList ++ ' ' :: cs)) meaning := by
  refine Spells.keyword_append word (fun _ _ => apart_cons (by decide) _) fun token hkind => ?_
  refine Spells.mark_cons .colon fun us hcolon => Spells.blank_cons rfl ?_
  refine Spells.word_append hname (fun _ _ => apart_cons (by decide) _) fun key hkey _ htext => ?_
  have hphrase : OperationPhrase (token :: (us ++ [key])) (operation, key.text) :=
    .intro (hkind ▸ hoperation) hcolon (NamePhrase.intro hkey)
  rw [htext] at hphrase
  simpa using Spells.blank_cons rfl (h _ hphrase)

theorem toList_schemaText (query mutation rest : String) :
    ("schema \x7b query: " ++ query ++ " mutation: " ++ mutation ++ " \x7d\n" ++ rest).toList =
      Keyword.schema.text.toList ++ ' ' :: '{' :: ' ' :: (Keyword.query.text.toList ++ ':' :: ' ' ::
        (query.toList ++ ' ' :: (Keyword.mutation.text.toList ++ ':' :: ' ' :: (mutation.toList ++
          ' ' :: '}' :: '\n' :: rest.toList)))) := by
  simp [Keyword.text]

/-- The document of a schema block for the roots of a model and definitions of its types. -/
def modelDocument (offset : Nat) (model : Model) (definitions : List Definition) : Document :=
  .definition ⟨offset, Keyword.schema.text, [],
      .schema [(.query, model.query.name), (.mutation, model.mutation.name)]⟩ ::
    definitions.map .definition

/-- The tokens of a schema block and of definitions of types make up a document. -/
theorem modelDocument_phrase {model : Model} {token : Token} {os qs ms vs ts : List Token}
    {definitions : List Definition} (hkind : token.kind = .keyword .schema)
    (hopen : Lone (.punctuator .braceOpen) os)
    (hq : OperationPhrase qs (.query, model.query.name))
    (hm : OperationPhrase ms (.mutation, model.mutation.name))
    (hclose : Lone (.punctuator .braceClose) vs) (hts : Many TypePhrase ts definitions) :
    DocumentPhrase (token :: (os ++ (qs ++ (ms ++ (vs ++ ts)))))
      (modelDocument token.span.start model definitions) := by
  -- the block in front is the only one, since no definition of a type is one
  have htypes : Many EntryPhrase ts (definitions.map .definition) ∧
      (definitions.map .definition).filterMap Entry.schemaBlock? = [] := by
    clear hkind hopen hq hm hclose
    induction hts with
    | nil => exact ⟨.nil, rfl⟩
    | @cons us ws d ds hd _ ih =>
      refine ⟨.cons (.type .absent hd) ih.1, ?_⟩
      rw [List.map_cons, List.filterMap_cons_none hd.schemaBlock?_eq_none]
      exact ih.2
  have hblock := SchemaPhrase.intro hkind .nil (.present hopen (.cons hq (.cons hm .nil)) hclose)
  refine ⟨?_, ?_, ?_⟩
  · simpa [modelDocument] using Many.cons (EntryPhrase.schema .absent hblock) htypes.1
  · simp [modelDocument, Entry.schemaBlock?, htypes.2]
  · simp [modelDocument, Document.operations, Entry.schemaBlock?, htypes.2]

/-- What such a document declares restates the model, if its definitions declare the types of it. -/
theorem restates_modelDocument {model : Model} {definitions : List Definition}
    (houtlines : definitions.map Definition.declares =
      model.definitions.map fun definition _ => some definition.outline)
    (offset : Nat) (lines : LineTable) :
    ((modelDocument offset model definitions).toSchema lines []).Restates model := by
  have hdeclared : (definitions.filterMap (Definition.declaration? lines)).map
      Declaration.outline = model.definitions.map ModelDefinition.outline := by
    have hlines := congrArg (List.filterMap fun declares : LineTable → Option TypeOutline =>
      declares lines) houtlines
    rw [List.filterMap_map, List.filterMap_map] at hlines
    rw [List.map_filterMap, ← List.filterMap_eq_map]
    exact hlines
  refine ⟨?_, rfl, rfl⟩
  show (((modelDocument offset model definitions).filterMap
    (Entry.declaration? lines)).map Declaration.outline) = _
  rw [modelDocument, List.filterMap_cons_none rfl, List.filterMap_map]
  exact hdeclared

/-- **Models**: a model whose types are legible is printed as a document that restates it. -/
theorem spells_source {model : Model}
    (h : ∀ definition ∈ model.definitions, definition.outline.Legible) :
    Spells Anywhere model.source.toList fun ts => ∃ document, DocumentPhrase ts document ∧
      document.flatMap Entry.usages = [] ∧ ∀ lines, (document.toSchema lines []).Restates model := by
  have hquery : Word (fun _ => True) model.query.name :=
    (h (.object model.query) (by simp [Model.definitions, Model.objects])).name
  have hmutation : Word (fun _ => True) model.mutation.name :=
    (h (.object model.mutation) (by simp [Model.definitions, Model.objects])).name
  have hdefinitions : (String.join (model.definitions.map ModelDefinition.source)).toList =
      model.definitions.flatMap fun definition => definition.source.toList := by
    rw [String.toList_join, List.flatMap_map]
  have htext : model.source.toList = _ := toList_schemaText model.query.name model.mutation.name
    (String.join (model.definitions.map ModelDefinition.source))
  rw [htext, hdefinitions]
  refine Spells.keyword_append .schema (fun _ _ => apart_cons (by decide) _) fun token hkind => ?_
  refine Spells.blank_cons rfl (Spells.mark_cons .braceOpen fun os hopen => ?_)
  refine Spells.blank_cons rfl (spells_operation .query rfl hquery fun qs hq => ?_)
  refine spells_operation .mutation rfl hmutation fun ms hm => ?_
  refine Spells.mark_cons .braceClose fun vs hclose => Spells.blank_cons rfl ?_
  refine (Spells.flatMap fun definition hmem => spells_definition (h definition hmem)).imp ?_
  intro ts hts
  obtain ⟨ds, hds, houtlines, husages⟩ := hts.exists_outlines
  refine ⟨modelDocument token.span.start model ds,
    modelDocument_phrase hkind hopen hq hm hclose hds, ?_, restates_modelDocument houtlines _⟩
  simpa [modelDocument, Entry.usages, List.flatMap_map, Definition.usages, Body.interfaces,
    directiveUsages, Body.memberUsages, Body.construct?] using husages

end Sdl

end SchemaModel
