import Mathlib.Data.List.TakeWhile
import SchemaModel.Proofs.Legibility

/-! # Literals Written and Read

    Which values can be written down and read back as they were.

    * **Sole tokens**: a text that is one token, with nothing in front of it and nothing behind it.
    * **Well spelled**: a value in which every number is a sole token and every name is a name.
    * **Depth**: how many lists and objects are open at once.
    * **Literal values**: the values that are well spelled and not too deep. These are the ones that
      are read, from a source of their own or as the defaults of a schema. -/

namespace SchemaModel

namespace Sdl

/-! ## Spellings -/

/-- The text is one token of the given kind, with nothing in front of it and nothing behind it. -/
def SoleToken (kind : TokenKind) (text : String) : Prop :=
  lexemes text = [.token ⟨kind, ⟨0, byteLength text.toList⟩, text⟩,
    .endOfInput (byteLength text.toList)]

/-- Is the text a letter or an underscore with letters, digits and underscores behind it? -/
def isNameText (text : String) : Bool :=
  match text.toList with
  | [] => false
  | c :: cs => isNameStart c && cs.all isNamePart

end Sdl

open Sdl

/-! ## Literal Values -/

namespace Value

/-- **Well spelled**: numbers are single tokens, and names are names. Strings may hold any
    characters. -/
inductive WellSpelled : Value → Prop
  | int {digits : String} : SoleToken .int digits → WellSpelled (.int digits)
  | float {digits : String} : SoleToken .float digits → WellSpelled (.float digits)
  | string (contents : String) : WellSpelled (.string contents)
  | boolean (value : Bool) : WellSpelled (.boolean value)
  | null : WellSpelled .null
  | enum {name : String} :
      isNameText name → name ∉ ["true", "false", "null"] → WellSpelled (.enum name)
  | list {items : List Value} : (∀ item ∈ items, WellSpelled item) → WellSpelled (.list items)
  | object {entries : List (String × Value)} :
      (∀ entry ∈ entries, isNameText entry.1) → (∀ entry ∈ entries, WellSpelled entry.2) →
      WellSpelled (.object entries)

mutual

/-- How many lists and objects are open at once in a value. -/
def depth : Value → Nat
  | .list items => itemsDepth items + 1
  | .object entries => entriesDepth entries + 1
  | .int _ | .float _ | .string _ | .boolean _ | .null | .enum _ => 0

/-- The depth of the deepest item of a list. -/
def itemsDepth : List Value → Nat
  | [] => 0
  | item :: items => max item.depth (itemsDepth items)

/-- The depth of the deepest value in an object. -/
def entriesDepth : List (String × Value) → Nat
  | [] => 0
  | (_, value) :: entries => max value.depth (entriesDepth entries)

end

theorem itemsDepth_le {items : List Value} {levels : Nat} :
    itemsDepth items ≤ levels ↔ ∀ item ∈ items, item.depth ≤ levels := by
  induction items with
  | nil => simp [itemsDepth]
  | cons item items ih => simp [itemsDepth, ih]

theorem entriesDepth_le {entries : List (String × Value)} {levels : Nat} :
    entriesDepth entries ≤ levels ↔ ∀ entry ∈ entries, entry.2.depth ≤ levels := by
  induction entries with
  | nil => simp [entriesDepth]
  | cons entry entries ih =>
    rw [entriesDepth, Nat.max_le, ih, List.forall_mem_cons]

/-- **Literal values**: well spelled, with no more than 128 lists and objects open at once. -/
structure Literal (v : Value) : Prop where
  spelled : v.WellSpelled
  shallow : v.depth ≤ 128

end Value

namespace Sdl

/-! ## Names and Numbers -/

/-- A sole token is scanned as such wherever it stands. -/
theorem SoleToken.scansAs {kind : TokenKind} {text : String} (h : SoleToken kind text) :
    ScansAs kind text.toList := by
  have htokens : (Feed.ofSource text).tokens =
      [⟨kind, ⟨0, byteLength text.toList⟩, text⟩] := by
    rw [Feed.ofSource, h]
    rfl
  have hmem : ⟨kind, ⟨0, byteLength text.toList⟩, text⟩ ∈ (Feed.ofSource text).tokens :=
    htokens ▸ List.mem_cons_self
  exact portable_of_mem_tokens _ hmem

/-- A text that is scanned as one token by itself is a sole token. -/
theorem ScansAs.soleToken {kind : TokenKind} {text : String} (h : ScansAs kind text.toList) :
    SoleToken kind text := by
  obtain ⟨c, cs, htext, hscan⟩ := h [] (by simp [Apart])
  rw [List.append_nil] at htext
  rw [SoleToken, lexemes, htext, lexemesFrom_token hscan, lexemesFrom_nil, htext, Nat.zero_add,
    ← htext, String.ofList_toList]

/-- No punctuator begins a name. -/
theorem ofChar?_eq_none {c : Char} (h : isNameStart c) : Punctuator.ofChar? c = none := by
  rw [Punctuator.ofChar?, List.find?_eq_none]
  intro mark _ hmark
  obtain rfl : mark.char = c := by simpa using hmark
  cases mark <;> exact absurd h (by decide)

/-- At the beginning of a name, the name is scanned. -/
theorem scanLexeme_of_isNameStart {c : Char} (h : isNameStart c) (cs : List Char) :
    scanLexeme c cs =
      (wordKind ((c :: cs).takeWhile isNamePart), Scan.run isNamePart (c :: cs)) := by
  have hquote : ¬c = '"' := by
    rintro rfl
    exact absurd h (by decide)
  have hnumber : ¬(c = '-' || c.isDigit) = true := by
    intro hc
    rcases (by simpa using hc : c = '-' ∨ c.isDigit) with rfl | hdigit
    · exact absurd h (by decide)
    · have h : (decide (c.val ≥ 'A'.val ∧ c.val ≤ 'Z'.val) ||
          (decide (c.val ≥ 'a'.val) && decide (c.val ≤ 'z'.val)) || decide (c = '_')) = true := h
      simp only [Char.isDigit, Bool.or_eq_true, Bool.and_eq_true, decide_eq_true_eq,
        UInt32.le_iff_toNat_le] at h hdigit
      rcases h with h | rfl
      · simp at h hdigit
        omega
      · exact absurd hdigit (by decide)
  simp only [scanLexeme, ofChar?_eq_none h, if_neg hquote, if_neg hnumber, if_pos h]
  rfl

/-- What is scanned as a name begins like one and takes all characters that go on with it. -/
theorem name_of_scanLexeme {c : Char} {cs text rest : List Char} {kind : TokenKind}
    (h : scanLexeme c cs = (kind, .taken text rest)) (hname : kind.isName) :
    isNameStart c ∧ text = (c :: cs).takeWhile isNamePart ∧ kind = wordKind text := by
  have hstart : isNameStart c := by
    by_contra hstart
    unfold scanLexeme at h
    split at h
    · obtain ⟨rfl, -⟩ := Prod.mk.inj h
      simp [TokenKind.isName] at hname
    · split at h
      · split at h <;> obtain ⟨rfl, -⟩ := Prod.mk.inj h <;> simp [TokenKind.isName] at hname
      · split at h
        · obtain ⟨rfl, -⟩ := Prod.mk.inj h
          unfold numberKind at hname
          split at hname <;> simp [TokenKind.isName] at hname
        · simp [Scan.taken] at h
  rw [scanLexeme_of_isNameStart hstart] at h
  obtain ⟨rfl, hrun⟩ := Prod.mk.inj h
  obtain ⟨rfl, -⟩ : _ = text ∧ _ = rest := by simpa [Scan.run, Scan.taken] using hrun
  exact ⟨hstart, rfl, rfl⟩

theorem isName_wordKind (text : List Char) : (wordKind text).isName := by
  unfold wordKind
  cases Keyword.ofText? (String.ofList text) <;> rfl

/-- A word is the keyword of its spelling. -/
theorem text_of_wordKind {text : String} {word : Keyword}
    (h : wordKind text.toList = .keyword word) : text = word.text := by
  rw [wordKind, String.ofList_toList] at h
  cases hword : Keyword.ofText? text with
  | none => simp [hword] at h
  | some other =>
    obtain rfl : other = word := by simpa [hword] using h
    have hfound := List.find?_some hword
    exact (beq_iff_eq.mp hfound).symm

/-- A name begins with a letter or an underscore, and all its characters are characters of names. -/
theorem exists_of_isNameText {text : String} (h : isNameText text) :
    ∃ c cs, text.toList = c :: cs ∧ isNameStart c ∧ ∀ d ∈ c :: cs, isNamePart d := by
  unfold isNameText at h
  cases htext : text.toList with
  | nil => simp [htext] at h
  | cons c cs =>
    obtain ⟨hstart, hparts⟩ : isNameStart c ∧ cs.all isNamePart := by simpa [htext] using h
    have hpart : isNamePart c := by
      simp only [isNameStart, isNamePart, Char.isAlphanum, Bool.or_eq_true] at hstart ⊢
      exact hstart.imp_left .inl
    refine ⟨c, cs, rfl, hstart, ?_⟩
    simpa [hpart] using hparts

/-- A name is scanned as the word that it is. -/
theorem scansAs_of_isNameText {text : String} (h : isNameText text) :
    ScansAs (wordKind text.toList) text.toList := by
  obtain ⟨c, cs, htext, hstart, hall⟩ := exists_of_isNameText h
  have hscan : scanLexeme c cs = (wordKind (c :: cs), .taken (c :: cs) []) := by
    rw [scanLexeme_of_isNameStart hstart, Scan.run, List.takeWhile_eq_self_iff.mpr hall,
      List.dropWhile_eq_nil_iff.mpr hall]
  rw [htext]
  exact scansAs_of_scan hscan

/-- What is scanned as a name is a name, and the word that it is. -/
theorem ScansAs.isNameText {kind : TokenKind} {text : String} (h : ScansAs kind text.toList)
    (hname : kind.isName) : isNameText text ∧ kind = wordKind text.toList := by
  obtain ⟨c, cs, htext, hscan⟩ := h [] (by simp [Apart])
  rw [List.append_nil] at htext
  obtain ⟨hstart, hrun, hkind⟩ := name_of_scanLexeme hscan hname
  refine ⟨?_, hkind⟩
  have hall : ∀ d ∈ c :: cs, isNamePart d := by
    rw [← List.takeWhile_eq_self_iff, ← hrun, htext]
  rw [Sdl.isNameText, htext]
  simpa [hstart] using (List.forall_mem_cons.mp hall).2

/-! ## Written Values -/

/-- **Written values**: a well spelled value is read from its text at its depth. -/
theorem spells_of_wellSpelled {v : Value} (h : v.WellSpelled) {levels : Nat}
    (hdepth : v.depth ≤ levels) : Spells Apart v.text.toList (ValuePhrase levels · v) := by
  have hplain : ∀ {w : Value} {levels : Nat}, Spells Apart w.text.toList (PlainValue · w) →
      Spells Apart w.text.toList (ValuePhrase levels · w) := fun hw =>
    hw.imp fun ts hts => hts.valuePhrase _
  -- a list or an object opens one level, and what is in it is written at the level below
  induction h generalizing levels with
  | @int digits h =>
    exact hplain (spells_plainValue h.scansAs fun token hkind (htext : _ = digits) =>
      htext ▸ .int hkind)
  | @float digits h =>
    exact hplain (spells_plainValue h.scansAs fun token hkind (htext : _ = digits) =>
      htext ▸ .float hkind)
  | string contents => exact hplain (spells_quote contents)
  | boolean value =>
    cases value with
    | true =>
      exact hplain (spells_plainValue (scansAs_keyword .trueValue) fun _ h _ => .trueValue h)
    | false =>
      exact hplain (spells_plainValue (scansAs_keyword .falseValue) fun _ h _ => .falseValue h)
  | null => exact hplain (spells_plainValue (scansAs_keyword .nullValue) fun _ h _ => .nullValue h)
  | @enum name hname hreserved =>
    refine hplain (spells_plainValue (scansAs_of_isNameText hname) fun token hkind htext => ?_)
    change token.text = name at htext
    have hne : ∀ word : Keyword, word.text ∈ ["true", "false", "null"] →
        token.kind ≠ .keyword word := by
      intro word hword heq
      have htext : name = word.text := text_of_wordKind (hkind.symm.trans heq)
      exact hreserved (htext ▸ hword)
    subst htext
    exact .enum (hkind ▸ isName_wordKind _) (hne .trueValue (by decide))
      (hne .falseValue (by decide)) (hne .nullValue (by decide))
  | @list items _ ih =>
    cases levels with
    | zero => simp [Value.depth] at hdepth
    | succ levels =>
      have hitems := Value.itemsDepth_le.mp (Nat.le_of_succ_le_succ hdepth)
      exact spells_list fun item hmem => ih item hmem (hitems item hmem)
  | @object entries hkeys _ ih =>
    cases levels with
    | zero => simp [Value.depth] at hdepth
    | succ levels =>
      have hentries := Value.entriesDepth_le.mp (Nat.le_of_succ_le_succ hdepth)
      refine spells_object fun entry hmem => ?_
      have hkey : Word (fun _ => True) entry.1 :=
        ⟨_, isName_wordKind _, trivial, scansAs_of_isNameText (hkeys entry hmem)⟩
      exact spells_entry hkey (ih entry hmem (hentries entry hmem))

/-! ## Read Values -/

/-- What a phrase of portable tokens stands for is well spelled. -/
theorem PlainValue.wellSpelled {ts : List Token} {v : Value}
    (hts : ∀ token ∈ ts, token.Portable) (h : PlainValue ts v) : v.WellSpelled ∧ v.depth = 0 := by
  cases h with
  | int hkind =>
    exact ⟨.int (hkind ▸ (hts _ List.mem_cons_self).soleToken), rfl⟩
  | float hkind =>
    exact ⟨.float (hkind ▸ (hts _ List.mem_cons_self).soleToken), rfl⟩
  | string _ _ | blockString _ => exact ⟨.string _, rfl⟩
  | trueValue _ | falseValue _ => exact ⟨.boolean _, rfl⟩
  | nullValue _ => exact ⟨.null, rfl⟩
  | @enum token hname htrue hfalse hnull =>
    obtain ⟨htext, hkind⟩ := (hts _ List.mem_cons_self).isNameText hname
    refine ⟨.enum htext fun hreserved => ?_, rfl⟩
    -- the reserved words are scanned as other kinds
    simp only [List.mem_cons, List.not_mem_nil, or_false] at hreserved
    rcases hreserved with heq | heq | heq <;> rw [heq] at hkind
    · exact htrue (hkind.trans (by decide))
    · exact hfalse (hkind.trans (by decide))
    · exact hnull (hkind.trans (by decide))

/-- **Read values**: what a phrase of portable tokens stands for is well spelled, and no deeper than
    the level of the phrase. -/
theorem ValuePhrase.wellSpelled {levels : Nat} {ts : List Token} {v : Value}
    (hts : ∀ token ∈ ts, token.Portable) (h : ValuePhrase levels ts v) :
    v.WellSpelled ∧ v.depth ≤ levels := by
  induction levels generalizing ts v with
  | zero =>
    obtain ⟨hspelled, hdepth⟩ := PlainValue.wellSpelled hts h
    exact ⟨hspelled, hdepth.le⟩
  | succ levels ih =>
    cases h with
    | plain h =>
      obtain ⟨hspelled, hdepth⟩ := PlainValue.wellSpelled hts h
      exact ⟨hspelled, hdepth ▸ Nat.zero_le _⟩
    | @list os us vs items _ hitems _ =>
      have hitem : ∀ item ∈ items, item.WellSpelled ∧ item.depth ≤ levels := by
        intro item hmem
        obtain ⟨ws, hws, hsub⟩ := hitems.exists_of_mem hmem
        exact ih (fun token htoken => hts token (by simp [hsub htoken])) hws
      exact ⟨.list fun item hmem => (hitem item hmem).1,
        Nat.succ_le_succ (Value.itemsDepth_le.mpr fun item hmem => (hitem item hmem).2)⟩
    | @object os us vs entries _ hentries _ =>
      have hentry : ∀ entry ∈ entries, isNameText entry.1 ∧ entry.2.WellSpelled ∧
          entry.2.depth ≤ levels := by
        intro entry hmem
        obtain ⟨ws, hws, hsub⟩ := hentries.exists_of_mem hmem
        have hportable : ∀ token ∈ ws, token.Portable := fun token htoken =>
          hts token (by simp [hsub htoken])
        obtain ⟨@⟨token, hname⟩, -, hvalue⟩ := hws
        exact ⟨((hportable token (by simp)).isNameText hname).1,
          ih (fun t ht => hportable t (by simp [ht])) hvalue⟩
      exact ⟨.object (fun entry hmem => (hentry entry hmem).1)
          fun entry hmem => (hentry entry hmem).2.1,
        Nat.succ_le_succ (Value.entriesDepth_le.mpr fun entry hmem => (hentry entry hmem).2.2)⟩

/-! ## Sources -/

/-- A phrase of a value is read as a lone value. -/
theorem loneValue_eq_ok {ts : List Token} {v : Value} (h : ValuePhrase nestingLimit ts v)
    {ending : Ending} (hfault : ending.fault = none) :
    ∃ t, loneValue (.start .skip ⟨ts, ending⟩) = .ok v t := by
  have hcheck : Parser.checkNext (.start .skip ⟨ts, ending⟩) = .ok () (.start .skip ⟨ts, ending⟩) :=
    checkNext_of_fault_eq_none hfault
  have hvalue := takes_value h [] (.start .skip ⟨ts, ending⟩) ⟨hfault, rfl⟩ (by simp [ParserState.start])
  exact ⟨_, (bind_of_ok hcheck _).trans ((bind_of_ok hvalue _).trans rfl)⟩

/-- **Lone values**: a source is read as a value exactly if its tokens, all of them, are a phrase of
    the value and nothing malformed follows them. -/
theorem readValue_eq_ok {source : String} {v : Value} :
    readValue source = .ok v ↔ (Feed.ofSource source).ending.fault = none ∧
      ValuePhrase nestingLimit (Feed.ofSource source).tokens v := by
  unfold readValue
  constructor
  · intro h
    split at h
    · rename_i t hrun
      obtain rfl := Except.ok.inj h
      obtain ⟨_, s, hcheck, hrun⟩ := bind_ok_iff.mp hrun
      obtain ⟨rfl, hsettled⟩ := checkNext_ok hcheck
      obtain ⟨w, u, hvalue, hrun⟩ := bind_ok_iff.mp hrun
      obtain ⟨ts, hleads, -, hphrase⟩ := (finishes_value nestingLimit).reads _ hsettled _ _ hvalue
      rw [get_bind] at hrun
      -- nothing is left behind the value
      split at hrun
      · rename_i hend
        have hend : u.tokens = [] := by simpa using hend
        have hfault := hleads.settled hend
        have htokens : (Feed.ofSource source).tokens = ts ++ u.tokens := hleads.tokens
        rw [hend, List.append_nil] at htokens
        rw [hleads.ending] at hfault
        cases hrun
        exact ⟨hfault, htokens ▸ hphrase⟩
      · cases hrun
    · cases h
  · rintro ⟨hfault, hphrase⟩
    obtain ⟨t, hrun⟩ := loneValue_eq_ok hphrase hfault
    rw [hrun]

/-- A legible value is read from its text. -/
theorem readValue_text_of_legible {v : Value} (h : LegibleValue v) : readValue v.text = .ok v := by
  obtain ⟨hphrase, hfault⟩ := feed_of_spells h (by simp [Apart])
  exact readValue_eq_ok.mpr ⟨hfault, hphrase⟩

/-- What is read from a source of its own is a literal value. -/
theorem literal_of_readValue {source : String} {v : Value} (h : readValue source = .ok v) :
    v.Literal := by
  obtain ⟨-, hphrase⟩ := readValue_eq_ok.mp h
  obtain ⟨hspelled, hdepth⟩ := ValuePhrase.wellSpelled portable_of_mem_tokens hphrase
  exact ⟨hspelled, hdepth⟩

end Sdl

/-! ## Defaults -/

/-- The arguments and input fields of a declaration. -/
def DeclarationKind.inputs : DeclarationKind → List InputValue
  | .object fields => fields.flatMap Field.args
  | .input fields => fields
  | .enum _ | .scalar => []

/-- The defaults that a schema stores. -/
def Schema.defaults (schema : Schema) : List Value :=
  schema.declarations.flatMap fun decl => decl.kind.inputs.filterMap InputValue.defaultValue

/-- The defaults of a legible type are legible. -/
theorem legibleValue_of_mem_inputs {decl : Declaration} (h : decl.outline.Legible)
    {input : InputValue} (hinput : input ∈ decl.kind.inputs) {v : Value}
    (hv : input.defaultValue = some v) : LegibleValue v := by
  suffices input.outline.Legible from this.defaultValue v hv
  have hbody := h.body
  obtain ⟨name, kind, origin⟩ := decl
  cases kind with
  | object fields =>
    obtain ⟨field, hfield, harg⟩ := List.mem_flatMap.mp hinput
    exact (hbody _ (List.mem_map_of_mem hfield)).args _ (List.mem_map_of_mem harg)
  | input fields => exact hbody _ (List.mem_map_of_mem hinput)
  | enum values => simp [DeclarationKind.inputs] at hinput
  | scalar => simp [DeclarationKind.inputs] at hinput

/-! ## Main Result -/

/-- **Literals are read back**: every literal value is read from its text as it was, and every value
    that is read, be it from a source of its own or as the default of an argument or an input field,
    is a literal value. -/
theorem literals_read_back :
    (∀ v : Value, v.Literal → readValue v.text = .ok v) ∧
      (∀ (source : String) (v : Value), readValue source = .ok v → v.Literal) ∧
      ∀ (policy : Policy) (source : String) (schema : Schema), read policy source = .ok schema →
        ∀ v ∈ schema.defaults, v.Literal := by
  refine ⟨fun v h => ?_, fun source v h => literal_of_readValue h, ?_⟩
  · exact readValue_text_of_legible (spells_of_wellSpelled h.spelled h.shallow)
  · intro policy source schema hread v hv
    obtain ⟨decl, hdecl, hv⟩ := List.mem_flatMap.mp hv
    obtain ⟨input, hinput, hv⟩ := List.mem_filterMap.mp hv
    -- a legible default is read from its own text, and so it is a literal value
    have hlegible := legibleValue_of_mem_inputs (legible_of_read hread decl hdecl) hinput hv
    exact literal_of_readValue (readValue_text_of_legible hlegible)

/-- An object with a repeated key, numbers and an escaped string in it. -/
def labelValue : Value :=
  .object [("tag", .list [.string "a \"b\"\n\x01", .enum "type"]), ("tag", .null),
    ("size", .list [.int "-0", .float "1.50e3", .boolean true])]

/-- A field with the object as the default of its argument. -/
def labelText : String :=
  "type Query\x7ba(b:B=" ++ labelValue.text ++ "):Int\x7d"

theorem literals_read_back_labelValue :
    labelValue.Literal ∧ readValue labelValue.text = .ok labelValue ∧
      ∃ schema, read .skip labelText = .ok schema ∧ schema.defaults = [labelValue] ∧
        ∀ v ∈ schema.defaults, v.Literal := by
  obtain ⟨hwrite, hread, hdefaults⟩ := literals_read_back
  have hback : readValue labelValue.text = .ok labelValue := by
    refine hwrite labelValue ⟨?_, by decide⟩
    have hint : SoleToken .int "-0" := by
      unfold SoleToken
      decide +kernel
    have hfloat : SoleToken .float "1.50e3" := by
      unfold SoleToken
      decide +kernel
    have htags : ∀ item ∈ [Value.string "a \"b\"\n\x01", .enum "type"], item.WellSpelled := by
      have henum : (Value.enum "type").WellSpelled := .enum (by decide) (by decide)
      simpa using ⟨.string _, henum⟩
    have hsizes : ∀ item ∈ [Value.int "-0", .float "1.50e3", .boolean true],
        item.WellSpelled := by
      simpa using ⟨.int hint, .float hfloat, .boolean true⟩
    refine .object (by decide) ?_
    simpa using ⟨.list htags, .null, .list hsizes⟩
  have hdefault : (read .skip labelText).toOption.map Schema.defaults = some [labelValue] := by
    decide +kernel
  obtain ⟨schema, hsome, hvalues⟩ := Option.map_eq_some_iff.mp hdefault
  have hschema : read .skip labelText = .ok schema := toOption_eq_some.mp hsome
  exact ⟨hread _ _ hback, hback, schema, hschema, hvalues, hdefaults _ _ _ hschema⟩

end SchemaModel
