import SchemaModel.Proofs.Items
import SchemaModel.Proofs.Positions
import SchemaModel.Proofs.Strictness
import SchemaModel.Proofs.Tiling

/-! # Places in Definition Text

    Everything that is read from definition text is said to lie where it is written.

    * **Before**: the order of positions, by lines and then by columns. A text comes to later
      positions the further it goes on.
    * **StandsAt**: a token stands at a position if that is where the text in front of it comes to.
    * **Marks**: the token at which a construct is reported, with what stands around it.
    * **Parts**: each phrase of a repetition is a part of its tokens, and what the phrases name stands
      in them in the same order.
    * **WrittenIn**: a declaration lies at its keyword, with its name right behind that, and its
      members behind both.
    * **Placed**: all origins of a schema, which are different from one another. -/

namespace SchemaModel

open scoped List

/-! ## The Order of Positions -/

namespace LineCol

/-- **Before**: on an earlier line, or in an earlier column of the same line. -/
def Before (p q : LineCol) : Prop :=
  p.line < q.line ∨ (p.line = q.line ∧ p.column < q.column)

variable {p q r : LineCol}

theorem Before.trans (hpq : p.Before q) (hqr : q.Before r) : p.Before r := by
  unfold Before at *
  omega

theorem Before.ne (h : p.Before q) : p ≠ q := by
  rintro rfl
  unfold Before at h
  omega

theorem before_past (p : LineCol) (c : Char) : p.Before (p.past c) := by
  unfold past Before
  split
  · exact .inl (Nat.lt_succ_self _)
  · exact .inr ⟨rfl, Nat.lt_succ_self _⟩

/-- A text comes to a later position if it goes on. -/
theorem before_foldl_past (p : LineCol) {cs : List Char} (h : cs ≠ []) :
    p.Before (cs.foldl past p) := by
  induction cs generalizing p with
  | nil => exact absurd rfl h
  | cons c cs ih =>
    rw [List.foldl_cons]
    cases cs with
    | nil => exact p.before_past c
    | cons d ds => exact (p.before_past c).trans (ih _ (List.cons_ne_nil d ds))

/-- Of two front parts of a text, the shorter one comes to the earlier position. -/
theorem before_of_byteLength_lt (p : LineCol) {cs front back other rest : List Char}
    (h : cs = front ++ back) (hother : cs = other ++ rest)
    (hlt : byteLength front < byteLength other) :
    (front.foldl past p).Before (other.foldl past p) := by
  rcases List.append_eq_append_iff.mp (h.symm.trans hother) with
    ⟨between, rfl, -⟩ | ⟨between, rfl, -⟩
  · rw [List.foldl_append]
    refine before_foldl_past _ fun hnil => ?_
    rw [hnil, List.append_nil] at hlt
    exact Nat.lt_irrefl _ hlt
  · rw [byteLength_append] at hlt
    omega

end LineCol

/-! ## Origins in Order -/

/-- The names of a field and of its arguments, with their origins. -/
def Field.places (field : Field) : List (String × Origin) :=
  (field.name, field.origin) :: field.args.map fun arg => (arg.name, arg.origin)

/-- The names of the members of a type with their origins, each field in front of its arguments. Values
    of an enum have no origins. -/
def DeclarationKind.places : DeclarationKind → List (String × Origin)
  | .object fields => fields.flatMap Field.places
  | .input fields => fields.map fun field => (field.name, field.origin)
  | .enum _ | .scalar => []

/-- The origins of a declaration and of its members. -/
def Declaration.origins (decl : Declaration) : List Origin :=
  decl.origin :: decl.kind.places.map Prod.snd

/-- The origins of the declarations, each followed by those of its fields, and each field by those of
    its arguments. -/
def Schema.origins (schema : Schema) : List Origin :=
  schema.declarations.flatMap Declaration.origins

namespace Sdl

/-! ## Tokens in Their Places -/

/-- The word that introduces a declaration. -/
def keywordOf : DeclarationKind → Keyword
  | .object _ => .type
  | .input _ => .input
  | .enum _ => .enum
  | .scalar => .scalar

/-- **Stands at**: the text in front of the token comes to the position. -/
def Token.StandsAt (source : String) (token : Token) (p : LineCol) : Prop :=
  ∃ front back, source.toList = front ++ (token.text.toList ++ back) ∧
    token.span.start = byteLength front ∧ p = front.foldl LineCol.past ⟨1, 1⟩

/-- A token as a name at its place. -/
def Token.toName (token : Token) : Name := ⟨token.text, token.span.start⟩

/-- Is a token of this kind the word for a named type? -/
def TokenKind.opensType : TokenKind → Bool
  | .keyword word => word ∈ [.type, .interface, .union, .enum, .input, .scalar]
  | _ => false

/-- **Marks**: among some tokens, the one at which a construct with a name is reported. -/
inductive Marks (ts : List Token) : Construct → String → Token → Prop
  | interface {keyword name : Token} :
      [keyword, name] <:+: ts → keyword.kind = .keyword .interface → name.kind.isName →
      Marks ts .interface name.text keyword
  | union {keyword name : Token} :
      [keyword, name] <:+: ts → keyword.kind = .keyword .union → name.kind.isName →
      Marks ts .union name.text keyword
  | directiveDefinition {keyword mark name : Token} :
      [keyword, mark, name] <:+: ts → keyword.kind = .keyword .directive →
      mark.kind = .punctuator .atSign → name.kind.isName →
      Marks ts .directiveDefinition name.text keyword
  | extension {extend keyword name : Token} :
      [extend, keyword, name] <:+: ts → extend.kind = .keyword .extend → keyword.kind.opensType →
      name.kind.isName → Marks ts .extension name.text extend
  /-- An extension of the schema block, which goes by the name of its keyword. -/
  | schemaExtension {extend keyword : Token} :
      [extend, keyword] <:+: ts → extend.kind = .keyword .extend →
      keyword.kind = .keyword .schema → Marks ts .extension Keyword.schema.text extend
  | implements {clause : List Token} {interfaces : List Name} {name : Token} :
      clause <:+: ts → ImplementsPhrase clause interfaces → name ∈ clause →
      name.toName ∈ interfaces → Marks ts .implements name.text name
  | directive {mark name : Token} :
      [mark, name] <:+: ts → mark.kind = .punctuator .atSign → name.kind.isName →
      Marks ts .directive name.text mark

section

variable {ts us : List Token} {token name : Token} {source : String} {p q : LineCol}

theorem Marks.mono {construct : Construct} {text : String} (h : Marks ts construct text token)
    (hpart : ts <:+: us) : Marks us construct text token := by
  cases h with
  | interface hwithin hkeyword hname => exact .interface (hwithin.trans hpart) hkeyword hname
  | union hwithin hkeyword hname => exact .union (hwithin.trans hpart) hkeyword hname
  | directiveDefinition hwithin hkeyword hmark hname =>
    exact .directiveDefinition (hwithin.trans hpart) hkeyword hmark hname
  | extension hwithin hextend hkeyword hname =>
    exact .extension (hwithin.trans hpart) hextend hkeyword hname
  | schemaExtension hwithin hextend hkeyword =>
    exact .schemaExtension (hwithin.trans hpart) hextend hkeyword
  | implements hwithin hclause hname hinterface =>
    exact .implements (hwithin.trans hpart) hclause hname hinterface
  | directive hwithin hmark hname => exact .directive (hwithin.trans hpart) hmark hname

/-- A construct is reported at one of the tokens. -/
theorem Marks.mem {construct : Construct} {text : String} (h : Marks ts construct text token) :
    token ∈ ts := by
  cases h with
  | implements hwithin _ hname _ => exact hwithin.subset hname
  | interface hwithin | union hwithin | directiveDefinition hwithin | extension hwithin
  | schemaExtension hwithin | directive hwithin => exact hwithin.subset List.mem_cons_self

/-- Of two tokens, the one that begins first stands before the other one. -/
theorem Token.StandsAt.before (h : token.StandsAt source p) (hname : name.StandsAt source q)
    (hlt : token.span.start < name.span.start) : p.Before q := by
  obtain ⟨front, back, hsource, hstart, rfl⟩ := h
  obtain ⟨front', back', hsource', hstart', rfl⟩ := hname
  exact LineCol.before_of_byteLength_lt _ hsource hsource' (by rwa [← hstart, ← hstart'])

/-- The table of lines gives the position at which a token stands. -/
theorem standsAt_position (h : .token token ∈ lexemes source) :
    token.StandsAt source ((LineTable.ofText source.toList).position token.span.start) := by
  obtain ⟨back, front, hsource, hspan⟩ := (tiling_lexemes source).covers _ h
  have hstart : token.span.start = byteLength front := congrArg Span.start hspan
  refine ⟨front, back, hsource, hstart, ?_⟩
  rw [position_ofText, hstart, hsource, ← Nat.add_zero (byteLength front), LineCol.walk_append_add,
    LineCol.walk_zero]

theorem mem_lexemes_of_mem_feed (hfault : (Feed.ofSource source).ending.fault = none)
    (h : token ∈ (Feed.ofSource source).tokens) : .token token ∈ lexemes source := by
  obtain ⟨stop, hlexemes⟩ := lexemes_of_fault_eq_none hfault
  rw [hlexemes]
  exact List.mem_append_left _ (List.mem_map_of_mem h)

/-- Each token begins behind those in front of it. -/
theorem pairwise_start (hfault : (Feed.ofSource source).ending.fault = none) :
    (Feed.ofSource source).tokens.Pairwise fun t u => t.span.start < u.span.start := by
  obtain ⟨stop, hlexemes⟩ := lexemes_of_fault_eq_none hfault
  have htiling := tiling_lexemes source
  have hordered := htiling.ordered
  rw [hlexemes, List.map_append, List.map_map] at hordered
  refine (List.pairwise_map.mp (List.pairwise_append.mp hordered).1).imp_of_mem fun ht _ hle => ?_
  -- a token takes up bytes, so that the next one begins behind its start
  obtain ⟨others, hothers, hspans⟩ := htiling.ends
  rw [hlexemes] at hothers
  obtain ⟨hall, -⟩ := List.append_inj' hothers rfl
  exact Nat.lt_of_lt_of_le (hspans _ (hall ▸ List.mem_map_of_mem ht)) hle

end

/-! ## Parts of Phrases -/

section

variable {α β : Type} {phrase : Phrase α} {ts : List Token} {as : List α} {f : α → List β}
  {g : Token → β} {openMark closeMark mark : Punctuator}

/-- Each phrase of a repetition is a part of its tokens. -/
theorem Many.part (h : Many phrase ts as) : ∀ a ∈ as, ∃ us, us <:+: ts ∧ phrase us a := by
  induction h with
  | nil => exact fun a ha => absurd ha List.not_mem_nil
  | @cons ts us b bs hb _ ih =>
    rintro a (_ | ⟨_, ha⟩)
    · exact ⟨ts, (List.prefix_append ts us).isInfix, hb⟩
    · obtain ⟨vs, hvs, hphrase⟩ := ih a ha
      exact ⟨vs, hvs.trans (List.suffix_append ts us).isInfix, hphrase⟩

theorem Enclosed.part (h : Enclosed openMark closeMark phrase ts as) :
    ∀ a ∈ as, ∃ us, us <:+: ts ∧ phrase us a := by
  cases h with
  | absent => exact fun a ha => absurd ha List.not_mem_nil
  | @present ts us vs as _ hmany _ =>
    intro a ha
    obtain ⟨ws, hws, hphrase⟩ := hmany.part a ha
    exact ⟨ws, hws.trans ⟨ts, vs, List.append_assoc _ _ _⟩, hphrase⟩

/-- What each phrase takes from its tokens in their order, a repetition takes from all of them. -/
theorem Many.sublist (h : Many phrase ts as) (hphrase : ∀ us a, phrase us a → f a <+ us.map g) :
    as.flatMap f <+ ts.map g := by
  induction h with
  | nil => exact .slnil
  | cons ha _ ih =>
    rw [List.flatMap_cons, List.map_append]
    exact (hphrase _ _ ha).append ih

theorem Enclosed.sublist (h : Enclosed openMark closeMark phrase ts as)
    (hphrase : ∀ us a, phrase us a → f a <+ us.map g) : as.flatMap f <+ ts.map g := by
  cases h with
  | absent => exact .slnil
  | present _ hmany _ =>
    rw [List.map_append, List.map_append]
    exact ((hmany.sublist hphrase).trans (List.sublist_append_left _ _)).trans
      (List.sublist_append_right _ _)

theorem Separated.sublist (h : Separated mark phrase ts as)
    (hphrase : ∀ us a, phrase us a → f a <+ us.map g) : as.flatMap f <+ ts.map g := by
  cases h with
  | intro ha hothers =>
    rw [List.flatMap_cons, List.map_append]
    refine (hphrase _ _ ha).append (hothers.sublist ?_)
    rintro _ b ⟨ms, ws, -, hb, rfl⟩
    rw [List.map_append]
    exact (hphrase _ _ hb).trans (List.sublist_append_right _ _)

end

/-! ## Usages at Their Marks -/

/-- **At their marks**: each of the usages is reported at its mark among the tokens. -/
def AtMarks (ts : List Token) (usages : List Usage) : Prop :=
  ∀ usage ∈ usages, ∃ token,
    Marks ts usage.construct usage.name token ∧ token.span.start = usage.offset

section

variable {ts us : List Token} {usages others : List Usage}

namespace AtMarks

theorem nil : AtMarks ts [] := fun _ husage => absurd husage List.not_mem_nil

theorem single {construct : Construct} {text : String} {token : Token}
    (h : Marks ts construct text token) : AtMarks ts [⟨construct, text, token.span.start⟩] := by
  intro usage husage
  obtain rfl := List.mem_singleton.mp husage
  exact ⟨token, h, rfl⟩

theorem append (h : AtMarks ts usages) (hothers : AtMarks ts others) :
    AtMarks ts (usages ++ others) :=
  List.forall_mem_append.mpr ⟨h, hothers⟩

theorem mono (h : AtMarks us usages) (hpart : us <:+: ts) : AtMarks ts usages := by
  intro usage husage
  obtain ⟨token, hmarks, hoffset⟩ := h usage husage
  exact ⟨token, hmarks.mono hpart, hoffset⟩

/-- The usages in a repetition, if each of its phrases is a part of the tokens. -/
theorem of_parts {α : Type} {phrase : Phrase α} {as : List α} {f : α → List Usage}
    (hparts : ∀ a ∈ as, ∃ us, us <:+: ts ∧ phrase us a)
    (hphrase : ∀ us a, phrase us a → AtMarks us (f a)) : AtMarks ts (as.flatMap f) := by
  intro usage husage
  obtain ⟨a, ha, husage⟩ := List.mem_flatMap.mp husage
  obtain ⟨us, hpart, hus⟩ := hparts a ha
  exact (hphrase us a hus).mono hpart usage husage

end AtMarks

theorem directiveUsages_eq_flatMap (directives : List Name) :
    directiveUsages directives = directives.flatMap fun d => directiveUsages [d] := by
  induction directives with
  | nil => rfl
  | cons d directives ih =>
    rw [List.flatMap_cons, ← ih, directiveUsages, directiveUsages, directiveUsages, ← List.map_append,
      ← List.filter_append]
    rfl

theorem DirectivePhrase.atMarks {d : Name} (h : DirectivePhrase ts d) :
    AtMarks ts (directiveUsages [d]) := by
  obtain @⟨token, us, vs, key, args, hkind, hkey, -⟩ := h
  obtain @⟨name, hname⟩ := hkey
  intro usage husage
  obtain ⟨d, hd, rfl⟩ := List.mem_map.mp husage
  obtain rfl := List.mem_singleton.mp (List.mem_filter.mp hd).1
  exact ⟨token, .directive ⟨[], vs, rfl⟩ hkind hname, rfl⟩

theorem atMarks_directives {directives : List Name} (h : Many DirectivePhrase ts directives) :
    AtMarks ts (directiveUsages directives) := by
  rw [directiveUsages_eq_flatMap]
  exact .of_parts h.part fun _ _ hd => hd.atMarks

/-- The names of a clause stand in its tokens. -/
theorem ImplementsPhrase.sublist {interfaces : List Name} (h : ImplementsPhrase ts interfaces) :
    interfaces <+ ts.map Token.toName := by
  cases h with
  | absent => exact .slnil
  | present _ _ hnames =>
    have hsublist := hnames.sublist (f := fun name => [name]) (g := Token.toName) (by
      rintro _ _ ⟨-⟩
      exact List.Sublist.refl _)
    rw [List.flatMap_singleton'] at hsublist
    rw [List.map_append, List.map_append]
    exact (hsublist.trans (List.sublist_append_right _ _)).trans (List.sublist_append_right _ _)

theorem ImplementsPhrase.atMarks {interfaces : List Name} (h : ImplementsPhrase ts interfaces) :
    AtMarks ts (interfaces.map fun name => ⟨.implements, name.text, name.offset⟩) := by
  intro usage husage
  obtain ⟨interface, hinterface, rfl⟩ := List.mem_map.mp husage
  obtain ⟨name, hname, rfl⟩ := List.mem_map.mp (h.sublist.subset hinterface)
  exact ⟨name, .implements (List.infix_refl ts) h hname hinterface, rfl⟩

/-! ### Members -/

theorem InputValuePhrase.atMarks {value : InputValueDef} (h : InputValuePhrase ts value) :
    AtMarks ts value.usages := by
  obtain ⟨-, -, -, -, -, hdirectives⟩ := h
  refine (atMarks_directives hdirectives).mono ?_
  simp only [← List.append_assoc]
  exact (List.suffix_append _ _).isInfix

theorem FieldPhrase.atMarks {field : FieldDef} (h : FieldPhrase ts field) :
    AtMarks ts field.usages := by
  obtain @⟨ds, ks, as, cs, ts, us, key, args, type, directives, -, -, hargs, -, -, hdirectives⟩ := h
  refine AtMarks.append ?_ ?_
  · refine (AtMarks.of_parts hargs.part fun _ _ ha => ha.atMarks).mono ?_
    exact ⟨ds ++ ks, cs ++ (ts ++ us), by simp only [List.append_assoc]⟩
  · refine (atMarks_directives hdirectives).mono ?_
    simp only [← List.append_assoc]
    exact (List.suffix_append _ _).isInfix

theorem EnumValuePhrase.atMarks {value : EnumValueDef} (h : EnumValuePhrase ts value) :
    AtMarks ts (directiveUsages value.directives) := by
  obtain @⟨ds, us, token, directives, -, -, -, hdirectives⟩ := h
  refine (atMarks_directives hdirectives).mono ?_
  exact ((List.suffix_cons token us).trans (List.suffix_append ds _)).isInfix

/-! ### Definitions -/

/-- A type begins with its keyword and its name. -/
theorem TypePhrase.begins {d : Definition} (h : TypePhrase ts d) :
    ∃ keyword name back, ts = keyword :: name :: back ∧ keyword.kind.opensType ∧ name.kind.isName ∧
      name.text = d.name := by
  cases h with
  | object hkind hkey | interface hkind hkey | union hkind hkey | enum hkind hkey
  | input hkind hkey | scalar hkind hkey =>
    obtain ⟨hname⟩ := hkey
    exact ⟨_, _, _, rfl, by rw [hkind]; rfl, hname, rfl⟩

theorem TypePhrase.atMarks {d : Definition} (h : TypePhrase ts d) : AtMarks ts d.usages := by
  cases h with
  | @object token ks is us fs _ _ _ _ _ _ hinterfaces hdirectives hfields =>
    refine .append (.append (.append ?_ ?_) ?_) .nil
    · exact hinterfaces.atMarks.mono ⟨token :: ks, us ++ fs, by simp⟩
    · exact (atMarks_directives hdirectives).mono ⟨token :: (ks ++ is), fs, by simp⟩
    · exact (AtMarks.of_parts hfields.part fun _ _ hf => hf.atMarks).mono
        ⟨token :: (ks ++ (is ++ us)), [], by simp⟩
  | @interface token ks is us fs _ _ _ _ hkind hkey hinterfaces hdirectives hfields =>
    refine .append (.append (.append ?_ ?_) ?_) ?_
    · exact hinterfaces.atMarks.mono ⟨token :: ks, us ++ fs, by simp⟩
    · exact (atMarks_directives hdirectives).mono ⟨token :: (ks ++ is), fs, by simp⟩
    · exact (AtMarks.of_parts hfields.part fun _ _ hf => hf.atMarks).mono
        ⟨token :: (ks ++ (is ++ us)), [], by simp⟩
    · obtain ⟨hname⟩ := hkey
      exact .single (.interface ⟨[], is ++ (us ++ fs), by simp⟩ hkind hname)
  | @union token ks us ms _ _ _ hkind hkey hdirectives _ =>
    refine .append (.append (.append .nil ?_) .nil) ?_
    · exact (atMarks_directives hdirectives).mono ⟨token :: ks, ms, by simp⟩
    · obtain ⟨hname⟩ := hkey
      exact .single (.union ⟨[], us ++ ms, by simp⟩ hkind hname)
  | @enum token ks us vs _ _ _ _ _ hdirectives hvalues =>
    refine .append (.append (.append .nil ?_) ?_) .nil
    · exact (atMarks_directives hdirectives).mono ⟨token :: ks, vs, by simp⟩
    · exact (AtMarks.of_parts hvalues.part fun _ _ hv => hv.atMarks).mono
        ⟨token :: (ks ++ us), [], by simp⟩
  | @input token ks us fs _ _ _ _ _ hdirectives hfields =>
    refine .append (.append (.append .nil ?_) ?_) .nil
    · exact (atMarks_directives hdirectives).mono ⟨token :: ks, fs, by simp⟩
    · exact (AtMarks.of_parts hfields.part fun _ _ hf => hf.atMarks).mono
        ⟨token :: (ks ++ us), [], by simp⟩
  | @scalar token ks us _ _ _ _ hdirectives =>
    refine .append (.append (.append .nil ?_) .nil) .nil
    exact (atMarks_directives hdirectives).mono ⟨token :: ks, [], by simp⟩

theorem SchemaPhrase.atMarks {d : Definition} (h : SchemaPhrase ts d) : AtMarks ts d.usages := by
  obtain @⟨token, us, vs, directives, operations, -, hdirectives, -⟩ := h
  refine .append (.append (.append .nil ?_) .nil) .nil
  exact (atMarks_directives hdirectives).mono ⟨[token], vs, by simp⟩

theorem DirectiveDefinitionPhrase.atMarks {d : Definition} (h : DirectiveDefinitionPhrase ts d) :
    AtMarks ts d.usages := by
  obtain @⟨token, _, _, as, rs, os, ls, _, args, locations, hkind, hmark, hkey, hargs, -, -, -⟩ := h
  obtain ⟨mark, hmark, rfl⟩ := hmark
  obtain @⟨name, hname⟩ := hkey
  refine .append (.append (.append .nil .nil) ?_) ?_
  · exact (AtMarks.of_parts hargs.part fun _ _ ha => ha.atMarks).mono
      ⟨[token, mark, name], rs ++ (os ++ ls), by simp⟩
  · exact .single (.directiveDefinition ⟨[], as ++ (rs ++ (os ++ ls)), by simp⟩ hkind hmark hname)

/-! ### Items -/

theorem EntryPhrase.atMarks {e : Entry} (h : EntryPhrase ts e) : AtMarks ts e.usages := by
  cases h with
  | schema _ hd => exact hd.atMarks.mono (List.suffix_append _ _).isInfix
  | type _ hd => exact hd.atMarks.mono (List.suffix_append _ _).isInfix
  | directive _ hd => exact hd.atMarks.mono (List.suffix_append _ _).isInfix
  | @extension ds ts token d _ hkind hd =>
    obtain ⟨keyword, name, back, rfl, hkeyword, hname, htext⟩ := hd.begins
    have hmarks : Marks (ds ++ token :: keyword :: name :: back) .extension d.name token :=
      htext ▸ .extension ⟨ds, back, by simp⟩ hkind hkeyword hname
    exact .single hmarks

theorem ItemPhrase.atMarks {e : Entry} (h : ItemPhrase ts e) : AtMarks ts e.usages := by
  cases h with
  | entry h => exact h.atMarks
  | @schemaExtension ds ts token d _ hkind hd =>
    obtain @⟨keyword, us, vs, directives, operations, hkeyword, -, -⟩ := hd
    exact .single (.schemaExtension ⟨ds, us ++ vs, by simp⟩ hkind hkeyword)

end

/-! ## Declarations where they are Written -/

/-- The text of a token with the origin of what lies at it. -/
def Token.place (lines : LineTable) (token : Token) : String × Origin :=
  (token.text, .sdl (lines.position token.span.start))

/-- **Written in**: the declaration lies at its keyword, its name stands right behind that, and its
    members lie at their names, which stand behind both in the same order. -/
inductive WrittenIn (lines : LineTable) : List Token → Declaration → Prop
  | intro {front back : List Token} {keyword name : Token} {decl : Declaration} :
      keyword.kind = .keyword (keywordOf decl.kind) → name.text = decl.name →
      decl.origin = (keyword.place lines).2 → decl.kind.places <+ back.map (Token.place lines) →
      WrittenIn lines (front ++ keyword :: name :: back) decl

section

variable {lines : LineTable} {ts us : List Token} {decl : Declaration}

theorem NamePhrase.place {key : Name} (h : NamePhrase ts key) :
    ts.map (Token.place lines) = [(key.text, .sdl (lines.position key.offset))] := by
  obtain ⟨-⟩ := h
  rfl

theorem InputValuePhrase.place {value : InputValueDef} (h : InputValuePhrase ts value) :
    [(value.name.text, .sdl (lines.position value.name.offset))] <+ ts.map (Token.place lines) := by
  obtain ⟨-, hkey, -, -, -, -⟩ := h
  simp only [List.map_append]
  rw [hkey.place]
  exact (List.sublist_append_left _ _).trans (List.sublist_append_right _ _)

theorem Enclosed.places {values : List InputValueDef} {openMark closeMark : Punctuator}
    (h : Enclosed openMark closeMark InputValuePhrase ts values) :
    (values.map (·.toInputValue lines)).map (fun value => (value.name, value.origin)) <+
      ts.map (Token.place lines) := by
  rw [List.map_map, List.map_eq_flatMap]
  exact h.sublist fun _ _ hvalue => hvalue.place

theorem FieldPhrase.places {field : FieldDef} (h : FieldPhrase ts field) :
    (field.toField lines).places <+ ts.map (Token.place lines) := by
  obtain @⟨ds, ks, as, cs, ts, us, key, args, type, directives, -, hkey, hargs, -, -, -⟩ := h
  rw [← List.append_assoc, ← List.append_assoc, List.map_append]
  refine List.Sublist.trans ?_ (List.sublist_append_left _ _)
  rw [List.map_append, List.map_append, hkey.place, List.append_assoc]
  exact (hargs.places.cons_cons _).trans (List.sublist_append_right _ _)

theorem TypePhrase.writtenIn {d : Definition} (h : TypePhrase ts d)
    (hdecl : d.declaration? lines = some decl) (front : List Token) :
    WrittenIn lines (front ++ ts) decl := by
  cases h with
  | interface | union => cases hdecl
  | @object token ks is us fs _ _ _ fields hkind hkey _ _ hfields =>
    cases hdecl
    obtain ⟨-⟩ := hkey
    have hmembers : (fields.map (·.toField lines)).flatMap Field.places <+
        (is ++ (us ++ fs)).map (Token.place lines) := by
      rw [List.flatMap_map, ← List.append_assoc, List.map_append]
      exact (hfields.sublist fun _ _ hfield => hfield.places).trans (List.sublist_append_right _ _)
    exact .intro hkind rfl rfl hmembers
  | @input token ks us fs _ _ fields hkind hkey _ hfields =>
    cases hdecl
    obtain ⟨-⟩ := hkey
    have hmembers : (fields.map (·.toInputValue lines)).map (fun field => (field.name, field.origin)) <+
        (us ++ fs).map (Token.place lines) := by
      rw [List.map_append]
      exact hfields.places.trans (List.sublist_append_right _ _)
    exact .intro hkind rfl rfl hmembers
  | enum hkind hkey | scalar hkind hkey =>
    cases hdecl
    obtain ⟨-⟩ := hkey
    exact .intro hkind rfl rfl (List.nil_sublist _)

/-- What an item declares is written in its tokens. -/
theorem ItemPhrase.writtenIn {e : Entry} (h : ItemPhrase ts e)
    (hdecl : e.declaration? lines = some decl) : WrittenIn lines ts decl := by
  cases h with
  | schemaExtension => cases hdecl
  | entry h =>
    cases h with
    | extension => cases hdecl
    | schema _ hd =>
      obtain ⟨-, -, -⟩ := hd
      cases hdecl
    | directive _ hd =>
      obtain ⟨-, -, -, -, -, -, -⟩ := hd
      cases hdecl
    | type _ hd => exact hd.writtenIn hdecl _

/-- A declaration lies at its keyword, which its name stands behind. -/
theorem WrittenIn.keyword (h : WrittenIn lines ts decl) : ∃ keyword name, [keyword, name] <:+: ts ∧
    keyword.kind = .keyword (keywordOf decl.kind) ∧ name.text = decl.name ∧
    decl.origin = (keyword.place lines).2 := by
  obtain @⟨front, back, keyword, name, _, hkeyword, hname, horigin, -⟩ := h
  exact ⟨keyword, name, ⟨front, back, by simp⟩, hkeyword, hname, horigin⟩

/-- A member lies at its name. -/
theorem WrittenIn.member {place : String × Origin} (h : WrittenIn lines ts decl)
    (hplace : place ∈ decl.kind.places) : ∃ name ∈ ts, name.place lines = place := by
  obtain @⟨front, back, keyword, name, _, -, -, -, hplaces⟩ := h
  obtain ⟨token, htoken, rfl⟩ := List.mem_map.mp (hplaces.subset hplace)
  exact ⟨token, by simp [htoken], rfl⟩

theorem WrittenIn.sublist (h : WrittenIn lines ts decl) :
    decl.origins <+ (ts.map (Token.place lines)).map Prod.snd := by
  obtain @⟨front, back, keyword, name, _, -, -, horigin, hplaces⟩ := h
  rw [List.map_append, List.map_append, Declaration.origins, horigin]
  refine List.Sublist.trans ?_ (List.sublist_append_right _ _)
  exact ((hplaces.map Prod.snd).cons _).cons_cons _

variable {items : Document}

/-- Every declaration is written in the tokens of some item. -/
theorem exists_writtenIn (h : Many ItemPhrase ts items)
    (hdecl : decl ∈ items.filterMap (Entry.declaration? lines)) :
    ∃ us, us <:+: ts ∧ WrittenIn lines us decl := by
  obtain ⟨e, he, hdecl⟩ := List.mem_filterMap.mp hdecl
  obtain ⟨us, hpart, hus⟩ := h.part e he
  exact ⟨us, hpart, hus.writtenIn hdecl⟩

/-- What is declared lies at the tokens in their order. -/
theorem origins_sublist (h : Many ItemPhrase ts items) :
    (items.filterMap (Entry.declaration? lines)).flatMap Declaration.origins <+
      (ts.map (Token.place lines)).map Prod.snd := by
  rw [List.filterMap_eq_flatMap_toList, List.flatMap_assoc, List.map_map]
  refine h.sublist fun us e he => ?_
  cases hdecl : e.declaration? lines with
  | none => exact List.nil_sublist _
  | some decl =>
    have horigins := (he.writtenIn hdecl).sublist
    rw [List.map_map] at horigins
    simpa using horigins

/-- Where the tokens stand at later and later positions, so does what is declared. -/
theorem exists_positions (h : Many ItemPhrase ts items)
    (hbefore : (ts.map fun token => lines.position token.span.start).Pairwise LineCol.Before) :
    ∃ positions : List LineCol,
      (items.filterMap (Entry.declaration? lines)).flatMap Declaration.origins =
        positions.map .sdl ∧ positions.Pairwise LineCol.Before := by
  have hsublist : (items.filterMap (Entry.declaration? lines)).flatMap Declaration.origins <+
      ts.map (Prod.snd ∘ Token.place lines) := by
    rw [← List.map_map]
    exact origins_sublist h
  obtain ⟨marks, hmarks, horigins⟩ := List.sublist_map_iff.mp hsublist
  refine ⟨marks.map fun token => lines.position token.span.start, ?_, hbefore.sublist (hmarks.map _)⟩
  rw [List.map_map]
  exact horigins

end

/-! ## Main Result -/

/-- **Placed**: all origins of the schema lie where the source says what they are for. -/
structure Placed (source : String) (schema : Schema) : Prop where
  /-- A declaration lies at its keyword, and the next token is its name. -/
  declarations : ∀ decl ∈ schema.declarations, ∃ keyword name p,
    [keyword, name] <:+: (Feed.ofSource source).tokens ∧
      keyword.kind = .keyword (keywordOf decl.kind) ∧ name.text = decl.name ∧
      keyword.StandsAt source p ∧ decl.origin = .sdl p
  /-- A field, an argument or an input field lies at its name. -/
  members : ∀ decl ∈ schema.declarations, ∀ place ∈ decl.kind.places,
    ∃ name ∈ (Feed.ofSource source).tokens, ∃ p,
      name.text = place.1 ∧ name.StandsAt source p ∧ place.2 = .sdl p
  /-- A skipped construct lies at its mark. -/
  skipped : ∀ skipped ∈ schema.skipped, ∃ token p,
    Marks (Feed.ofSource source).tokens skipped.construct skipped.name token ∧
      token.StandsAt source p ∧ skipped.origin = .sdl p
  /-- Each declaration lies in front of its members, and these in front of the next one. -/
  ordered : ∃ positions : List LineCol, schema.origins = positions.map .sdl ∧
    positions.Pairwise LineCol.Before
  distinct : schema.origins.Nodup

section

variable {source : String}

/-- The tokens stand at later and later positions. -/
theorem pairwise_position (hfault : (Feed.ofSource source).ending.fault = none) :
    ((Feed.ofSource source).tokens.map fun token =>
      (LineTable.ofText source.toList).position token.span.start).Pairwise LineCol.Before := by
  refine List.pairwise_map.mpr ((pairwise_start hfault).imp_of_mem fun ht hu hlt => ?_)
  exact (standsAt_position (mem_lexemes_of_mem_feed hfault ht)).before
    (standsAt_position (mem_lexemes_of_mem_feed hfault hu)) hlt

/-- What is read under either policy is read with everything skipped that can be. -/
theorem read_skip_of_read {policy : Policy} {schema : Schema} (h : read policy source = .ok schema) :
    read .skip source = .ok schema := by
  cases policy with
  | skip => exact h
  | reject => exact (((strictReading_read source).accepted schema).mp h).1

/-- **Everything lies where it is written**: whatever is read from a source has the line and column of
    the token that says it, and what is declared has later and later ones. -/
theorem origins_lie_at_their_tokens {policy : Policy} {schema : Schema}
    (hread : read policy source = .ok schema) : Placed source schema := by
  obtain ⟨hfault, items, hitems, -, hschema⟩ := read_eq_ok_iff_items.mp (read_skip_of_read hread)
  have hstands : ∀ token ∈ (Feed.ofSource source).tokens,
      token.StandsAt source ((LineTable.ofText source.toList).position token.span.start) :=
    fun _ htoken => standsAt_position (mem_lexemes_of_mem_feed hfault htoken)
  have hpositions := pairwise_position hfault
  generalize LineTable.ofText source.toList = lines at hschema hstands hpositions
  have hskipped : schema.skipped = (items.flatMap Entry.usages).map (Usage.skipped lines) := by
    rw [hschema, skipped_toSchema]
  have hdeclarations : schema.declarations = items.filterMap (Entry.declaration? lines) := by
    rw [hschema]
    unfold Document.toSchema
    split <;> rfl
  obtain ⟨positions, horigins, hbefore⟩ : ∃ positions : List LineCol,
      schema.origins = positions.map .sdl ∧ positions.Pairwise LineCol.Before := by
    rw [Schema.origins, hdeclarations]
    exact exists_positions hitems hpositions
  refine ⟨?declarations, ?members, ?skipped, ⟨positions, horigins, hbefore⟩, ?distinct⟩
  case declarations =>
    intro decl hdecl
    rw [hdeclarations] at hdecl
    obtain ⟨us, hpart, hus⟩ := exists_writtenIn hitems hdecl
    obtain ⟨keyword, name, hpair, hkeyword, hname, horigin⟩ := hus.keyword
    have hmem := (hpair.trans hpart).subset List.mem_cons_self
    exact ⟨keyword, name, _, hpair.trans hpart, hkeyword, hname, hstands keyword hmem, horigin⟩
  case members =>
    intro decl hdecl place hplace
    rw [hdeclarations] at hdecl
    obtain ⟨us, hpart, hus⟩ := exists_writtenIn hitems hdecl
    obtain ⟨name, hname, rfl⟩ := hus.member hplace
    have hmem := hpart.subset hname
    exact ⟨name, hmem, _, rfl, hstands name hmem, rfl⟩
  case skipped =>
    intro skipped hmem
    rw [hskipped] at hmem
    obtain ⟨usage, husage, rfl⟩ := List.mem_map.mp hmem
    have hmarked : AtMarks (Feed.ofSource source).tokens (items.flatMap Entry.usages) :=
      .of_parts hitems.part fun _ _ he => he.atMarks
    obtain ⟨token, hmarks, hoffset⟩ := hmarked usage husage
    exact ⟨token, _, hmarks, hstands token hmarks.mem,
      congrArg (fun offset => Origin.sdl (lines.position offset)) hoffset.symm⟩
  case distinct =>
    rw [horigins]
    refine (List.nodup_map_iff fun p q h => Origin.sdl.inj h).mpr ?_
    exact hbefore.imp LineCol.Before.ne

end

/-- A directive definition, an object type that uses the directive, and an extension of it. -/
def quayText : String :=
  "directive@lit on OBJECT\r\ntype Quay implements Berth\x7b\n\"ä\" ship(name:ID tons:Int):ID@lit\x7d" ++
    "extend type Quay@lit"

/-- Columns count characters, and the directive inside the extension goes with it. -/
theorem origins_lie_at_their_tokens_quayText :
    ∃ schema, read .skip quayText = .ok schema ∧
      schema.origins = [.sdl ⟨2, 1⟩, .sdl ⟨3, 5⟩, .sdl ⟨3, 10⟩, .sdl ⟨3, 18⟩] ∧
      schema.skipped = [⟨.directiveDefinition, "lit", .sdl ⟨1, 1⟩⟩, ⟨.implements, "Berth", .sdl ⟨2, 22⟩⟩,
        ⟨.directive, "lit", .sdl ⟨3, 30⟩⟩, ⟨.extension, "Quay", .sdl ⟨3, 35⟩⟩] ∧
      Placed quayText schema := by
  have hfound : (read .skip quayText).toOption.map (fun schema => (schema.origins, schema.skipped)) =
      some ([.sdl ⟨2, 1⟩, .sdl ⟨3, 5⟩, .sdl ⟨3, 10⟩, .sdl ⟨3, 18⟩],
        [⟨.directiveDefinition, "lit", .sdl ⟨1, 1⟩⟩, ⟨.implements, "Berth", .sdl ⟨2, 22⟩⟩,
          ⟨.directive, "lit", .sdl ⟨3, 30⟩⟩, ⟨.extension, "Quay", .sdl ⟨3, 35⟩⟩]) := by decide +kernel
  obtain ⟨schema, hschema, hboth⟩ := Option.map_eq_some_iff.mp hfound
  obtain ⟨horigins, hskipped⟩ := Prod.mk.inj hboth
  have hread : read .skip quayText = .ok schema := toOption_eq_some.mp hschema
  exact ⟨schema, hread, horigins, hskipped, origins_lie_at_their_tokens hread⟩

end Sdl

end SchemaModel
