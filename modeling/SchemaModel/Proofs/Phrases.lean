import SchemaModel.Sdl.Grammar

/-! # Phrases

    The grammar of schema definition text, as the runs of tokens that make up each kind of phrase
    and the tree that they stand for. It says nothing about how a phrase is found.

    * **Phrase**: which tokens say what.
    * **Levels**: a value or a type is a phrase for the number of brackets that it may open.
    * **Starts** and **Free**: the token that a phrase begins with, and the tokens that must not
      follow it. -/

namespace SchemaModel.Sdl

/-! ## Runs of Tokens -/

/-- A kind of phrase: the runs of tokens that belong to it, with what they say. -/
abbrev Phrase (α : Type) := List Token → α → Prop

section

variable {α : Type}

/-- A single token of the given kind. -/
def Lone (kind : TokenKind) (ts : List Token) : Prop :=
  ∃ token : Token, token.kind = kind ∧ ts = [token]

/-- A token of the given kind, or none. -/
def Perhaps (kind : TokenKind) (ts : List Token) : Prop :=
  ts = [] ∨ Lone kind ts

/-- Any number of phrases of one kind. -/
inductive Many (phrase : Phrase α) : Phrase (List α)
  | nil : Many phrase [] []
  | cons {ts us : List Token} {a : α} {as : List α} :
      phrase ts a → Many phrase us as → Many phrase (ts ++ us) (a :: as)

/-- Any number of phrases between two punctuators, or nothing at all. -/
inductive Enclosed (openMark closeMark : Punctuator) (phrase : Phrase α) : Phrase (List α)
  | absent : Enclosed openMark closeMark phrase [] []
  | present {ts us vs : List Token} {as : List α} :
      Lone (.punctuator openMark) ts → Many phrase us as → Lone (.punctuator closeMark) vs →
      Enclosed openMark closeMark phrase (ts ++ (us ++ vs)) as

/-- One or more phrases with a punctuator between them. -/
inductive Separated (mark : Punctuator) (phrase : Phrase α) : Phrase (List α)
  | intro {ts us : List Token} {a : α} {as : List α} :
      phrase ts a →
      Many (fun vs b => ∃ ms ws, Lone (.punctuator mark) ms ∧ phrase ws b ∧ vs = ms ++ ws) us as →
      Separated mark phrase (ts ++ us) (a :: as)

end

/-- A name, at the place where it is written. -/
inductive NamePhrase : Phrase Name
  | intro {token : Token} :
      token.kind.isName → NamePhrase [token] ⟨token.text, token.span.start⟩

/-! ## Values -/

/-- A value of one token. -/
inductive PlainValue : Phrase Value
  | int {token : Token} : token.kind = .int → PlainValue [token] (.int token.text)
  | float {token : Token} : token.kind = .float → PlainValue [token] (.float token.text)
  | string {token : Token} {contents : List Char} :
      token.kind = .string → unquote (literalBody 1 token.text) = .ok contents →
      PlainValue [token] (.string (String.ofList contents))
  | blockString {token : Token} :
      token.kind = .blockString →
      PlainValue [token] (.string (String.ofList (blockContents (literalBody 3 token.text))))
  | trueValue {token : Token} :
      token.kind = .keyword .trueValue → PlainValue [token] (.boolean true)
  | falseValue {token : Token} :
      token.kind = .keyword .falseValue → PlainValue [token] (.boolean false)
  | nullValue {token : Token} : token.kind = .keyword .nullValue → PlainValue [token] .null
  | enum {token : Token} :
      token.kind.isName → token.kind ≠ .keyword .trueValue → token.kind ≠ .keyword .falseValue →
      token.kind ≠ .keyword .nullValue → PlainValue [token] (.enum token.text)

/-- A name with a value. -/
inductive EntryOf (value : Phrase Value) : Phrase (String × Value)
  | intro {ts us vs : List Token} {key : Name} {v : Value} :
      NamePhrase ts key → Lone (.punctuator .colon) us → value vs v →
      EntryOf value (ts ++ (us ++ vs)) (key.text, v)

/-- A value around values of one level less. -/
inductive ValueAround (inner : Phrase Value) : Phrase Value
  | plain {ts : List Token} {v : Value} : PlainValue ts v → ValueAround inner ts v
  | list {ts us vs : List Token} {items : List Value} :
      Lone (.punctuator .bracketOpen) ts → Many inner us items →
      Lone (.punctuator .bracketClose) vs → ValueAround inner (ts ++ (us ++ vs)) (.list items)
  | object {ts us vs : List Token} {entries : List (String × Value)} :
      Lone (.punctuator .braceOpen) ts → Many (EntryOf inner) us entries →
      Lone (.punctuator .braceClose) vs →
      ValueAround inner (ts ++ (us ++ vs)) (.object entries)

/-- A value in which up to `levels` brackets and braces are open at once. -/
def ValuePhrase : Nat → Phrase Value
  | 0 => PlainValue
  | levels + 1 => ValueAround (ValuePhrase levels)

/-! ## Types -/

/-- A type without a bang at its end: a name, or a type of one level less in brackets. -/
inductive BareType (inner : Phrase (TypeRef String)) : Phrase (TypeRef String)
  | named {ts : List Token} {leaf : Name} :
      NamePhrase ts leaf → BareType inner ts (.named leaf.text)
  | list {ts us vs : List Token} {item : TypeRef String} :
      Lone (.punctuator .bracketOpen) ts → inner us item → Lone (.punctuator .bracketClose) vs →
      BareType inner (ts ++ (us ++ vs)) (.list item)

/-- A type with or without a bang at its end. -/
inductive Banged (bare : Phrase (TypeRef String)) : Phrase (TypeRef String)
  | plain {ts : List Token} {type : TypeRef String} : bare ts type → Banged bare ts type
  | nonNull {ts us : List Token} {type : TypeRef String} :
      bare ts type → Lone (.punctuator .bang) us → Banged bare (ts ++ us) (.nonNull type)

/-- A type in which up to `levels` brackets are open at once. -/
def TypeRefPhrase : Nat → Phrase (TypeRef String)
  | 0 => Banged (BareType fun _ _ => False)
  | levels + 1 => Banged (BareType (TypeRefPhrase levels))

/-! ## Descriptions and Directives -/

/-- A string that stands for something, a block string, or nothing. -/
inductive DescriptionPhrase : List Token → Prop
  | absent : DescriptionPhrase []
  | string {token : Token} {contents : List Char} :
      token.kind = .string → unquote (literalBody 1 token.text) = .ok contents →
      DescriptionPhrase [token]
  | blockString {token : Token} : token.kind = .blockString → DescriptionPhrase [token]

/-- The use of a directive, which lies at its at sign. -/
inductive DirectivePhrase : Phrase Name
  | intro {token : Token} {us vs : List Token} {key : Name} {args : List (String × Value)} :
      token.kind = .punctuator .atSign → NamePhrase us key →
      Enclosed .parenOpen .parenClose (EntryOf (ValuePhrase nestingLimit)) vs args →
      DirectivePhrase (token :: (us ++ vs)) ⟨key.text, token.span.start⟩

/-! ## Members -/

/-- An equals sign and a value, or nothing. -/
inductive DefaultPhrase : Phrase (Option Value)
  | absent : DefaultPhrase [] none
  | present {ts us : List Token} {v : Value} :
      Lone (.punctuator .equals) ts → ValuePhrase nestingLimit us v →
      DefaultPhrase (ts ++ us) (some v)

/-- An argument or a field of an input type. -/
inductive InputValuePhrase : Phrase InputValueDef
  | intro {ds ks cs ts vs us : List Token} {key : Name} {type : TypeRef String}
      {defaultValue : Option Value} {directives : List Name} :
      DescriptionPhrase ds → NamePhrase ks key → Lone (.punctuator .colon) cs →
      TypeRefPhrase nestingLimit ts type → DefaultPhrase vs defaultValue →
      Many DirectivePhrase us directives →
      InputValuePhrase (ds ++ (ks ++ (cs ++ (ts ++ (vs ++ us)))))
        ⟨key, type, defaultValue, directives⟩

/-- A field of an object or interface. -/
inductive FieldPhrase : Phrase FieldDef
  | intro {ds ks as cs ts us : List Token} {key : Name} {args : List InputValueDef}
      {type : TypeRef String} {directives : List Name} :
      DescriptionPhrase ds → NamePhrase ks key →
      Enclosed .parenOpen .parenClose InputValuePhrase as args → Lone (.punctuator .colon) cs →
      TypeRefPhrase nestingLimit ts type → Many DirectivePhrase us directives →
      FieldPhrase (ds ++ (ks ++ (as ++ (cs ++ (ts ++ us))))) ⟨key, args, type, directives⟩

/-- Is a token of this kind the word for a Boolean or null? -/
def TokenKind.isReserved : TokenKind → Bool
  | .keyword .trueValue | .keyword .falseValue | .keyword .nullValue => true
  | _ => false

/-- A value of an enum. -/
inductive EnumValuePhrase : Phrase EnumValueDef
  | intro {ds us : List Token} {token : Token} {directives : List Name} :
      DescriptionPhrase ds → token.kind.isName → token.kind.isReserved = false →
      Many DirectivePhrase us directives →
      EnumValuePhrase (ds ++ (token :: us)) ⟨⟨token.text, token.span.start⟩, directives⟩

/-- The interfaces that a type implements, or nothing. -/
inductive ImplementsPhrase : Phrase (List Name)
  | absent : ImplementsPhrase [] []
  | present {ts us vs : List Token} {interfaces : List Name} :
      Lone (.keyword .implements) ts → Perhaps (.punctuator .ampersand) us →
      Separated .ampersand NamePhrase vs interfaces →
      ImplementsPhrase (ts ++ (us ++ vs)) interfaces

/-- An operation with its root type. -/
inductive OperationPhrase : Phrase (RootOperation × String)
  | intro {token : Token} {us vs : List Token} {operation : RootOperation} {type : Name} :
      operationOf? token.kind = some operation → Lone (.punctuator .colon) us →
      NamePhrase vs type → OperationPhrase (token :: (us ++ vs)) (operation, type.text)

/-! ## Definitions -/

/-- Names with a pipe between them, and perhaps one in front. -/
inductive PipedPhrase : Phrase (List Name)
  | intro {ts us : List Token} {names : List Name} :
      Perhaps (.punctuator .pipe) ts → Separated .pipe NamePhrase us names →
      PipedPhrase (ts ++ us) names

/-- An equals sign and the members of a union, or nothing. -/
inductive MembersPhrase : Phrase (List Name)
  | absent : MembersPhrase [] []
  | present {ts us : List Token} {members : List Name} :
      Lone (.punctuator .equals) ts → PipedPhrase us members → MembersPhrase (ts ++ us) members

/-- A schema block. -/
inductive SchemaPhrase : Phrase Definition
  | intro {token : Token} {us vs : List Token} {directives : List Name}
      {operations : List (RootOperation × String)} :
      token.kind = .keyword .schema → Many DirectivePhrase us directives →
      Enclosed .braceOpen .braceClose OperationPhrase vs operations →
      SchemaPhrase (token :: (us ++ vs))
        ⟨token.span.start, Keyword.schema.text, directives, .schema operations⟩

/-- A named type. -/
inductive TypePhrase : Phrase Definition
  | object {token : Token} {ks is us fs : List Token} {key : Name}
      {interfaces directives : List Name} {fields : List FieldDef} :
      token.kind = .keyword .type → NamePhrase ks key → ImplementsPhrase is interfaces →
      Many DirectivePhrase us directives → Enclosed .braceOpen .braceClose FieldPhrase fs fields →
      TypePhrase (token :: (ks ++ (is ++ (us ++ fs))))
        ⟨token.span.start, key.text, directives, .object interfaces fields⟩
  | interface {token : Token} {ks is us fs : List Token} {key : Name}
      {interfaces directives : List Name} {fields : List FieldDef} :
      token.kind = .keyword .interface → NamePhrase ks key → ImplementsPhrase is interfaces →
      Many DirectivePhrase us directives → Enclosed .braceOpen .braceClose FieldPhrase fs fields →
      TypePhrase (token :: (ks ++ (is ++ (us ++ fs))))
        ⟨token.span.start, key.text, directives, .interface interfaces fields⟩
  | union {token : Token} {ks us ms : List Token} {key : Name} {directives members : List Name} :
      token.kind = .keyword .union → NamePhrase ks key → Many DirectivePhrase us directives →
      MembersPhrase ms members →
      TypePhrase (token :: (ks ++ (us ++ ms)))
        ⟨token.span.start, key.text, directives, .union members⟩
  | enum {token : Token} {ks us vs : List Token} {key : Name} {directives : List Name}
      {values : List EnumValueDef} :
      token.kind = .keyword .enum → NamePhrase ks key → Many DirectivePhrase us directives →
      Enclosed .braceOpen .braceClose EnumValuePhrase vs values →
      TypePhrase (token :: (ks ++ (us ++ vs)))
        ⟨token.span.start, key.text, directives, .enum values⟩
  | input {token : Token} {ks us fs : List Token} {key : Name} {directives : List Name}
      {fields : List InputValueDef} :
      token.kind = .keyword .input → NamePhrase ks key → Many DirectivePhrase us directives →
      Enclosed .braceOpen .braceClose InputValuePhrase fs fields →
      TypePhrase (token :: (ks ++ (us ++ fs)))
        ⟨token.span.start, key.text, directives, .input fields⟩
  | scalar {token : Token} {ks us : List Token} {key : Name} {directives : List Name} :
      token.kind = .keyword .scalar → NamePhrase ks key → Many DirectivePhrase us directives →
      TypePhrase (token :: (ks ++ us)) ⟨token.span.start, key.text, directives, .scalar⟩

/-- A directive definition. -/
inductive DirectiveDefinitionPhrase : Phrase Definition
  | intro {token : Token} {ms ks as rs os ls : List Token} {key : Name}
      {args : List InputValueDef} {locations : List Name} :
      token.kind = .keyword .directive → Lone (.punctuator .atSign) ms → NamePhrase ks key →
      Enclosed .parenOpen .parenClose InputValuePhrase as args →
      Perhaps (.keyword .repeatable) rs → Lone (.keyword .onLocation) os →
      PipedPhrase ls locations →
      DirectiveDefinitionPhrase (token :: (ms ++ (ks ++ (as ++ (rs ++ (os ++ ls))))))
        ⟨token.span.start, key.text, [], .directive args locations⟩

/-! ## Documents -/

/-- An item of a document, with a description or without. -/
inductive EntryPhrase : Phrase Entry
  | schema {ds ts : List Token} {d : Definition} :
      DescriptionPhrase ds → SchemaPhrase ts d → EntryPhrase (ds ++ ts) (.definition d)
  | type {ds ts : List Token} {d : Definition} :
      DescriptionPhrase ds → TypePhrase ts d → EntryPhrase (ds ++ ts) (.definition d)
  | directive {ds ts : List Token} {d : Definition} :
      DescriptionPhrase ds → DirectiveDefinitionPhrase ts d →
      EntryPhrase (ds ++ ts) (.definition d)
  | extension {ds ts : List Token} {token : Token} {d : Definition} :
      DescriptionPhrase ds → token.kind = .keyword .extend → TypePhrase ts d →
      EntryPhrase (ds ++ (token :: ts)) (.extension token.span.start d)

/-- An item as the parser reads it: one of the grammar, or an extension of the schema block. -/
inductive ItemPhrase : Phrase Entry
  | entry {ts : List Token} {e : Entry} : EntryPhrase ts e → ItemPhrase ts e
  | schemaExtension {ds ts : List Token} {token : Token} {d : Definition} :
      DescriptionPhrase ds → token.kind = .keyword .extend → SchemaPhrase ts d →
      ItemPhrase (ds ++ (token :: ts)) (.extension token.span.start d)

/-- The operations that the schema blocks of a document give a root type, in its order. -/
def Document.operations (document : Document) : List (RootOperation × String) :=
  (document.filterMap Entry.schemaBlock?).flatMap Prod.snd

/-- **Documents**: items of which at most one is a schema block, and it names no operation
    twice. -/
structure DocumentPhrase (ts : List Token) (document : Document) : Prop where
  items : Many EntryPhrase ts document
  oneBlock : (document.filterMap Entry.schemaBlock?).length ≤ 1
  distinct : (document.operations.map Prod.fst).Nodup

/-- **Fresh**: the operations differ from one another, and none of them has a root type yet. -/
def Fresh (granted : List RootOperation) (operations : List (RootOperation × String)) : Prop :=
  (operations.map Prod.fst).Nodup ∧ ∀ operation ∈ operations, operation.1 ∉ granted

/-- The operations that a definition names. -/
def Body.operations : Body → List (RootOperation × String)
  | .schema operations => operations
  | _ => []

/-- The operations that an item names, be it a schema block or an extension of one. -/
def Entry.operations : Entry → List (RootOperation × String)
  | .definition d | .extension _ d => d.body.operations

/-- Is the item a schema block? -/
def Entry.isBlock (e : Entry) : Bool := e.schemaBlock?.isSome

/-- **Admitted**: the parser takes the item where the operations `granted` have a root type, and
    where a schema block has been `seen` or not. An extension may not name an operation again either,
    although it gives none a root type. -/
structure Entry.Admitted (granted : List RootOperation) (seen : Bool) (e : Entry) : Prop where
  first : e.isBlock → seen = false
  fresh : Fresh granted e.operations

/-- The operations that have a root type behind some items, the last one first. -/
def Document.granting (granted : List RootOperation) (items : Document) : List RootOperation :=
  (items.operations.map Prod.fst).reverse ++ granted

/-- Items that are admitted one after the other. -/
def Document.Admitted (granted : List RootOperation) (seen : Bool) : Document → Prop
  | [] => True
  | e :: items => e.Admitted granted seen ∧
      Document.Admitted (Document.granting granted [e]) (seen || e.isBlock) items

/-! ## First Tokens -/

/-- The tokens begin with one of a kind that `first` allows. -/
def Starts (first : TokenKind → Bool) (ts : List Token) : Prop :=
  ∃ token us, ts = token :: us ∧ first token.kind

/-- The first token, if there is one, is of none of the given kinds. -/
def Free (kinds : List TokenKind) (ts : List Token) : Prop :=
  ∀ token ∈ ts.head?, token.kind ∉ kinds

/-- Does a token of this kind begin a value? -/
def TokenKind.startsValue : TokenKind → Bool
  | .punctuator mark => mark = .bracketOpen || mark = .braceOpen
  | _ => true

/-- Does a token of this kind begin a member, be it a description or a name? -/
def TokenKind.startsMember : TokenKind → Bool
  | .string | .blockString | .name | .keyword _ => true
  | _ => false

/-- Does a token of this kind begin an item of a document? -/
def TokenKind.startsItem : TokenKind → Bool
  | .string | .blockString => true
  | .keyword word => word ∈ [.schema, .type, .interface, .union, .enum, .input, .scalar,
      .directive, .extend]
  | _ => false

section

variable {α : Type} {first : TokenKind → Bool} {kinds : List TokenKind} {ts us : List Token}

theorem Starts.ne_nil (h : Starts first ts) : ts ≠ [] := by
  obtain ⟨token, us, rfl, -⟩ := h
  exact List.cons_ne_nil token us

theorem Starts.append (h : Starts first ts) (us : List Token) : Starts first (ts ++ us) := by
  obtain ⟨token, vs, rfl, hfirst⟩ := h
  exact ⟨token, vs ++ us, rfl, hfirst⟩

theorem Starts.mono {other : TokenKind → Bool} (h : Starts first ts)
    (himp : ∀ kind, first kind → other kind) : Starts other ts := by
  obtain ⟨token, us, rfl, hfirst⟩ := h
  exact ⟨token, us, rfl, himp _ hfirst⟩

theorem Starts.free (h : Starts first ts) (hkinds : ∀ kind ∈ kinds, first kind = false) :
    Free kinds ts := by
  obtain ⟨token, us, rfl, hfirst⟩ := h
  rintro _ ⟨rfl⟩ hmem
  rw [hkinds _ hmem] at hfirst
  cases hfirst

theorem free_nil : Free kinds [] := by
  simp [Free]

theorem Free.append (hts : Free kinds ts) (hus : Free kinds us) : Free kinds (ts ++ us) := by
  cases ts with
  | nil => exact hus
  | cons token ts => exact hts

theorem Free.subset {others : List TokenKind} (h : Free kinds ts) (hsub : others ⊆ kinds) :
    Free others ts :=
  fun token htoken hmem => h token htoken (hsub hmem)

theorem Lone.starts {kind : TokenKind} (h : Lone kind ts) : Starts (· == kind) ts := by
  obtain ⟨token, hkind, rfl⟩ := h
  exact ⟨token, [], rfl, by simp [hkind]⟩

theorem Lone.free {kind : TokenKind} (h : Lone kind ts) (hkind : kind ∉ kinds)
    (us : List Token) : Free kinds (ts ++ us) := by
  apply (h.starts.append us).free
  intro other hmem
  simpa using fun heq : other = kind => hkind (heq ▸ hmem)

theorem Perhaps.free {kind : TokenKind} (h : Perhaps kind ts) (hkind : kind ∉ kinds) :
    Free kinds ts := by
  rcases h with rfl | h
  · exact free_nil
  · simpa using h.free hkind []

theorem Many.free {phrase : Phrase α} {as : List α} (h : Many phrase ts as)
    (hphrase : ∀ {us a}, phrase us a → Free kinds us) : Free kinds ts := by
  induction h with
  | nil => exact free_nil
  | cons ha _ ih => exact (hphrase ha).append ih

theorem Many.imp {phrase weaker : Phrase α} {as : List α} (h : Many phrase ts as)
    (himp : ∀ {us a}, phrase us a → weaker us a) : Many weaker ts as := by
  induction h with
  | nil => exact .nil
  | cons ha _ ih => exact .cons (himp ha) ih

theorem Enclosed.free {openMark closeMark : Punctuator} {phrase : Phrase α} {as : List α}
    (h : Enclosed openMark closeMark phrase ts as) (hmark : .punctuator openMark ∉ kinds) :
    Free kinds ts := by
  cases h with
  | absent => exact free_nil
  | present hopen _ _ => exact hopen.free hmark _

end

section

variable {ts : List Token}

theorem NamePhrase.starts {key : Name} (h : NamePhrase ts key) : Starts TokenKind.isName ts := by
  obtain ⟨hname⟩ := h
  exact ⟨_, [], rfl, hname⟩

theorem EntryOf.starts {value : Phrase Value} {entry : String × Value}
    (h : EntryOf value ts entry) : Starts TokenKind.isName ts := by
  obtain ⟨hkey, -, -⟩ := h
  exact hkey.starts.append _

theorem PlainValue.starts {v : Value} (h : PlainValue ts v) : Starts TokenKind.startsValue ts := by
  cases h with
  | @enum token hname =>
    refine ⟨token, [], rfl, ?_⟩
    cases hkind : token.kind <;> simp_all [TokenKind.startsValue, TokenKind.isName]
  | _ => exact ⟨_, [], rfl, by simp [*, TokenKind.startsValue]⟩

/-- A value of one token is a value at any level. -/
theorem PlainValue.valuePhrase {v : Value} (h : PlainValue ts v) (levels : Nat) :
    ValuePhrase levels ts v := by
  cases levels with
  | zero => exact h
  | succ levels => exact .plain h

theorem ValuePhrase.starts {levels : Nat} {v : Value} (h : ValuePhrase levels ts v) :
    Starts TokenKind.startsValue ts := by
  have hmark : ∀ mark : Punctuator, (mark = .bracketOpen ∨ mark = .braceOpen) →
      ∀ kind : TokenKind, (kind == .punctuator mark) → kind.startsValue := by
    rintro mark hmark kind hkind
    obtain rfl : kind = .punctuator mark := by simpa using hkind
    simpa [TokenKind.startsValue] using hmark
  -- the first token of a value does not depend on what is inside its brackets
  cases levels with
  | zero => exact PlainValue.starts h
  | succ levels =>
    cases h with
    | plain h => exact h.starts
    | list hopen _ _ => exact (hopen.starts.mono (hmark _ (.inl rfl))).append _
    | object hopen _ _ => exact (hopen.starts.mono (hmark _ (.inr rfl))).append _

theorem DirectivePhrase.starts {d : Name} (h : DirectivePhrase ts d) :
    Starts (· == .punctuator .atSign) ts := by
  obtain ⟨hkind, -, -⟩ := h
  exact ⟨_, _, rfl, by simp [hkind]⟩

theorem DefaultPhrase.free {kinds : List TokenKind} {v : Option Value} (h : DefaultPhrase ts v)
    (hkinds : .punctuator .equals ∉ kinds) : Free kinds ts := by
  cases h with
  | absent => exact free_nil
  | present hequals _ => exact hequals.free hkinds _

theorem DescriptionPhrase.starts_append {first : TokenKind → Bool} {us : List Token}
    (h : DescriptionPhrase ts) (hus : Starts first us) (hstring : first .string)
    (hblock : first .blockString) : Starts first (ts ++ us) := by
  cases h with
  | absent => exact hus
  | string hkind _ => exact ⟨_, us, rfl, by rwa [hkind]⟩
  | blockString hkind => exact ⟨_, us, rfl, by rwa [hkind]⟩

theorem startsMember_of_isName {kind : TokenKind} (h : kind.isName) : kind.startsMember := by
  cases kind <;> simp_all [TokenKind.isName, TokenKind.startsMember]

theorem InputValuePhrase.starts {v : InputValueDef} (h : InputValuePhrase ts v) :
    Starts TokenKind.startsMember ts := by
  obtain ⟨hd, hkey, -, -, -, -⟩ := h
  exact hd.starts_append ((hkey.starts.mono fun _ => startsMember_of_isName).append _) rfl rfl

theorem FieldPhrase.starts {f : FieldDef} (h : FieldPhrase ts f) :
    Starts TokenKind.startsMember ts := by
  obtain ⟨hd, hkey, -, -, -, -⟩ := h
  exact hd.starts_append ((hkey.starts.mono fun _ => startsMember_of_isName).append _) rfl rfl

theorem EnumValuePhrase.starts {v : EnumValueDef} (h : EnumValuePhrase ts v) :
    Starts TokenKind.startsMember ts := by
  obtain ⟨hd, hname, -, -⟩ := h
  exact hd.starts_append ⟨_, _, rfl, startsMember_of_isName hname⟩ rfl rfl

theorem OperationPhrase.starts {operation : RootOperation × String}
    (h : OperationPhrase ts operation) : Starts TokenKind.isName ts := by
  obtain ⟨hoperation, -, -⟩ := h
  refine ⟨_, _, rfl, ?_⟩
  -- operations are keywords, which are names
  unfold operationOf? at hoperation
  split at hoperation <;> simp_all [TokenKind.isName]

theorem EntryPhrase.starts {e : Entry} (h : EntryPhrase ts e) :
    Starts TokenKind.startsItem ts := by
  cases h with
  | schema hd h =>
    obtain ⟨hkind, -, -⟩ := h
    exact hd.starts_append ⟨_, _, rfl, by simp [hkind, TokenKind.startsItem]⟩ rfl rfl
  | type hd h =>
    refine hd.starts_append ?_ rfl rfl
    cases h <;> exact ⟨_, _, rfl, by simp [*, TokenKind.startsItem]⟩
  | directive hd h =>
    obtain ⟨hkind, -, -, -, -, -, -⟩ := h
    exact hd.starts_append ⟨_, _, rfl, by simp [hkind, TokenKind.startsItem]⟩ rfl rfl
  | extension hd hkind _ =>
    exact hd.starts_append ⟨_, _, rfl, by simp [hkind, TokenKind.startsItem]⟩ rfl rfl

theorem ItemPhrase.starts {e : Entry} (h : ItemPhrase ts e) : Starts TokenKind.startsItem ts := by
  cases h with
  | entry h => exact h.starts
  | schemaExtension hd hkind _ =>
    exact hd.starts_append ⟨_, _, rfl, by simp [hkind, TokenKind.startsItem]⟩ rfl rfl

end

end SchemaModel.Sdl
