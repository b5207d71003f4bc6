import SchemaModel.Proofs.Phrases
import SchemaModel.Sdl.Grammar

/-! # Parsing Phrases

    The parser takes every phrase of the grammar for what it says.

    * **past**: the state once some tokens have been read. A parser that does not concern roots
      moves on in the tokens and may skip usages, and leaves all else as it was.
    * **Clear**: nothing but the grammar can stop a parse.
    * **Takes**: what a parser does with a run of tokens in front of any others. A sequence of
      steps takes one run after the other.
    * **Free**: a phrase that could go on is taken if the next token does not go on with it. -/

namespace SchemaModel.Sdl

open SchemaModel.Sdl.Parser

/-! ## States -/

/-- The state in front of `rest`, with some usages skipped on the way there. -/
def ParserState.past (s : ParserState) (rest : List Token) (usages : List Usage) : ParserState :=
  { s with tokens := rest, skipped := s.skipped ++ usages }

/-- **Clear states**: no malformed lexeme ends the tokens, and unsupported constructs are
    skipped. -/
def ParserState.Clear (s : ParserState) : Prop :=
  s.ending.fault = none ∧ s.policy = .skip

namespace ParserState

variable {s : ParserState} {rest : List Token} {usages : List Usage}

@[simp] theorem past_tokens : (s.past rest usages).tokens = rest := rfl

@[simp] theorem past_ending : (s.past rest usages).ending = s.ending := rfl

@[simp] theorem past_operations : (s.past rest usages).operations = s.operations := rfl

@[simp] theorem past_schemaSeen : (s.past rest usages).schemaSeen = s.schemaSeen := rfl

/-- The usages skipped in two runs are those of the first one, then those of the second one. -/
@[simp] theorem past_past (rest' : List Token) (usages' : List Usage) :
    (s.past rest usages).past rest' usages' = s.past rest' (usages ++ usages') := by
  simp [past]

theorem past_self (h : s.tokens = rest) : s.past rest [] = s := by
  subst h
  simp [past]

end ParserState

/-! ## Runs -/

/-- **Takes**: in front of `rest`, the parser reads exactly the tokens `ts`, gives `a` and skips
    the usages, if its state is clear. -/
def Takes {α : Type} (p : Parser α) (ts : List Token) (a : α) (rest : List Token)
    (usages : List Usage) : Prop :=
  ∀ s : ParserState, s.Clear → s.tokens = ts ++ rest → p s = .ok a (s.past rest usages)

theorem get_bind {β : Type} (f : ParserState → Parser β) (s : ParserState) :
    (get >>= f) s = f s s := rfl

theorem set_bind {β : Type} (t : ParserState) (f : Unit → Parser β) (s : ParserState) :
    (set t >>= f) s = f () t := rfl

theorem nextKind_bind {β : Type} (f : Option TokenKind → Parser β) (s : ParserState) :
    (nextKind >>= f) s = f s.kind? s := rfl

/-- A step over a token ends the parse if a malformed lexeme is next. -/
theorem advance_eq (s : ParserState) :
    advance s =
      match s.tokens.tail, s.ending.fault with
      | [], some fault => .error ⟨.lexical fault, s.ending.span⟩ { s with tokens := [] }
      | ts, _ => .ok () { s with tokens := ts } := by
  show (checkNext { s with tokens := s.tokens.tail }) = _
  unfold checkNext
  rw [get_bind]
  cases s.tokens.tail <;> cases s.ending.fault <;> rfl

/-- No malformed lexeme is next if none ends the tokens. -/
theorem checkNext_of_fault_eq_none {s : ParserState} (h : s.ending.fault = none) :
    checkNext s = .ok () s := by
  unfold checkNext
  rw [get_bind, h]
  cases s.tokens <;> rfl

theorem bind_of_ok {α β : Type} {p : Parser α} {s t : ParserState} {a : α}
    (h : p s = .ok a t) (q : α → Parser β) : (p >>= q) s = q a t := by
  show EStateM.bind p q s = _
  simp only [EStateM.bind, h]

theorem bind_of_error {α β : Type} {p : Parser α} {s t : ParserState} {fault : SourceFault}
    (h : p s = .error fault t) (q : α → Parser β) : (p >>= q) s = .error fault t := by
  show EStateM.bind p q s = _
  simp only [EStateM.bind, h]

theorem map_of_ok {α β : Type} {p : Parser α} {s t : ParserState} {a : α}
    (h : p s = .ok a t) (f : α → β) : (f <$> p) s = .ok (f a) t := by
  show EStateM.map f p s = _
  simp only [EStateM.map, h]

namespace Takes

variable {α β : Type} {p : Parser α} {q : α → Parser β} {ts us rest : List Token} {a : α} {b : β}
  {usages usages' : List Usage}

theorem pure (a : α) (rest : List Token) : Takes (Pure.pure a) [] a rest [] := by
  intro s _ hs
  have hself : s.past rest [] = s := ParserState.past_self hs
  rw [hself]
  rfl

/-- A step in front of the tokens that the next one takes. -/
theorem bind (hp : Takes p ts a (us ++ rest) usages) (hq : Takes (q a) us b rest usages') :
    Takes (p >>= q) (ts ++ us) b rest (usages ++ usages') := by
  intro s hclear hs
  have hfirst := hp s hclear (by rw [hs, List.append_assoc])
  have hsecond := hq (s.past (us ++ rest) usages) hclear rfl
  rw [ParserState.past_past] at hsecond
  rw [bind_of_ok hfirst, hsecond]

theorem map (f : α → β) (hp : Takes p ts a rest usages) :
    Takes (f <$> p) ts (f a) rest usages :=
  fun s hclear hs => map_of_ok (hp s hclear hs) f

/-- A step that meets nothing. -/
theorem bind_quiet (hp : Takes p ts a (us ++ rest) []) (hq : Takes (q a) us b rest usages) :
    Takes (p >>= q) (ts ++ us) b rest usages :=
  hp.bind hq

/-- What a parser takes may be written in another way. -/
theorem congr {ts' : List Token} (hp : Takes p ts a rest usages) (hts : ts = ts')
    (husages : usages = usages') : Takes p ts' a rest usages' := by
  subst hts husages
  exact hp

/-- A step behind all tokens. -/
theorem bind_last (hp : Takes p ts a rest usages) (hq : Takes (q a) [] b rest usages') :
    Takes (p >>= q) ts b rest (usages ++ usages') :=
  have hp' : Takes p ts a ([] ++ rest) usages := hp
  (hp'.bind hq).congr (List.append_nil ts) rfl

theorem bind_pure (f : α → β) (hp : Takes p ts a rest usages) :
    Takes (p >>= fun a => Pure.pure (f a)) ts (f a) rest usages :=
  (hp.bind_last (pure (f a) rest)).congr rfl (List.append_nil usages)

/-! ## Single Tokens -/

variable {token : Token}

theorem advance (token : Token) (rest : List Token) : Takes advance [token] () rest [] := by
  intro s hclear hs
  rw [advance_eq, hs, hclear.1]
  simp [ParserState.past]

/-- A step that depends on the kind of the next token. -/
theorem nextKind_bind {q : Option TokenKind → Parser β} {kind? : Option TokenKind}
    (hkind : (ts ++ rest).head?.map Token.kind = kind?) (hq : Takes (q kind?) ts b rest usages) :
    Takes (nextKind >>= q) ts b rest usages := by
  intro s hclear hs
  have hnext : s.kind? = kind? := by rw [ParserState.kind?, hs, hkind]
  rw [Sdl.nextKind_bind, hnext, hq s hclear hs]

/-- A step that depends on the place of the next token. -/
theorem nextOffset_bind {q : Nat → Parser β}
    (hq : Takes (q token.span.start) (token :: ts) b rest usages) :
    Takes (nextOffset >>= q) (token :: ts) b rest usages := by
  intro s hclear hs
  have hspan : s.span = token.span := by simp [ParserState.span, hs]
  show q s.span.start s = _
  rw [hspan, hq s hclear hs]

/-- A step over the next token, with another one behind it. -/
theorem advance_bind {q : Unit → Parser β} (hq : Takes (q ()) ts b rest usages) :
    Takes (Parser.advance >>= q) (token :: ts) b rest usages :=
  (advance token (ts ++ rest)).bind hq

theorem eat {kind : TokenKind} (h : Lone kind ts) (rest : List Token) :
    Takes (eat kind) ts true rest [] := by
  obtain ⟨token, rfl, rfl⟩ := h
  apply nextKind_bind rfl
  rw [if_pos (by simp)]
  exact advance_bind (pure true rest)

theorem eat_free {kind : TokenKind} (h : Free [kind] rest) :
    Takes (Parser.eat kind) [] false rest [] := by
  apply nextKind_bind rfl
  rw [if_neg]
  · exact pure false rest
  · rw [List.nil_append]
    cases rest with
    | nil => simp
    | cons token rest => simpa using h token rfl

/-- A step after the place of a token that is missing. -/
theorem eat_free_bind {kind : TokenKind} {q : Bool → Parser β} (h : Free [kind] (ts ++ rest))
    (hq : Takes (q false) ts b rest usages) : Takes (Parser.eat kind >>= q) ts b rest usages :=
  (eat_free h).bind hq

/-- A step after a token that may be missing. -/
theorem eat_perhaps_bind {kind : TokenKind} {q : Bool → Parser β} (h : Perhaps kind ts)
    (hfree : Free [kind] (us ++ rest)) (hq : ∀ eaten, Takes (q eaten) us b rest usages) :
    Takes (Parser.eat kind >>= q) (ts ++ us) b rest usages := by
  rcases h with rfl | h
  · exact eat_free_bind hfree (hq false)
  · exact (eat h _).bind (hq true)

theorem expect {kind : TokenKind} (h : Lone kind ts) (rest : List Token) :
    Takes (expect kind) ts () rest [] := by
  obtain ⟨token, rfl, rfl⟩ := h
  apply nextKind_bind rfl
  rw [if_pos (by simp)]
  exact advance token rest

theorem name {key : Name} (h : NamePhrase ts key) (rest : List Token) :
    Takes name ts key rest [] := by
  obtain ⟨hname⟩ := h
  intro s hclear hs
  rw [Parser.name, get_bind, hs]
  simp only [List.cons_append, hname, if_true]
  refine advance_bind ?_ s hclear hs
  exact pure _ rest

theorem meet (usage : Usage) (rest : List Token) : Takes (meet usage) [] () rest [usage] := by
  intro s hclear hs
  rw [List.nil_append] at hs
  subst hs
  rw [Parser.meet, get_bind, hclear.2]
  rfl

end Takes

/-! ## Repetition -/

section

variable {α : Type} {more : ParserState → Bool} {item : Parser α} {s t : ParserState} {n : Nat}
  {first : α}

/-- The runs of a loop behind the first one, which began with `n` tokens left. There are none if it
    took no token. -/
def othersWhile (more : ParserState → Bool) (item : Parser α) (n : Nat) (first : α) :
    Parser (List α) := fun t =>
  if t.tokens.length < n then ((first :: ·) <$> repeatWhile more item) t else .ok [first] t

/-- A loop that goes on is a run of its item with the others behind it. -/
theorem repeatWhile_eq_bind (hmore : more s) :
    repeatWhile more item s = (item >>= othersWhile more item s.tokens.length) s := by
  rw [repeatWhile, if_pos hmore]
  show _ = EStateM.bind item _ s
  unfold EStateM.bind
  cases item s with
  | error fault t => rfl
  | ok first t =>
    simp only [othersWhile, Functor.map, EStateM.map]
    split
    · cases repeatWhile more item t <;> rfl
    · rfl

theorem othersWhile_of_lt (h : t.tokens.length < n) :
    othersWhile more item n first t = ((first :: ·) <$> repeatWhile more item) t := if_pos h

theorem othersWhile_of_not_lt (h : ¬t.tokens.length < n) :
    othersWhile more item n first t = .ok [first] t := if_neg h

end

/-- One more run of a loop whose item takes a token. -/
theorem repeatWhile_step {α : Type} {more : ParserState → Bool} {item : Parser α}
    {s t : ParserState} {a : α} (hmore : more s) (hitem : item s = .ok a t)
    (hlength : t.tokens.length < s.tokens.length) :
    repeatWhile more item s =
      match repeatWhile more item t with
      | .ok others u => .ok (a :: others) u
      | .error fault u => .error fault u := by
  rw [repeatWhile, if_pos hmore, hitem]
  exact if_pos hlength

theorem repeatWhile_stop {α : Type} {more : ParserState → Bool} {item : Parser α}
    {s : ParserState} (hmore : more s = false) : repeatWhile more item s = .ok [] s := by
  rw [repeatWhile, hmore]
  rfl

/-- **Items**: how an item of a loop is taken. It begins with a token that `first` allows, and is
    taken in front of any token that is of none of the given kinds, all of which `first` forbids,
    so that items are taken in front of one another. -/
structure TakesItem {α : Type} (item : Parser α) (phrase : Phrase α) (usages : α → List Usage)
    (first : TokenKind → Bool) (kinds : List TokenKind) : Prop where
  starts : ∀ {ts a}, phrase ts a → Starts first ts
  takes : ∀ {ts a rest}, phrase ts a → Free kinds rest → Takes item ts a rest (usages a)
  apart : ∀ kind ∈ kinds, first kind = false

section

variable {α : Type} {item : Parser α} {phrase : Phrase α} {usages : α → List Usage}
  {first : TokenKind → Bool} {kinds : List TokenKind} {ts rest : List Token} {as : List α}

/-- A loop goes on behind items as it would without them. -/
theorem repeatWhile_items (hitem : TakesItem item phrase usages first kinds)
    {more : ParserState → Bool} {s : ParserState}
    (hmore : ∀ s token us, s.tokens = token :: us → first token.kind → more s)
    (h : Many phrase ts as) (hrest : Free kinds rest) (hclear : s.Clear)
    (hs : s.tokens = ts ++ rest) :
    repeatWhile more item s =
      ((as ++ ·) <$> repeatWhile more item) (s.past rest (as.flatMap usages)) := by
  induction h generalizing s with
  | nil =>
    have hself : s.past rest [] = s := ParserState.past_self hs
    rw [List.flatMap_nil, hself]
    exact (congrFun (id_map _) s).symm
  | @cons ts us a as ha has ih =>
    -- the other items are free to follow this one
    have hfree : Free kinds (us ++ rest) :=
      (has.free fun h => (hitem.starts h).free hitem.apart).append hrest
    have hfirst := hitem.takes ha hfree s hclear (by rw [hs, List.append_assoc])
    have hothers := @ih (s.past (us ++ rest) (usages a)) hclear rfl
    obtain ⟨token, vs, rfl, htoken⟩ := hitem.starts ha
    have hshorter : (s.past (us ++ rest) (usages a)).tokens.length < s.tokens.length := by
      simp only [ParserState.past_tokens, hs, List.length_append, List.length_cons]
      omega
    rw [repeatWhile_step (hmore s token _ hs htoken) hfirst hshorter, hothers,
      ParserState.past_past]
    show _ = EStateM.map _ _ _
    simp only [Functor.map, EStateM.map, List.cons_append, List.flatMap_cons]
    cases repeatWhile more item (s.past rest (usages a ++ as.flatMap usages)) <;> rfl

theorem takes_repeatWhile (hitem : TakesItem item phrase usages first kinds)
    {more : ParserState → Bool}
    (hmore : ∀ s token us, s.tokens = token :: us → first token.kind → more s)
    (hstop : ∀ s, s.tokens = rest → more s = false) (h : Many phrase ts as)
    (hrest : Free kinds rest) :
    Takes (repeatWhile more item) ts as rest (as.flatMap usages) := by
  intro s hclear hs
  rw [repeatWhile_items hitem hmore h hrest hclear hs,
    map_of_ok (repeatWhile_stop (hstop (s.past rest _) rfl)), List.append_nil]

/-- Where an item begins, no punctuator is next that items do not begin with. -/
theorem not_isAt_of_first {close : Punctuator} (hclose : first (.punctuator close) = false)
    {s : ParserState} {token : Token} {us : List Token} (hs : s.tokens = token :: us)
    (hfirst : first token.kind) : !s.isAt close := by
  have hne : token.kind ≠ .punctuator close := by
    rintro heq
    rw [heq, hclose] at hfirst
    cases hfirst
  simpa [ParserState.isAt, ParserState.kind?, hs] using hne

theorem takes_itemsUntil (hitem : TakesItem item phrase usages first kinds) {close : Punctuator}
    (hclose : first (.punctuator close) = false) (hkinds : .punctuator close ∉ kinds)
    {us : List Token} (h : Many phrase ts as) (hus : Lone (.punctuator close) us)
    (rest : List Token) :
    Takes (itemsUntil close item) (ts ++ us) as rest (as.flatMap usages) := by
  have hfree : Free kinds (us ++ rest) := hus.free hkinds rest
  obtain ⟨token, hkind, rfl⟩ := hus
  -- no item begins with the closing punctuator, so that the loop ends there and not before
  have hmore : ∀ (s : ParserState) token us, s.tokens = token :: us → first token.kind →
      !s.isAt close := fun s token us hs hfirst => not_isAt_of_first hclose hs hfirst
  have hstop : ∀ s : ParserState, s.tokens = [token] ++ rest → (!s.isAt close) = false := by
    intro s hs
    simp [ParserState.isAt, ParserState.kind?, hs, hkind]
  have hloop := takes_repeatWhile hitem hmore hstop h hfree
  refine (hloop.bind (Takes.advance_bind (Takes.pure as rest))).congr rfl ?_
  simp

theorem takes_optionalItems (hitem : TakesItem item phrase usages first kinds)
    {openMark closeMark : Punctuator} (hclose : first (.punctuator closeMark) = false)
    (hkinds : .punctuator closeMark ∉ kinds) (h : Enclosed openMark closeMark phrase ts as)
    (hrest : Free [.punctuator openMark] rest) :
    Takes (optionalItems openMark closeMark item) ts as rest (as.flatMap usages) := by
  unfold optionalItems
  cases h with
  | absent =>
    apply Takes.eat_free_bind hrest
    exact Takes.pure [] rest
  | present hopen hitems hend =>
    apply (Takes.eat hopen _).bind
    exact takes_itemsUntil hitem hclose hkinds hitems hend rest

theorem takes_separatedBy {mark : Punctuator}
    (hitem : ∀ {ts a rest}, phrase ts a → Takes item ts a rest (usages a))
    (h : Separated mark phrase ts as) (hrest : Free [.punctuator mark] rest) :
    Takes (separatedBy mark item) ts as rest (as.flatMap usages) := by
  obtain ⟨ha, has⟩ := h
  -- from the second one on, a phrase is an item together with the punctuator in front of it
  have hnext : TakesItem (do advance; item)
      (fun vs b => ∃ ms ws, Lone (.punctuator mark) ms ∧ phrase ws b ∧ vs = ms ++ ws) usages
      (· == .punctuator mark) [] := by
    refine ⟨?_, ?_, by simp⟩
    · rintro _ _ ⟨ms, ws, hms, -, rfl⟩
      exact hms.starts.append ws
    · rintro _ _ _ ⟨_, ws, ⟨token, -, rfl⟩, hws, rfl⟩ -
      exact Takes.advance_bind (hitem hws)
  have hstop : ∀ s : ParserState, s.tokens = rest → s.isAt mark = false := by
    intro s hs
    cases rest with
    | nil => simp [ParserState.isAt, ParserState.kind?, hs]
    | cons token rest => simpa [ParserState.isAt, ParserState.kind?, hs] using hrest token rfl
  have hmore : ∀ (s : ParserState) token us, s.tokens = token :: us →
      (token.kind == .punctuator mark) = true → s.isAt mark = true := by
    intro s token us hs hkind
    simpa [ParserState.isAt, ParserState.kind?, hs] using hkind
  have hothers := takes_repeatWhile hnext hmore hstop has (by simp [Free])
  rw [List.flatMap_cons]
  exact (hitem ha).bind (hothers.bind_pure _)

end

/-! ## Values and Types -/

section

variable {ts rest : List Token}

theorem takes_objectEntry {value : Parser Value} {phrase : Phrase Value}
    (hvalue : ∀ {ts v rest}, phrase ts v → Takes value ts v rest []) {entry : String × Value}
    (h : EntryOf phrase ts entry) (rest : List Token) :
    Takes (objectEntry value) ts entry rest [] := by
  obtain ⟨hkey, hcolon, hv⟩ := h
  apply (Takes.name hkey _).bind
  apply (Takes.expect hcolon _).bind
  exact (hvalue hv).bind_pure _

theorem takesItem_objectEntry {value : Parser Value} {phrase : Phrase Value}
    (hvalue : ∀ {ts v rest}, phrase ts v → Takes value ts v rest []) :
    TakesItem (objectEntry value) (EntryOf phrase) (fun _ => []) TokenKind.isName [] :=
  ⟨EntryOf.starts, fun h _ => takes_objectEntry hvalue h _, by simp⟩

/-- A value of one token is taken at any level. -/
theorem takes_plainValue {levels : Nat} {v : Value} (h : PlainValue ts v) (rest : List Token) :
    Takes (value levels) ts v rest [] := by
  have hadvance : ∀ (token : Token) (v : Value),
      Takes (do advance; return v) [token] v rest [] := fun token v =>
    Takes.advance_bind (Takes.pure v rest)
  intro s hclear hs
  cases h with
  | int hkind | float hkind | trueValue hkind | falseValue hkind | nullValue hkind
  | blockString hkind =>
    unfold value
    rw [get_bind, hs]
    simp only [List.cons_append, hkind]
    exact hadvance _ _ s hclear hs
  | string hkind hcontents =>
    unfold value
    rw [get_bind, hs]
    simp only [List.cons_append, hkind, hcontents]
    exact hadvance _ _ s hclear hs
  | @enum token hname htrue hfalse hnull =>
    -- any name but the three reserved words is the value of an enum
    unfold value
    rw [get_bind, hs]
    simp only [List.cons_append]
    have hrun := hadvance token (.enum token.text) s hclear hs
    cases hkind : token.kind with
    | name => exact hrun
    | keyword word =>
      cases word
      case trueValue => exact absurd hkind htrue
      case falseValue => exact absurd hkind hfalse
      case nullValue => exact absurd hkind hnull
      all_goals exact hrun
    | _ => simp [hkind, TokenKind.isName] at hname

/-- A value is taken at the level at which it is a phrase. -/
theorem takes_value {levels : Nat} {v : Value} (h : ValuePhrase levels ts v) (rest : List Token) :
    Takes (value levels) ts v rest [] := by
  -- the items of a list or an object are values of one level less
  induction levels generalizing ts v rest with
  | zero => exact takes_plainValue h rest
  | succ levels ih =>
    cases h with
    | plain h => exact takes_plainValue h rest
    | list hopen hitems hclose =>
      obtain ⟨token, hkind, rfl⟩ := hopen
      have hitem : TakesItem (value levels) (ValuePhrase levels) (fun _ => [])
          TokenKind.startsValue [] :=
        ⟨ValuePhrase.starts, fun h _ => ih h _, by simp⟩
      have hlist := takes_itemsUntil hitem rfl (by simp) hitems hclose rest
      intro s hclear hs
      unfold value
      rw [get_bind, hs]
      simp only [List.cons_append, hkind]
      refine Takes.congr (Takes.advance_bind (hlist.bind_pure _)) rfl ?_ s hclear hs
      simp
    | object hopen hentries hclose =>
      obtain ⟨token, hkind, rfl⟩ := hopen
      have hentry := takesItem_objectEntry fun h => ih h _
      have hobject := takes_itemsUntil hentry rfl (by simp) hentries hclose rest
      intro s hclear hs
      unfold value
      rw [get_bind, hs]
      simp only [List.cons_append, hkind]
      refine Takes.congr (Takes.advance_bind (hobject.bind_pure _)) rfl ?_ s hclear hs
      simp

theorem takes_bang (type : TypeRef String) (h : Free [.punctuator .bang] rest) :
    Takes (bang type) [] type rest [] :=
  Takes.eat_free_bind h (Takes.pure type rest)

theorem takes_bang_nonNull (type : TypeRef String) (h : Lone (.punctuator .bang) ts)
    (rest : List Token) : Takes (bang type) ts (.nonNull type) rest [] :=
  (Takes.eat h rest).bind_last (Takes.pure _ rest)

/-- A type is taken, bang included, if the types of one level less are. -/
theorem takes_typeRef_of_inner {levels : Nat} {inner : Phrase (TypeRef String)}
    (hinner : ∀ {us rest item}, inner us item → Free [.punctuator .bang] rest →
      ∃ below, levels = below + 1 ∧ Takes (typeRef below) us item rest [])
    {type : TypeRef String} (h : Banged (BareType inner) ts type)
    (hrest : Free [.punctuator .bang] rest) : Takes (typeRef levels) ts type rest [] := by
  -- a type without its bang, in front of whatever the check for a bang takes
  have hbare : ∀ {ts us bare}, BareType inner ts bare → Takes (bang bare) us type rest [] →
      Takes (typeRef levels) (ts ++ us) type rest [] := by
    intro ts us bare h hbang s hclear hs
    cases h with
    | named hname =>
      have hrun := (Takes.name hname _).bind (q := fun leaf => bang (.named leaf.text)) hbang
      obtain ⟨token, vs, rfl, htoken⟩ := hname.starts
      have hkind : token.kind ≠ .punctuator .bracketOpen := by
        intro heq
        simp [heq, TokenKind.isName] at htoken
      unfold typeRef
      rw [get_bind, hs]
      simp only [List.cons_append, hkind, htoken, if_false, if_true]
      exact hrun s hclear hs
    | @list os is cs item hopen hitem hclose =>
      obtain ⟨below, rfl, hitem⟩ := hinner hitem (hclose.free (by simp) (us ++ rest))
      rw [← List.append_assoc] at hitem
      obtain ⟨token, hkind, rfl⟩ := hopen
      have hrun : Takes (do
          Parser.advance
          let item ← typeRef below
          expectMark .bracketClose
          bang (.list item)) ([token] ++ (is ++ (cs ++ us))) type rest [] := by
        apply (Takes.advance token _).bind
        apply hitem.bind
        exact (Takes.expect hclose _).bind hbang
      unfold typeRef
      rw [get_bind, hs]
      simp only [List.cons_append, hkind, if_true]
      exact hrun.congr (by simp) rfl s hclear hs
  cases h with
  | plain h => simpa using hbare h (takes_bang type hrest)
  | nonNull h hbang => exact hbare h (takes_bang_nonNull _ hbang rest)

/-- A type is taken at the level at which it is a phrase, unless a bang follows. -/
theorem takes_typeRef {levels : Nat} {type : TypeRef String} (h : TypeRefPhrase levels ts type)
    (hrest : Free [.punctuator .bang] rest) : Takes (typeRef levels) ts type rest [] := by
  induction levels generalizing ts type rest with
  | zero => exact takes_typeRef_of_inner (fun h => h.elim) h hrest
  | succ levels ih =>
    exact takes_typeRef_of_inner (fun h hrest => ⟨levels, rfl, ih h hrest⟩) h hrest

end

/-! ## Descriptions and Directives -/

section

variable {ts rest : List Token}

theorem takes_description (h : DescriptionPhrase ts) (hrest : Free [.string, .blockString] rest) :
    Takes description ts () rest [] := by
  apply Takes.nextKind_bind rfl
  cases h with
  | absent =>
    cases rest with
    | nil => exact Takes.pure () []
    | cons token rest =>
      have hkind := hrest token rfl
      simp only [List.mem_cons, List.not_mem_nil, or_false, not_or] at hkind
      simp only [List.nil_append, List.head?_cons, Option.map_some]
      split
      · simp_all
      · simp_all
      · exact Takes.pure () _
  | @string token contents hkind hcontents =>
    simp only [List.cons_append, List.head?_cons, Option.map_some, hkind]
    have hstring : PlainValue [token] (.string (String.ofList contents)) := .string hkind hcontents
    exact (takes_plainValue hstring rest).map fun _ => ()
  | @blockString token hkind =>
    simp only [List.cons_append, List.head?_cons, Option.map_some, hkind]
    exact Takes.advance token rest

theorem directiveUsages_cons (d : Name) (ds : List Name) :
    directiveUsages (d :: ds) = directiveUsages [d] ++ directiveUsages ds := by
  unfold directiveUsages
  by_cases h : isCoreDirective d.text <;> simp [h]

theorem flatMap_directiveUsages (ds : List Name) :
    (ds.flatMap fun d => directiveUsages [d]) = directiveUsages ds := by
  induction ds with
  | nil => rfl
  | cons d ds ih => rw [List.flatMap_cons, ih, directiveUsages_cons d ds]

theorem takes_directive {d : Name} (h : DirectivePhrase ts d)
    (hrest : Free [.punctuator .parenOpen] rest) :
    Takes directive ts d rest (directiveUsages [d]) := by
  cases h with | @intro token ks as key args hkind hkey hargs
  have hentry : TakesItem (objectEntry (value nestingLimit))
      (EntryOf (ValuePhrase nestingLimit)) (fun _ => []) TokenKind.isName [] :=
    takesItem_objectEntry fun h => takes_value h _
  have hoptional := takes_optionalItems hentry rfl (by simp) hargs hrest
  -- nothing is met among the arguments
  have hnone : (args.flatMap fun _ => ([] : List Usage)) = [] := by simp
  rw [hnone] at hoptional
  refine Takes.nextOffset_bind (Takes.advance_bind ?_)
  by_cases hcore : isCoreDirective key.text
  · have husages : directiveUsages [⟨key.text, token.span.start⟩] = [] := by
      simp [directiveUsages, hcore]
    rw [husages]
    apply (Takes.name hkey _).bind
    simp only [hcore, if_true]
    exact hoptional.bind_pure _
  · have husages : directiveUsages [⟨key.text, token.span.start⟩] =
        [⟨.directive, key.text, token.span.start⟩] := by
      simp [directiveUsages, hcore]
    rw [husages]
    apply (Takes.name hkey _).bind
    simp only [hcore]
    apply hoptional.bind_last
    exact (Takes.meet _ rest).bind_pure _

/-- Directives are taken unless one more follows, or arguments of the last one. -/
theorem takes_directives {ds : List Name} (h : Many DirectivePhrase ts ds)
    (hrest : Free [.punctuator .atSign, .punctuator .parenOpen] rest) :
    Takes directives ts ds rest (directiveUsages ds) := by
  have hitem : TakesItem directive DirectivePhrase (fun d => directiveUsages [d])
      (· == .punctuator .atSign) [.punctuator .parenOpen] :=
    ⟨DirectivePhrase.starts, takes_directive, by simp⟩
  rw [← flatMap_directiveUsages]
  refine takes_repeatWhile hitem ?_ ?_ h (hrest.subset (by simp))
  · intro s token us hs hkind
    simpa [ParserState.isAt, ParserState.kind?, hs] using hkind
  · intro s hs
    cases rest with
    | nil => simp [ParserState.isAt, ParserState.kind?, hs]
    | cons token rest =>
      have hkind := hrest token rfl
      simp_all [ParserState.isAt, ParserState.kind?]

end

/-! ## Members -/

section

variable {ts rest : List Token}

theorem Many.free_directives {kinds : List TokenKind} {ds : List Name}
    (h : Many DirectivePhrase ts ds) (hkinds : .punctuator .atSign ∉ kinds) : Free kinds ts :=
  h.free fun hd => hd.starts.free fun kind hmem => by
    simpa using fun heq : kind = .punctuator .atSign => hkinds (heq ▸ hmem)

theorem NamePhrase.free {kinds : List TokenKind} {key : Name} (h : NamePhrase ts key)
    (hkinds : ∀ kind ∈ kinds, kind.isName = false) (us vs : List Token) :
    Free kinds (ts ++ us ++ vs) :=
  ((h.starts.append us).append vs).free hkinds

/-- A default is taken unless an equals sign follows in its place. -/
theorem takes_default_bind {β : Type} {v : Option Value} {q : Option Value → Parser β}
    {us : List Token} {b : β} {usages : List Usage} (h : DefaultPhrase ts v)
    (hfree : Free [.punctuator .equals] (us ++ rest)) (hq : Takes (q v) us b rest usages) :
    Takes (do
      if ← eatMark .equals then some <$> value nestingLimit >>= q else Pure.pure none >>= q)
      (ts ++ us) b rest usages := by
  cases h with
  | absent => exact Takes.eat_free_bind hfree hq
  | present hequals hv =>
    rw [List.append_assoc]
    apply (Takes.eat hequals _).bind
    rw [if_pos rfl]
    exact ((takes_value hv _).map some).bind hq

theorem takes_inputValueDef {v : InputValueDef} (h : InputValuePhrase ts v)
    (hrest : Free [.punctuator .bang, .punctuator .equals, .punctuator .atSign,
      .punctuator .parenOpen] rest) :
    Takes inputValueDef ts v rest v.usages := by
  obtain ⟨hd, hkey, hcolon, htype, hdefault, hdirectives⟩ := h
  -- what may not follow each part is ruled out by the parts behind it or by the rest
  have hend : Free [.punctuator .atSign, .punctuator .parenOpen] rest := hrest.subset (by simp)
  have hequals : Free [.punctuator .equals] _ :=
    (hdirectives.free_directives (by simp)).append (hrest.subset (by simp))
  have hbang : Free [.punctuator .bang] _ :=
    ((hdefault.free (by simp)).append (hdirectives.free_directives (by simp))).append
      (hrest.subset (by simp))
  apply (takes_description hd (hkey.free (by simp [TokenKind.isName]) _ _)).bind
  apply (Takes.name hkey _).bind
  apply (Takes.expect hcolon _).bind
  apply (takes_typeRef htype hbang).bind
  apply takes_default_bind hdefault hequals
  exact (takes_directives hdirectives hend).bind_pure _

theorem takesItem_inputValueDef :
    TakesItem inputValueDef InputValuePhrase InputValueDef.usages TokenKind.startsMember
      [.punctuator .bang, .punctuator .equals, .punctuator .atSign, .punctuator .parenOpen] :=
  ⟨InputValuePhrase.starts, takes_inputValueDef, by simp [TokenKind.startsMember]⟩

theorem takes_argumentDefs {args : List InputValueDef}
    (h : Enclosed .parenOpen .parenClose InputValuePhrase ts args)
    (hrest : Free [.punctuator .parenOpen] rest) :
    Takes argumentDefs ts args rest (args.flatMap InputValueDef.usages) :=
  takes_optionalItems takesItem_inputValueDef rfl (by simp) h hrest

theorem takes_fieldDef {f : FieldDef} (h : FieldPhrase ts f)
    (hrest : Free [.punctuator .bang, .punctuator .atSign, .punctuator .parenOpen] rest) :
    Takes fieldDef ts f rest f.usages := by
  obtain ⟨hd, hkey, hargs, hcolon, htype, hdirectives⟩ := h
  have hend : Free [.punctuator .atSign, .punctuator .parenOpen] rest := hrest.subset (by simp)
  have hbang : Free [.punctuator .bang] _ :=
    (hdirectives.free_directives (by simp)).append (hrest.subset (by simp))
  apply (takes_description hd (hkey.free (by simp [TokenKind.isName]) _ _)).bind
  apply (Takes.name hkey _).bind
  apply (takes_argumentDefs hargs (((hcolon.starts.append _).append _).free (by simp))).bind
  apply (Takes.expect hcolon _).bind
  apply (takes_typeRef htype hbang).bind
  exact (takes_directives hdirectives hend).bind_pure _

theorem takes_fieldDefs {fields : List FieldDef}
    (h : Enclosed .braceOpen .braceClose FieldPhrase ts fields)
    (hrest : Free [.punctuator .braceOpen] rest) :
    Takes fieldDefs ts fields rest (fields.flatMap FieldDef.usages) := by
  have hitem : TakesItem fieldDef FieldPhrase FieldDef.usages TokenKind.startsMember
      [.punctuator .bang, .punctuator .atSign, .punctuator .parenOpen] :=
    ⟨FieldPhrase.starts, takes_fieldDef, by simp [TokenKind.startsMember]⟩
  exact takes_optionalItems hitem rfl (by simp) h hrest

theorem takes_enumValueDef {v : EnumValueDef} (h : EnumValuePhrase ts v)
    (hrest : Free [.punctuator .atSign, .punctuator .parenOpen] rest) :
    Takes enumValueDef ts v rest (directiveUsages v.directives) := by
  cases h with | @intro ds us token directives hd hname hreserved hdirectives
  have hkey : NamePhrase [token] ⟨token.text, token.span.start⟩ := .intro hname
  apply (takes_description hd (hkey.free (by simp [TokenKind.isName]) us rest)).bind
  apply Takes.nextKind_bind rfl
  simp only [List.cons_append, List.head?_cons, Option.map_some]
  split
  · simp_all [TokenKind.isReserved]
  · simp_all [TokenKind.isReserved]
  · simp_all [TokenKind.isReserved]
  · apply (Takes.name hkey _).bind
    exact (takes_directives hdirectives hrest).bind_pure _

theorem takesItem_enumValueDef :
    TakesItem enumValueDef EnumValuePhrase (fun value => directiveUsages value.directives)
      TokenKind.startsMember [.punctuator .atSign, .punctuator .parenOpen] :=
  ⟨EnumValuePhrase.starts, takes_enumValueDef, by simp [TokenKind.startsMember]⟩

/-- Names are taken with or without their punctuator in front of the first one. -/
theorem takes_ledNames {mark : Punctuator} {item : Parser Name} {usages : Name → List Usage}
    (hitem : ∀ {ts key rest}, NamePhrase ts key → Takes item ts key rest (usages key))
    {us : List Token} {names : List Name} (hlead : Perhaps (.punctuator mark) ts)
    (h : Separated mark NamePhrase us names) (hrest : Free [.punctuator mark] rest) :
    Takes (do
      let _ ← eatMark mark
      separatedBy mark item) (ts ++ us) names rest (names.flatMap usages) := by
  have hnames := takes_separatedBy hitem h hrest
  obtain ⟨hfirst, -⟩ := h
  exact Takes.eat_perhaps_bind hlead (hfirst.free (by simp [TokenKind.isName]) _ rest)
    fun _ => hnames

theorem takes_implementedInterfaces {interfaces : List Name} (h : ImplementsPhrase ts interfaces)
    (hrest : Free [.keyword .implements, .punctuator .ampersand] rest) :
    Takes implementedInterfaces ts interfaces rest
      (interfaces.map fun name => ⟨.implements, name.text, name.offset⟩) := by
  have hitem : ∀ {ts key rest}, NamePhrase ts key → Takes (do
      let interface ← Parser.name
      Parser.meet ⟨.implements, interface.text, interface.offset⟩
      return interface) ts key rest [⟨.implements, key.text, key.offset⟩] := by
    intro ts key rest hkey
    apply (Takes.name hkey _).bind_last
    exact (Takes.meet _ rest).bind_pure _
  have husages : (interfaces.map fun name => (⟨.implements, name.text, name.offset⟩ : Usage)) =
      interfaces.flatMap fun name => [⟨.implements, name.text, name.offset⟩] :=
    List.map_eq_flatMap
  rw [husages]
  cases h with
  | absent => exact Takes.eat_free_bind (hrest.subset (by simp)) (Takes.pure [] rest)
  | present himplements hampersand hnames =>
    apply (Takes.eat himplements _).bind
    exact takes_ledNames hitem hampersand hnames (hrest.subset (by simp))

end

/-! ## Definitions -/

/-- What a definition could go on with, and what must therefore not follow it. -/
def continuations : List TokenKind :=
  [.keyword .implements, .punctuator .ampersand, .punctuator .atSign, .punctuator .parenOpen,
   .punctuator .braceOpen, .punctuator .equals, .punctuator .pipe]

section

variable {ts rest : List Token} {d : Definition}

/-- Members in braces are free of what directives or a name in front of them go on with. -/
theorem Enclosed.free_directives {α : Type} {phrase : Phrase α} {as : List α}
    (h : Enclosed .braceOpen .braceClose phrase ts as) (hrest : Free continuations rest) :
    Free [.punctuator .atSign, .punctuator .parenOpen] (ts ++ rest) :=
  (h.free (by simp)).append (hrest.subset (by simp [continuations]))

/-- What stands behind the interfaces of a type does not go on with them. -/
theorem Enclosed.free_interfaces {α : Type} {phrase : Phrase α} {as : List α} {us : List Token}
    {directives : List Name} (hdirectives : Many DirectivePhrase us directives)
    (h : Enclosed .braceOpen .braceClose phrase ts as) (hrest : Free continuations rest) :
    Free [.keyword .implements, .punctuator .ampersand] (us ++ ts ++ rest) :=
  ((hdirectives.free_directives (by simp)).append (h.free (by simp))).append
    (hrest.subset (by simp [continuations]))

/-- What an object and an interface have in common, and what is made of it. -/
def fieldedDefinition
    (q : Nat → Name → List Name → List Name → List FieldDef → Parser Definition) :
    Parser Definition := do
  let offset ← nextOffset
  advance
  let key ← name
  let interfaces ← implementedInterfaces
  let directives ← Sdl.directives
  q offset key interfaces directives (← fieldDefs)

theorem objectDefinition_eq :
    objectDefinition = fieldedDefinition fun offset key interfaces directives fields =>
      return ⟨offset, key.text, directives, .object interfaces fields⟩ := rfl

theorem interfaceDefinition_eq :
    interfaceDefinition = fieldedDefinition fun offset key interfaces directives fields => do
      meet ⟨.interface, key.text, offset⟩
      return ⟨offset, key.text, directives, .interface interfaces fields⟩ := rfl

theorem takes_fieldedDefinition {token : Token} {ks is us fs : List Token} {key : Name}
    {interfaces directives : List Name} {fields : List FieldDef} {usages : List Usage}
    {q : Nat → Name → List Name → List Name → List FieldDef → Parser Definition}
    (hkey : NamePhrase ks key) (hinterfaces : ImplementsPhrase is interfaces)
    (hdirectives : Many DirectivePhrase us directives)
    (hfields : Enclosed .braceOpen .braceClose FieldPhrase fs fields)
    (hrest : Free continuations rest)
    (hq : Takes (q token.span.start key interfaces directives fields) [] d rest usages) :
    Takes (fieldedDefinition q) (token :: (ks ++ (is ++ (us ++ fs)))) d rest
      (interfaces.map (fun name => ⟨.implements, name.text, name.offset⟩) ++
        (directiveUsages directives ++ (fields.flatMap FieldDef.usages ++ usages))) := by
  have himplements := hfields.free_interfaces hdirectives hrest
  refine Takes.nextOffset_bind (Takes.advance_bind ?_)
  apply (Takes.name hkey _).bind
  apply (takes_implementedInterfaces hinterfaces himplements).bind
  apply (takes_directives hdirectives (hfields.free_directives hrest)).bind
  exact (takes_fieldDefs hfields (hrest.subset (by simp [continuations]))).bind_last hq

theorem takes_pipedNames {names : List Name} (h : PipedPhrase ts names)
    (hrest : Free [.punctuator .pipe] rest) : Takes pipedNames ts names rest [] := by
  obtain ⟨hlead, hnames⟩ := h
  have hitem : ∀ {ts key rest}, NamePhrase ts key → Takes Parser.name ts key rest [] :=
    fun h => Takes.name h _
  exact (takes_ledNames hitem hlead hnames hrest).congr rfl (by simp)

/-- The members of a union are taken unless an equals sign or a pipe follows. -/
theorem takes_members_bind {β : Type} {members : List Name} {q : List Name → Parser β} {b : β}
    {usages : List Usage} (h : MembersPhrase ts members)
    (hrest : Free [.punctuator .equals, .punctuator .pipe] rest)
    (hq : Takes (q members) [] b rest usages) :
    Takes (do if ← eatMark .equals then pipedNames >>= q else Pure.pure [] >>= q) ts b rest
      usages := by
  cases h with
  | absent => exact Takes.eat_free_bind (hrest.subset (by simp)) hq
  | present hequals hmembers =>
    apply (Takes.eat hequals _).bind
    rw [if_pos rfl]
    exact (takes_pipedNames hmembers (hrest.subset (by simp))).bind_last hq

theorem MembersPhrase.free {kinds : List TokenKind} {members : List Name}
    (h : MembersPhrase ts members) (hkinds : .punctuator .equals ∉ kinds) : Free kinds ts := by
  cases h with
  | absent => exact free_nil
  | present hequals _ => exact hequals.free hkinds _

theorem takes_unionDefinition {token : Token} {ks us ms : List Token} {key : Name}
    {directives members : List Name} (hkey : NamePhrase ks key)
    (hdirectives : Many DirectivePhrase us directives) (hmembers : MembersPhrase ms members)
    (hrest : Free continuations rest) :
    Takes unionDefinition (token :: (ks ++ (us ++ ms)))
      ⟨token.span.start, key.text, directives, .union members⟩ rest
      (directiveUsages directives ++ [⟨.union, key.text, token.span.start⟩]) := by
  have hend : Free [.punctuator .atSign, .punctuator .parenOpen] (ms ++ rest) :=
    (hmembers.free (by simp)).append (hrest.subset (by simp [continuations]))
  refine Takes.nextOffset_bind (Takes.advance_bind ?_)
  apply (Takes.name hkey _).bind
  apply (takes_directives hdirectives hend).bind
  apply takes_members_bind hmembers (hrest.subset (by simp [continuations]))
  exact (Takes.meet _ rest).bind_pure _

/-- A definition that has nothing but members in braces. -/
def bracedDefinition {α : Type} (item : Parser α) (body : List α → Body) : Parser Definition := do
  let offset ← nextOffset
  advance
  let key ← name
  let directives ← Sdl.directives
  let members ← optionalItems .braceOpen .braceClose item
  return ⟨offset, key.text, directives, body members⟩

theorem enumDefinition_eq : enumDefinition = bracedDefinition enumValueDef .enum := rfl

theorem inputDefinition_eq : inputDefinition = bracedDefinition inputValueDef .input := rfl

theorem takes_bracedDefinition {α : Type} {item : Parser α} {phrase : Phrase α}
    {usages : α → List Usage} {kinds : List TokenKind} {token : Token} {ks us ms : List Token}
    {key : Name} {directives : List Name} {members : List α}
    (hitem : TakesItem item phrase usages TokenKind.startsMember kinds)
    (hkinds : .punctuator .braceClose ∉ kinds) (body : List α → Body) (hkey : NamePhrase ks key)
    (hdirectives : Many DirectivePhrase us directives)
    (hmembers : Enclosed .braceOpen .braceClose phrase ms members)
    (hrest : Free continuations rest) :
    Takes (bracedDefinition item body) (token :: (ks ++ (us ++ ms)))
      ⟨token.span.start, key.text, directives, body members⟩ rest
      (directiveUsages directives ++ members.flatMap usages) := by
  have hoptional := takes_optionalItems hitem rfl hkinds hmembers
    (hrest.subset (by simp [continuations]))
  refine Takes.nextOffset_bind (Takes.advance_bind ?_)
  apply (Takes.name hkey _).bind
  apply (takes_directives hdirectives (hmembers.free_directives hrest)).bind
  exact hoptional.bind_pure _

theorem takes_scalarDefinition {token : Token} {ks us : List Token} {key : Name}
    {directives : List Name} (hkey : NamePhrase ks key)
    (hdirectives : Many DirectivePhrase us directives) (hrest : Free continuations rest) :
    Takes scalarDefinition (token :: (ks ++ us))
      ⟨token.span.start, key.text, directives, .scalar⟩ rest (directiveUsages directives) := by
  refine Takes.nextOffset_bind (Takes.advance_bind ?_)
  apply (Takes.name hkey _).bind
  exact (takes_directives hdirectives (hrest.subset (by simp [continuations]))).bind_pure _

/-- **Named types**: the keyword of a type selects a parser that takes it and meets its usages. -/
theorem takes_typeDefinition (h : TypePhrase ts d) (hrest : Free continuations rest) :
    ∃ token us p, ts = token :: us ∧ extensibleDefinition? token.kind = some p ∧
      Takes p ts d rest d.usages := by
  cases h with
  | object hkind hkey hinterfaces hdirectives hfields =>
    refine ⟨_, _, objectDefinition, rfl, by rw [hkind]; rfl, ?_⟩
    rw [objectDefinition_eq]
    refine (takes_fieldedDefinition hkey hinterfaces hdirectives hfields hrest
      (Takes.pure _ rest)).congr rfl ?_
    simp [Definition.usages, Body.interfaces, Body.memberUsages, Body.construct?]
  | interface hkind hkey hinterfaces hdirectives hfields =>
    refine ⟨_, _, interfaceDefinition, rfl, by rw [hkind]; rfl, ?_⟩
    rw [interfaceDefinition_eq]
    refine (takes_fieldedDefinition hkey hinterfaces hdirectives hfields hrest
      ((Takes.meet _ rest).bind_pure _)).congr rfl ?_
    simp [Definition.usages, Body.interfaces, Body.memberUsages, Body.construct?]
  | union hkind hkey hdirectives hmembers =>
    refine ⟨_, _, unionDefinition, rfl, by rw [hkind]; rfl, ?_⟩
    refine (takes_unionDefinition hkey hdirectives hmembers hrest).congr rfl ?_
    simp [Definition.usages, Body.interfaces, Body.memberUsages, Body.construct?]
  | enum hkind hkey hdirectives hvalues =>
    refine ⟨_, _, enumDefinition, rfl, by rw [hkind]; rfl, ?_⟩
    rw [enumDefinition_eq]
    refine (takes_bracedDefinition takesItem_enumValueDef (by simp) .enum hkey hdirectives hvalues
      hrest).congr rfl ?_
    simp [Definition.usages, Body.interfaces, Body.memberUsages, Body.construct?]
  | input hkind hkey hdirectives hfields =>
    refine ⟨_, _, inputDefinition, rfl, by rw [hkind]; rfl, ?_⟩
    rw [inputDefinition_eq]
    refine (takes_bracedDefinition takesItem_inputValueDef (by simp) .input hkey hdirectives hfields
      hrest).congr rfl ?_
    simp [Definition.usages, Body.interfaces, Body.memberUsages, Body.construct?]
  | scalar hkind hkey hdirectives =>
    refine ⟨_, _, scalarDefinition, rfl, by rw [hkind]; rfl, ?_⟩
    refine (takes_scalarDefinition hkey hdirectives hrest).congr rfl ?_
    simp [Definition.usages, Body.interfaces, Body.memberUsages, Body.construct?]

theorem takes_directiveDefinition (h : DirectiveDefinitionPhrase ts d)
    (hrest : Free continuations rest) : Takes directiveDefinition ts d rest d.usages := by
  cases h with
    | @intro token ms ks as rs os ls key args locations hkind hat hkey hargs hrep hon hlocs
  have hparen : Free [.punctuator .parenOpen] (rs ++ (os ++ ls) ++ rest) := by
    rw [List.append_assoc]
    exact (hrep.free (by simp)).append (((hon.starts.append _).append _).free (by simp))
  have husages : Definition.usages
      ⟨token.span.start, key.text, [], .directive args locations⟩ =
      args.flatMap InputValueDef.usages ++
        [⟨.directiveDefinition, key.text, token.span.start⟩] := by
    simp [Definition.usages, Body.interfaces, Body.memberUsages, Body.construct?, directiveUsages]
  rw [husages]
  refine Takes.nextOffset_bind (Takes.advance_bind ?_)
  apply (Takes.expect hat _).bind
  apply (Takes.name hkey _).bind
  apply (takes_argumentDefs hargs hparen).bind
  apply Takes.eat_perhaps_bind hrep (((hon.starts.append _).append _).free (by simp))
  intro _
  apply (Takes.expect hon _).bind
  apply (takes_pipedNames hlocs (hrest.subset (by simp [continuations]))).bind_last
  exact (Takes.meet _ rest).bind_pure _

/-- What is done once the definition inside an extension has been read from the state `before`. -/
def recordExtension (before : ParserState) (offset : Nat) (extended : Definition) :
    Parser Entry := do
  modify fun s => { s with
    skipped := before.skipped, operations := before.operations, schemaSeen := before.schemaSeen }
  meet ⟨.extension, extended.name, offset⟩
  return .extension offset extended

/-- What is read of an extension behind its keyword, which lies at `offset`. -/
def extendedEntry (offset : Nat) : Parser Entry := do
  let before ← get
  match before.kind?.bind extensibleDefinition? with
  | none => unexpected .extendedDefinition
  | some definition =>
    set { before with schemaSeen := false }
    let extended ← definition
    recordExtension before offset extended

theorem extension_eq :
    extension = (do
      let offset ← nextOffset
      advance
      extendedEntry offset) := rfl

/-- Of what was skipped inside an extension nothing remains. -/
theorem recordExtension_eq_ok {before s : ParserState} (hpolicy : s.policy = .skip) (offset : Nat)
    (extended : Definition) :
    recordExtension before offset extended s =
      .ok (.extension offset extended) { s with
        skipped := before.skipped ++ [⟨.extension, extended.name, offset⟩]
        operations := before.operations
        schemaSeen := before.schemaSeen } := by
  obtain ⟨tokens, ending, policy, skipped, operations, schemaSeen⟩ := s
  obtain rfl : policy = .skip := hpolicy
  rfl

/-- An extension is taken like the type that it extends, but of what is skipped only the extension
    itself remains. -/
theorem takes_extension {token : Token} (h : TypePhrase ts d) (hrest : Free continuations rest) :
    Takes extension (token :: ts) (.extension token.span.start d) rest
      [⟨.extension, d.name, token.span.start⟩] := by
  obtain ⟨first, us, p, rfl, hparser, hp⟩ := takes_typeDefinition h hrest
  rw [extension_eq]
  refine Takes.nextOffset_bind (Takes.advance_bind ?_)
  intro s hclear hs
  have hkind : s.kind? = some first.kind := by simp [ParserState.kind?, hs]
  -- the definition is parsed as if no schema block had been seen, which it does not look at
  have hrun := hp { s with schemaSeen := false } hclear hs
  unfold extendedEntry
  rw [get_bind, hkind, Option.bind_some, hparser]
  dsimp only
  rw [set_bind, bind_of_ok hrun, recordExtension_eq_ok (by exact hclear.2)]
  rfl

end

/-! ## Schema Blocks -/

/-- The state once operations have been given root types. -/
def ParserState.giving (s : ParserState) (operations : List (RootOperation × String)) :
    ParserState :=
  { s with operations := (operations.map Prod.fst).reverse ++ s.operations }

theorem ParserState.giving_past (s : ParserState) (operations : List (RootOperation × String))
    (rest : List Token) (usages : List Usage) :
    (s.giving operations).past rest usages = (s.past rest usages).giving operations := rfl

theorem fresh_cons {granted : List RootOperation} {operation : RootOperation × String}
    {operations : List (RootOperation × String)} :
    Fresh granted (operation :: operations) ↔
      operation.1 ∉ granted ∧ Fresh (operation.1 :: granted) operations := by
  simp only [Fresh, List.map_cons, List.nodup_cons, List.mem_map, List.mem_cons, not_or, not_exists,
    not_and]
  grind

/-- **Gives if**: a run gives `a` in the state `t` if the condition holds, and stops at a fault if
    it does not. -/
structure GivesIf {α : Type} (good : Prop) (run : EStateM.Result SourceFault ParserState α) (a : α)
    (t : ParserState) : Prop where
  gives : good → run = .ok a t
  stops : ¬good → ∃ fault u, run = .error fault u

namespace GivesIf

variable {α β : Type} {good : Prop} {run : EStateM.Result SourceFault ParserState α}
  {p : Parser α} {q : α → Parser β} {s t u : ParserState} {a : α} {b : β}

theorem of_ok (h : run = .ok a t) (hgood : good) : GivesIf good run a t :=
  ⟨fun _ => h, fun hnot => absurd hgood hnot⟩

/-- The condition is that of the second step. -/
theorem bind_left (hp : p s = .ok a t) (hq : GivesIf good (q a t) b u) :
    GivesIf good ((p >>= q) s) b u := by
  rwa [bind_of_ok hp]

/-- The condition is that of the first step. -/
theorem bind_right (hp : GivesIf good (p s) a t) (hq : q a t = .ok b u) :
    GivesIf good ((p >>= q) s) b u := by
  refine ⟨fun h => (bind_of_ok (hp.gives h) q).trans hq, fun h => ?_⟩
  obtain ⟨fault, v, hrun⟩ := hp.stops h
  exact ⟨fault, v, bind_of_error hrun q⟩

theorem map (f : α → β) (hp : GivesIf good (p s) a t) : GivesIf good ((f <$> p) s) (f a) t := by
  rw [map_eq_pure_bind]
  exact hp.bind_right rfl

/-- The condition may be written in another way. -/
theorem congr {other : Prop} (h : GivesIf good run a t) (hiff : other ↔ good) :
    GivesIf other run a t :=
  ⟨fun hother => h.gives (hiff.mp hother), fun hnot => h.stops fun hgood => hnot (hiff.mpr hgood)⟩

end GivesIf

section

variable {s : ParserState} {ts rest : List Token}

/-- An operation is taken if it has no root type yet. -/
theorem rootOperation_givesIf {operation : RootOperation × String}
    (h : OperationPhrase ts operation) (hclear : s.Clear) (hs : s.tokens = ts ++ rest) :
    GivesIf (operation.1 ∉ s.operations) (rootOperation s) operation
      ((s.past rest []).giving [operation]) := by
  cases h with | @intro token us vs operation type hoperation hcolon htype
  have hkind : s.kind?.bind operationOf? = some operation := by
    simp [ParserState.kind?, hs, hoperation]
  have hfirst := Takes.advance token (us ++ vs ++ rest) s hclear hs
  have hsecond := Takes.expect hcolon (vs ++ rest) (s.past (us ++ vs ++ rest) []) hclear (by simp)
  have hthird := Takes.name htype rest (s.past (vs ++ rest) []) hclear rfl
  simp only [ParserState.past_past, List.append_nil] at hsecond hthird
  unfold rootOperation
  rw [get_bind, hkind]
  dsimp only
  refine .bind_left hfirst (.bind_left hsecond (.bind_left hthird ?_))
  rw [get_bind]
  constructor
  · intro hnew
    rw [if_neg (by simpa using hnew)]
    rfl
  · intro hold
    rw [if_pos (by simpa using hold)]
    exact ⟨_, _, rfl⟩

/-- Operations are taken one after the other if they are fresh. -/
theorem repeatWhile_rootOperation {operations : List (RootOperation × String)}
    (h : Many OperationPhrase ts operations) (hclear : s.Clear) (hs : s.tokens = ts ++ rest)
    (hclose : rest.head?.map Token.kind = some (.punctuator .braceClose)) :
    GivesIf (Fresh s.operations operations)
      (repeatWhile (fun s => !s.isAt .braceClose) rootOperation s) operations
      ((s.past rest []).giving operations) := by
  induction h generalizing s with
  | nil =>
    have hself : s.past rest [] = s := ParserState.past_self hs
    have hstop : (!s.isAt .braceClose) = false := by
      rw [List.nil_append] at hs
      simp [ParserState.isAt, ParserState.kind?, hs, hclose]
    rw [hself]
    exact .of_ok (repeatWhile_stop hstop) (by simp [Fresh])
  | @cons ts us operation operations hoperation _ ih =>
    have hfirst : GivesIf (operation.1 ∉ s.operations) (rootOperation s) operation
        ((s.past (us ++ rest) []).giving [operation]) :=
      rootOperation_givesIf hoperation hclear (by rw [hs, List.append_assoc])
    -- the others have to be new once this one has its root type
    have hothers := @ih ((s.past (us ++ rest) []).giving [operation]) hclear rfl
    obtain ⟨token, vs, rfl, hname⟩ := hoperation.starts
    have hmore : (!s.isAt .braceClose) = true := by
      have hkind : token.kind ≠ .punctuator .braceClose := by
        intro heq
        simp [heq, TokenKind.isName] at hname
      simpa [ParserState.isAt, ParserState.kind?, hs] using hkind
    have hshorter : ((s.past (us ++ rest) []).giving [operation]).tokens.length <
        s.tokens.length := by
      simp only [ParserState.giving, ParserState.past_tokens, hs, List.length_append,
        List.length_cons]
      omega
    constructor
    · intro hfresh
      obtain ⟨hnew, hfresh⟩ := fresh_cons.mp hfresh
      rw [repeatWhile_step hmore (hfirst.gives hnew) hshorter, hothers.gives hfresh]
      simp [ParserState.giving, ParserState.past]
    · intro hfresh
      by_cases hnew : operation.1 ∈ s.operations
      · obtain ⟨fault, t, hstop⟩ := hfirst.stops (not_not_intro hnew)
        rw [repeatWhile_eq_bind hmore]
        exact ⟨fault, t, bind_of_error hstop _⟩
      · obtain ⟨fault, t, hstop⟩ := hothers.stops fun h => hfresh (fresh_cons.mpr ⟨hnew, h⟩)
        rw [repeatWhile_step hmore (hfirst.gives hnew) hshorter, hstop]
        exact ⟨fault, t, rfl⟩

theorem optionalItems_rootOperation {operations : List (RootOperation × String)}
    (h : Enclosed .braceOpen .braceClose OperationPhrase ts operations)
    (hclear : s.Clear) (hs : s.tokens = ts ++ rest) (hrest : Free continuations rest) :
    GivesIf (Fresh s.operations operations)
      (optionalItems .braceOpen .braceClose rootOperation s) operations
      ((s.past rest []).giving operations) := by
  unfold optionalItems
  cases h with
  | absent =>
    have hopen : Free [.punctuator .braceOpen] rest := hrest.subset (by simp [continuations])
    exact .of_ok (bind_of_ok (Takes.eat_free hopen s hclear hs) _) (by simp [Fresh])
  | @present os ts cs operations hopen hoperations hclose =>
    obtain ⟨close, hkind, rfl⟩ := hclose
    have hfirst := Takes.eat hopen (ts ++ [close] ++ rest) s hclear (by rw [hs, List.append_assoc])
    have hloop := @repeatWhile_rootOperation (s.past (ts ++ [close] ++ rest) []) ts
      ([close] ++ rest) operations hoperations hclear (List.append_assoc _ _ _) (by simp [hkind])
    have hlast := Takes.advance close rest
      (((s.past (ts ++ [close] ++ rest) []).past ([close] ++ rest) []).giving operations) hclear rfl
    simp only [ParserState.giving_past, ParserState.past_past, List.append_nil] at hlast hloop
    exact .bind_left hfirst (hloop.bind_right (bind_of_ok hlast _))

/-- A schema block, once it is known to be the first one. -/
def schemaBlock : Parser Definition := do
  let offset ← nextOffset
  advance
  let directives ← directives
  let operations ← optionalItems .braceOpen .braceClose rootOperation
  modify fun s => { s with schemaSeen := true }
  return ⟨offset, Keyword.schema.text, directives, .schema operations⟩

theorem schemaDefinition_eq :
    schemaDefinition = (do
      if (← get).schemaSeen then fail .schemaRepeated
      schemaBlock) := rfl

/-- A schema block is taken if its operations are fresh, unless it is refused at its keyword. -/
theorem schemaDefinition_givesIf {d : Definition} {operations : List (RootOperation × String)}
    (h : SchemaPhrase ts d) (hbody : d.body = .schema operations) (hclear : s.Clear)
    (hs : s.tokens = ts ++ rest) (hrest : Free continuations rest) :
    GivesIf (s.schemaSeen = false ∧ Fresh s.operations operations) (schemaDefinition s) d
      { (s.past rest d.usages).giving operations with schemaSeen := true } := by
  cases h with | @intro token us vs ds operations' hkind hdirectives hoperations
  cases hbody
  have husages : Definition.usages ⟨token.span.start, Keyword.schema.text, ds,
      .schema operations⟩ = directiveUsages ds := by
    simp [Definition.usages, Body.interfaces, Body.memberUsages, Body.construct?]
  rw [husages]
  have hfirst := Takes.advance token (us ++ (vs ++ rest)) s hclear (by simp [hs])
  have hsecond := takes_directives hdirectives (hoperations.free_directives hrest)
    (s.past (us ++ (vs ++ rest)) []) hclear rfl
  have hthird := optionalItems_rootOperation (s := s.past (vs ++ rest) (directiveUsages ds))
    hoperations hclear rfl hrest
  have hspan : s.span = token.span := by simp [ParserState.span, hs]
  simp only [ParserState.past_past, List.nil_append, List.append_nil] at hsecond hthird
  unfold schemaDefinition
  rw [get_bind, ← hspan]
  by_cases hseen : s.schemaSeen
  · rw [if_pos hseen]
    exact ⟨fun h => by simp [hseen] at h, fun _ => ⟨_, _, rfl⟩⟩
  · rw [if_neg hseen]
    refine GivesIf.congr ?_ (and_iff_right (by simpa using hseen))
    have hoffset : nextOffset s = .ok s.span.start s := rfl
    exact .bind_left hoffset (.bind_left hfirst (.bind_left hsecond (hthird.bind_right rfl)))

end

/-! ## Documents -/

/-- The parser for an item of a document, given the kind of token behind its description. -/
def entryAt : Option TokenKind → Parser Entry
  | some (.keyword .extend) => extension
  | some (.keyword .directive) => .definition <$> directiveDefinition
  | kind? =>
    match kind?.bind extensibleDefinition? with
    | some definition => .definition <$> definition
    | none => unexpected .definition

theorem entry_eq :
    entry = (do
      description
      entryAt (← nextKind)) := rfl

section

variable {s : ParserState} {ts rest : List Token}

/-- The keyword of a definition is no description. -/
theorem free_extensible {token : Token} {p : Parser Definition}
    (h : extensibleDefinition? token.kind = some p) (us : List Token) :
    Free [.string, .blockString] (token :: us) := by
  rintro _ ⟨rfl⟩ hmem
  simp only [List.mem_cons, List.not_mem_nil, or_false] at hmem
  rcases hmem with hkind | hkind <;> simp [hkind, extensibleDefinition?] at h

/-- A definition that can be extended is parsed by the parser that its keyword selects, once its
    description has been taken. -/
theorem entry_eq_definition {ds us : List Token} {token : Token} {p : Parser Definition}
    (hd : DescriptionPhrase ds) (hparser : extensibleDefinition? token.kind = some p)
    (hclear : s.Clear) (hs : s.tokens = ds ++ (token :: us)) :
    entry s = (Entry.definition <$> p) (s.past (token :: us) []) := by
  have hdescription := takes_description hd (free_extensible hparser us) s hclear hs
  refine (bind_of_ok hdescription _).trans ?_
  have hkind : (s.past (token :: us) []).kind? = some token.kind := rfl
  rw [nextKind_bind, hkind]
  cases hword : token.kind with
  | keyword word =>
    rw [hword] at hparser
    cases word <;> cases hparser <;> rfl
  | _ =>
    rw [hword] at hparser
    cases hparser

theorem free_keyword {token : Token} {word : Keyword} (h : token.kind = .keyword word)
    (us : List Token) : Free [.string, .blockString] (token :: us) := by
  rintro _ ⟨rfl⟩
  simp [h]

/-- An item other than a schema block is taken, and its usages are skipped. -/
theorem takes_entry {e : Entry} (h : EntryPhrase ts e) (hblock : e.schemaBlock? = none)
    (hrest : Free continuations rest) : Takes entry ts e rest e.usages := by
  cases h with
  | schema hd h =>
    obtain ⟨-, -, -⟩ := h
    cases hblock
  | @type ds ts d hd h =>
    obtain ⟨token, us, p, rfl, hparser, hp⟩ := takes_typeDefinition h hrest
    intro s hclear hs
    rw [entry_eq_definition hd hparser hclear (by rw [hs, List.append_assoc]; rfl)]
    have hrun := hp.map Entry.definition (s.past (token :: (us ++ rest)) []) hclear rfl
    rw [ParserState.past_past] at hrun
    exact hrun
  | @directive ds ts d hd h =>
    have hp := takes_directiveDefinition h hrest
    obtain ⟨hkind, -, -, -, -, -, -⟩ := h
    apply (takes_description hd (free_keyword hkind _)).bind_quiet
    apply Takes.nextKind_bind rfl
    simp only [List.cons_append, List.head?_cons, Option.map_some, hkind]
    exact hp.map _
  | @extension ds ts token d hd hkind h =>
    apply (takes_description hd (free_keyword hkind _)).bind_quiet
    apply Takes.nextKind_bind rfl
    simp only [List.cons_append, List.head?_cons, Option.map_some, hkind]
    exact takes_extension h hrest

/-- No type names an operation. -/
theorem TypePhrase.operations_eq_nil {d : Definition} (h : TypePhrase ts d) :
    d.body.operations = [] := by
  cases h <;> rfl

theorem Entry.operations_eq {e : Entry} {block : Nat × List (RootOperation × String)}
    (h : e.schemaBlock? = some block) : e.operations = block.2 := by
  unfold Entry.schemaBlock? at h
  split at h
  · obtain rfl := Option.some.inj h
    rfl
  · cases h

/-- An item that names no operation and is no schema block is admitted anywhere. -/
theorem admitted_of_operations_eq_nil {e : Entry} {granted : List RootOperation} {seen : Bool}
    (hblock : e.schemaBlock? = none) (hnone : e.operations = []) : e.Admitted granted seen :=
  ⟨fun h => by simp [Entry.isBlock, hblock] at h, by simp [Fresh, hnone]⟩

/-- Items other than schema blocks are admitted anywhere, unless they extend the schema block. -/
theorem EntryPhrase.admitted {e : Entry} (h : EntryPhrase ts e) (hblock : e.schemaBlock? = none)
    (granted : List RootOperation) (seen : Bool) : e.Admitted granted seen := by
  cases h with
  | schema _ h => cases h; cases hblock
  | type _ h => exact admitted_of_operations_eq_nil hblock h.operations_eq_nil
  | directive _ h =>
    cases h
    exact admitted_of_operations_eq_nil rfl rfl
  | extension _ _ h => exact admitted_of_operations_eq_nil rfl h.operations_eq_nil

/-- The state behind some items. -/
def ParserState.behind (s : ParserState) (rest : List Token) (items : Document) : ParserState :=
  { (s.past rest (items.flatMap Entry.usages)).giving items.operations with
    schemaSeen := s.schemaSeen || items.any Entry.isBlock }

theorem Document.operations_append (items others : Document) :
    Document.operations (items ++ others) = items.operations ++ others.operations := by
  simp [Document.operations]

theorem ParserState.behind_behind (s : ParserState) (ts rest : List Token)
    (items others : Document) :
    (s.behind ts items).behind rest others = s.behind rest (items ++ others) := by
  simp [behind, past, giving, Document.operations_append, Bool.or_assoc]

/-- An item that is no schema block leaves the roots as they are. -/
theorem ParserState.behind_of_schemaBlock?_eq_none (s : ParserState) (rest : List Token) {e : Entry}
    (h : e.schemaBlock? = none) : s.behind rest [e] = s.past rest e.usages := by
  simp [behind, giving, past, Document.operations, Entry.isBlock, h]

/-- The definition inside an extension of the schema block is read as if there were no schema block
    in front of it, but its operations must not have a root type there. -/
theorem schemaExtension_givesIf {token : Token} {us : List Token} {d : Definition}
    (h : SchemaPhrase us d) (hclear : s.Clear) (hs : s.tokens = token :: (us ++ rest))
    (hrest : Free continuations rest) :
    GivesIf (Fresh s.operations d.body.operations) (extension s) (.extension token.span.start d)
      (s.past rest [⟨.extension, d.name, token.span.start⟩]) := by
  obtain ⟨first, vs, rfl, hkind⟩ : ∃ first vs, us = first :: vs ∧ first.kind = .keyword .schema := by
    obtain ⟨hkind, -, -⟩ := h
    exact ⟨_, _, rfl, hkind⟩
  obtain ⟨operations, hbody⟩ : ∃ operations, d.body = .schema operations := by
    obtain ⟨-, -, -⟩ := h
    exact ⟨_, rfl⟩
  have hspan : s.span = token.span := by simp [ParserState.span, hs]
  have hoffset : nextOffset s = .ok token.span.start s := by
    rw [← hspan]
    rfl
  have hadvance := Takes.advance token (first :: vs ++ rest) s hclear hs
  have hinner := schemaDefinition_givesIf (s := { s.past (first :: vs ++ rest) [] with
    schemaSeen := false }) h hbody hclear rfl hrest
  rw [extension_eq, hbody]
  refine .bind_left hoffset (.bind_left hadvance ?_)
  unfold extendedEntry
  have hnext : (s.past (first :: vs ++ rest) []).kind?.bind extensibleDefinition? =
      some schemaDefinition := by
    simp [ParserState.kind?, hkind, extensibleDefinition?]
  rw [get_bind, hnext]
  dsimp only
  rw [set_bind]
  refine .bind_right (hinner.congr (by simp [Body.operations])) ?_
  rw [recordExtension_eq_ok (by exact hclear.2)]
  simp [ParserState.past, ParserState.giving]

/-- **Items**: an item is taken if it is admitted. -/
theorem entry_givesIf {e : Entry} (h : ItemPhrase ts e) (hclear : s.Clear)
    (hs : s.tokens = ts ++ rest) (hrest : Free continuations rest) :
    GivesIf (e.Admitted s.operations s.schemaSeen) (entry s) e (s.behind rest [e]) := by
  cases h with
  | entry h =>
    cases hblock : e.schemaBlock? with
    | none =>
      rw [s.behind_of_schemaBlock?_eq_none rest hblock]
      exact .of_ok (takes_entry h hblock hrest s hclear hs) (h.admitted hblock _ _)
    | some block =>
      cases h with
      | type _ h => cases h <;> cases hblock
      | directive _ h => cases h; cases hblock
      | extension _ _ _ => cases hblock
      | @schema ds ts d hd h =>
        have hphrase := h
        cases h with | @intro token us vs directives operations hkind _ _
        have hparser : extensibleDefinition? token.kind = some schemaDefinition := by
          rw [hkind]
          rfl
        rw [entry_eq_definition hd hparser hclear (by rw [hs, List.append_assoc]; rfl)]
        have hrun := schemaDefinition_givesIf
          (s := s.past (token :: (us ++ vs) ++ rest) []) hphrase rfl hclear rfl hrest
        have hiff : Entry.Admitted s.operations s.schemaSeen (.definition ⟨token.span.start,
            Keyword.schema.text, directives, .schema operations⟩) ↔
            s.schemaSeen = false ∧ Fresh s.operations operations :=
          ⟨fun h => ⟨h.first rfl, h.fresh⟩, fun h => ⟨fun _ => h.1, h.2⟩⟩
        have hstate : s.behind rest [.definition ⟨token.span.start, Keyword.schema.text, directives,
            .schema operations⟩] = { (s.past rest (Definition.usages ⟨token.span.start,
              Keyword.schema.text, directives, .schema operations⟩)).giving operations with
            schemaSeen := true } := by
          simp [ParserState.behind, Document.operations, Entry.schemaBlock?, Entry.isBlock,
            Entry.usages]
        rw [ParserState.past_past] at hrun
        rw [hstate]
        exact (hrun.map _).congr hiff
  | @schemaExtension ds ts token d hd hkind h =>
    have hdescription := takes_description hd (free_keyword hkind _) s hclear
      (by rw [hs, List.append_assoc]; rfl)
    have hnext : nextKind (s.past (token :: (ts ++ rest)) []) =
        .ok (some (.keyword .extend)) (s.past (token :: (ts ++ rest)) []) := by
      rw [← hkind]
      rfl
    have hrun := schemaExtension_givesIf (s := s.past (token :: (ts ++ rest)) []) h hclear rfl hrest
    rw [ParserState.past_past] at hrun
    have hiff : Entry.Admitted s.operations s.schemaSeen (.extension token.span.start d) ↔
        Fresh s.operations d.body.operations :=
      ⟨fun h => h.fresh, fun h => ⟨fun hblock => absurd hblock Bool.false_ne_true, h⟩⟩
    rw [s.behind_of_schemaBlock?_eq_none rest rfl]
    exact .bind_left hdescription (.bind_left hnext (hrun.congr hiff))

theorem free_continuations {items : Document} (h : Many ItemPhrase ts items) :
    Free continuations ts :=
  h.free fun he => he.starts.free (by simp [continuations, TokenKind.startsItem])

/-- **Runs of items**: the loop goes on behind items that are admitted, and stops at others. -/
theorem repeatWhile_entry {items : Document} (h : Many ItemPhrase ts items) (hclear : s.Clear)
    (hs : s.tokens = ts ++ rest) (hrest : Free continuations rest) :
    (items.Admitted s.operations s.schemaSeen →
      repeatWhile (fun s => !s.tokens.isEmpty) entry s =
        ((items ++ ·) <$> repeatWhile (fun s => !s.tokens.isEmpty) entry) (s.behind rest items)) ∧
    (¬items.Admitted s.operations s.schemaSeen →
      ∃ fault t, repeatWhile (fun s => !s.tokens.isEmpty) entry s = .error fault t) := by
  induction h generalizing s with
  | nil =>
    have hself : s.behind rest [] = s := by
      have hpast := ParserState.past_self hs
      simpa [ParserState.behind, ParserState.giving, ParserState.past, Document.operations] using
        hpast
    rw [hself]
    refine ⟨fun _ => ?_, fun h => absurd trivial h⟩
    exact (congrFun (id_map _) s).symm
  | @cons ts us e items he hitems ih =>
    have hfree := (free_continuations hitems).append hrest
    have hfirst := entry_givesIf he hclear (by rw [hs, List.append_assoc]) hfree
    obtain ⟨hgives, hstops⟩ := @ih (s.behind (us ++ rest) [e]) hclear rfl
    obtain ⟨token, vs, rfl, -⟩ := he.starts
    have hmore : (!s.tokens.isEmpty) = true := by simp [hs]
    have hshorter : (s.behind (us ++ rest) [e]).tokens.length < s.tokens.length := by
      rw [hs]
      show (us ++ rest).length < _
      simp only [List.length_append, List.length_cons]
      omega
    have hseen : (s.behind (us ++ rest) [e]).schemaSeen = (s.schemaSeen || e.isBlock) := by
      simp [ParserState.behind]
    have hoperations : (s.behind (us ++ rest) [e]).operations =
      Document.granting s.operations [e] := rfl
    rw [hseen, hoperations] at hgives hstops
    constructor
    · rintro ⟨hadmitted, hothers⟩
      rw [repeatWhile_step hmore (hfirst.gives hadmitted) hshorter, hgives hothers,
        ParserState.behind_behind]
      show _ = EStateM.map _ _ _
      simp only [Functor.map, EStateM.map, List.singleton_append]
      cases repeatWhile (fun s => !s.tokens.isEmpty) entry (s.behind rest (e :: items)) <;> rfl
    · intro hnot
      by_cases hadmitted : e.Admitted s.operations s.schemaSeen
      · obtain ⟨fault, t, hstop⟩ := hstops fun hothers => hnot ⟨hadmitted, hothers⟩
        rw [repeatWhile_step hmore (hfirst.gives hadmitted) hshorter, hstop]
        exact ⟨fault, t, rfl⟩
      · obtain ⟨fault, t, hstop⟩ := hfirst.stops hadmitted
        rw [repeatWhile_eq_bind hmore]
        exact ⟨fault, t, bind_of_error hstop _⟩

/-- A document is a run of items, unless a malformed lexeme comes first. -/
theorem document_eq_repeatWhile (policy : Policy) (ts : List Token) {ending : Ending}
    (hfault : ending.fault = none) :
    document (.start policy ⟨ts, ending⟩) =
      repeatWhile (fun s => !s.tokens.isEmpty) entry (.start policy ⟨ts, ending⟩) := by
  have hcheck : checkNext (.start policy ⟨ts, ending⟩) = .ok () (.start policy ⟨ts, ending⟩) :=
    checkNext_of_fault_eq_none hfault
  exact bind_of_ok hcheck _

/-- **Documents**: items that make up all tokens are read if they are admitted, with their usages
    skipped. -/
theorem document_givesIf {items : Document} (h : Many ItemPhrase ts items) {ending : Ending}
    (hfault : ending.fault = none) :
    GivesIf (items.Admitted [] false) (document (.start .skip ⟨ts, ending⟩)) items
      (ParserState.behind (.start .skip ⟨ts, ending⟩) [] items) := by
  obtain ⟨hgives, hstops⟩ := repeatWhile_entry (s := .start .skip ⟨ts, ending⟩) h ⟨hfault, rfl⟩
    (List.append_nil ts).symm free_nil
  rw [document_eq_repeatWhile .skip ts hfault]
  refine ⟨fun hadmitted => ?_, hstops⟩
  have hend : repeatWhile (fun s => !s.tokens.isEmpty) entry
      (ParserState.behind (.start .skip ⟨ts, ending⟩) [] items) =
      .ok [] (ParserState.behind (.start .skip ⟨ts, ending⟩) [] items) := repeatWhile_stop rfl
  rw [hgives hadmitted, map_of_ok hend, List.append_nil]

/-- Without extensions of the schema block, items are admitted if there is no more than one block
    among them, which names no operation twice. -/
theorem admitted_of_entries {items : Document} (h : Many EntryPhrase ts items)
    {granted : List RootOperation} {seen : Bool}
    (hdistinct : (items.operations.map Prod.fst).Nodup)
    (hblock : items.filterMap Entry.schemaBlock? = [] ∨
      (items.filterMap Entry.schemaBlock?).length ≤ 1 ∧ seen = false ∧ granted = []) :
    items.Admitted granted seen := by
  induction h generalizing granted seen with
  | nil => exact trivial
  | @cons ts us e items he hitems ih =>
    cases hschema : e.schemaBlock? with
    | none =>
      -- the roots are as before, and the schema block is still to come if there is one
      have hfilter : (e :: items).filterMap Entry.schemaBlock? =
          items.filterMap Entry.schemaBlock? := by
        rw [List.filterMap_cons, hschema]
      have hoperations : Document.operations (e :: items) = Document.operations items := by
        rw [Document.operations, hfilter, Document.operations]
      rw [hoperations] at hdistinct
      rw [hfilter] at hblock
      refine ⟨he.admitted hschema _ _, ?_⟩
      simpa [Document.granting, Document.operations, Entry.isBlock, hschema] using
        ih hdistinct hblock
    | some block =>
      -- this is the only schema block, and all operations are those that it names
      have hfilter : (e :: items).filterMap Entry.schemaBlock? =
          block :: items.filterMap Entry.schemaBlock? := by
        rw [List.filterMap_cons, hschema]
      rw [hfilter] at hblock
      obtain ⟨hlength, rfl, rfl⟩ := hblock.resolve_left (by simp)
      have hlast : items.filterMap Entry.schemaBlock? = [] := by
        simpa using hlength
      have hoperations : Document.operations (e :: items) = e.operations := by
        simp [Document.operations, hschema, hlast, Entry.operations_eq hschema]
      rw [hoperations] at hdistinct
      refine ⟨⟨fun _ => rfl, hdistinct, by simp⟩, ih ?_ (.inl hlast)⟩
      simp [Document.operations, hlast]

/-- What the grammar derives from the tokens is what the parser reads from them. -/
theorem document_eq_ok {items : Document} (h : DocumentPhrase ts items)
    (ending : Ending) (hfault : ending.fault = none) :
    ∃ t, document (.start .skip ⟨ts, ending⟩) = .ok items t ∧
      t.skipped = items.flatMap Entry.usages := by
  have hitems : Many ItemPhrase ts items := h.items.imp .entry
  have hadmitted : items.Admitted [] false :=
    admitted_of_entries h.items h.distinct (.inr ⟨h.oneBlock, rfl, rfl⟩)
  exact ⟨_, (document_givesIf hitems hfault).gives hadmitted, rfl⟩

/-- A source is read as what its document declares, with what the parser has skipped. -/
theorem read_eq_ok {policy : Policy} {source : String} {schema : Schema} :
    read policy source = .ok schema ↔
      ∃ items t, document (.start policy (Feed.ofSource source)) = .ok items t ∧
        schema = items.toSchema (LineTable.ofText source.toList) t.skipped := by
  unfold read
  cases document (.start policy (Feed.ofSource source)) with
  | error fault t => simp
  | ok items t =>
    constructor
    · exact fun h => ⟨items, t, rfl, (Except.ok.inj h).symm⟩
    · rintro ⟨_, _, hrun, rfl⟩
      cases hrun
      rfl

/-- A source whose tokens make up a document is read as what the document declares. -/
theorem read_of_phrase {source : String} {items : Document}
    (h : DocumentPhrase (Feed.ofSource source).tokens items)
    (hfault : (Feed.ofSource source).ending.fault = none) :
    read .skip source =
      .ok (items.toSchema (LineTable.ofText source.toList) (items.flatMap Entry.usages)) := by
  obtain ⟨t, hrun, hskipped⟩ := document_eq_ok h _ hfault
  exact read_eq_ok.mpr ⟨items, t, hrun, by rw [hskipped]⟩

end

end SchemaModel.Sdl
