import Mathlib.Logic.Relation
import SchemaModel.Proofs.Items

/-! # Descriptions

    A description has no bearing on what is read.

    * **Place**: where a description may stand, as the tokens in front of it and behind it.
    * **Overlooks**: a parser gives the same with a description behind some tokens as without it. So
      does every parser of the grammar, at the places inside its phrase.
    * **Undescribed**: tokens that are the same up to descriptions make up the same documents. -/

namespace SchemaModel.Sdl

open SchemaModel.Sdl.Parser

/-! ## Places -/

/-- Nowhere inside a member. -/
def nowhere (_ : List Token) : Prop := False

/-- In front of a member or inside one: an opening punctuator, some members, and what stands in front
    of the place inside the next member. -/
inductive Opened {α : Type} (openMark : Punctuator) (phrase : Phrase α)
    (inside : List Token → Prop) : List Token → Prop
  | intro {ts us vs : List Token} {as : List α} :
      Lone (.punctuator openMark) ts → Many phrase us as → (vs = [] ∨ inside vs) →
      Opened openMark phrase inside (ts ++ (us ++ vs))

/-- In front of an argument of a field. -/
inductive FieldPlace : List Token → Prop
  | intro {ds ks as : List Token} {key : Name} :
      DescriptionPhrase ds → NamePhrase ks key →
      Opened .parenOpen InputValuePhrase nowhere as → FieldPlace (ds ++ (ks ++ as))

/-- In front of a member of a type or inside one. -/
inductive TypePlace : List Token → Prop
  | fields {token : Token} {ks is us fs : List Token} {key : Name}
      {interfaces directives : List Name} :
      (token.kind = .keyword .type ∨ token.kind = .keyword .interface) → NamePhrase ks key →
      ImplementsPhrase is interfaces → Many DirectivePhrase us directives →
      Opened .braceOpen FieldPhrase FieldPlace fs → TypePlace (token :: (ks ++ (is ++ (us ++ fs))))
  | values {token : Token} {ks us vs : List Token} {key : Name} {directives : List Name} :
      token.kind = .keyword .enum → NamePhrase ks key → Many DirectivePhrase us directives →
      Opened .braceOpen EnumValuePhrase nowhere vs → TypePlace (token :: (ks ++ (us ++ vs)))
  | inputs {token : Token} {ks us fs : List Token} {key : Name} {directives : List Name} :
      token.kind = .keyword .input → NamePhrase ks key → Many DirectivePhrase us directives →
      Opened .braceOpen InputValuePhrase nowhere fs → TypePlace (token :: (ks ++ (us ++ fs)))

/-- In front of an argument of a directive definition. -/
inductive DirectivePlace : List Token → Prop
  | intro {token : Token} {ms ks as : List Token} {key : Name} :
      token.kind = .keyword .directive → Lone (.punctuator .atSign) ms → NamePhrase ks key →
      Opened .parenOpen InputValuePhrase nowhere as → DirectivePlace (token :: (ms ++ (ks ++ as)))

/-- Inside an item of a document. -/
inductive ItemPlace : List Token → Prop
  | type {ds ts : List Token} : DescriptionPhrase ds → TypePlace ts → ItemPlace (ds ++ ts)
  | directive {ds ts : List Token} : DescriptionPhrase ds → DirectivePlace ts → ItemPlace (ds ++ ts)
  | extension {ds ts : List Token} {token : Token} :
      DescriptionPhrase ds → token.kind = .keyword .extend → TypePlace ts →
      ItemPlace (ds ++ (token :: ts))

/-- Does a token of this kind begin a definition or an extension? -/
def TokenKind.startsDefinition : TokenKind → Bool
  | .keyword word => word ∈ [.schema, .type, .interface, .union, .enum, .input, .scalar,
      .directive, .extend]
  | _ => false

/-- **Places**: a description may stand between these tokens, that is in front of a definition, a
    field, an argument, an input field or an enum value. There is none yet. Behind tokens with which no
    document begins it does not matter what else is there. -/
inductive Place (before behind : List Token) : Prop
  | item {items : Document} :
      Many ItemPhrase before items → Starts TokenKind.startsDefinition behind → Place before behind
  | member {ts us : List Token} {items : Document} :
      before = ts ++ us → Many ItemPhrase ts items → ItemPlace us →
      Starts TokenKind.isName behind → Place before behind
  | broken : (∀ ts items, ¬Many ItemPhrase (before ++ ts) items) → Place before behind

/-- The second tokens are the first ones with one more description. -/
inductive AddsDescription : List Token → List Token → Prop
  | intro {before behind : List Token} {d : Token} :
      Place before behind → DescriptionPhrase [d] →
      AddsDescription (before ++ behind) (before ++ d :: behind)

/-- **Same up to descriptions**: descriptions are added and removed one after the other. -/
def SameUpToDescriptions : List Token → List Token → Prop := Relation.EqvGen AddsDescription

/-! ## Overlooking Descriptions -/

/-- The state with other tokens left. -/
def ParserState.facing (s : ParserState) (ts : List Token) : ParserState := { s with tokens := ts }

/-- **Overlooks**: behind the given tokens and in front of a name, the parser gives the same with a
    description as without it. -/
def Overlooks {α : Type} (p : Parser α) (ts : List Token) : Prop :=
  ∀ (s : ParserState) (d : Token) (rest : List Token), s.Clear → DescriptionPhrase [d] →
    Starts TokenKind.isName rest → p (s.facing (ts ++ d :: rest)) = p (s.facing (ts ++ rest))

section

variable {α β : Type} {p : Parser α} {q : α → Parser β} {token d : Token} {ts us rest : List Token}
  {a : α} {usages : List Usage}

/-- Runs that are the same go on alike. -/
theorem bind_congr_run {s t : ParserState} (h : p s = p t) (q : α → Parser β) :
    (p >>= q) s = (p >>= q) t := by
  show EStateM.bind p q s = EStateM.bind p q t
  simp only [EStateM.bind, h]

theorem DescriptionPhrase.startsMember (h : DescriptionPhrase [d]) : d.kind.startsMember := by
  cases h with
  | string hkind _ => rw [hkind]; rfl
  | blockString hkind => rw [hkind]; rfl

/-- A description is stepped over in front of anything that is none itself. -/
theorem description_bind_facing (q : Unit → Parser β) {s : ParserState} (hclear : s.Clear)
    (hd : DescriptionPhrase [d]) (hrest : Free [.string, .blockString] rest) :
    (description >>= q) (s.facing (d :: rest)) = (description >>= q) (s.facing rest) := by
  have hwith := takes_description hd hrest (s.facing (d :: rest)) hclear rfl
  have hwithout := takes_description .absent hrest (s.facing rest) hclear rfl
  rw [bind_of_ok hwith, bind_of_ok hwithout]
  rfl

/-- What begins with a name is no description. -/
theorem Starts.noDescription (h : Starts TokenKind.isName rest) :
    Free [.string, .blockString] rest :=
  h.free (by simp [TokenKind.isName])

namespace Overlooks

theorem description_bind (q : Unit → Parser β) : Overlooks (description >>= q) [] :=
  fun _ _ _ hclear hd hrest => description_bind_facing q hclear hd hrest.noDescription

theorem bind_left (h : Overlooks p ts) (q : α → Parser β) : Overlooks (p >>= q) ts :=
  fun s d rest hclear hd hrest => bind_congr_run (h s d rest hclear hd hrest) q

theorem map (h : Overlooks p ts) (f : α → β) : Overlooks (f <$> p) ts := by
  rw [map_eq_pure_bind]
  exact h.bind_left _

/-- A step in front of the place, which takes its tokens whatever member follows there. -/
theorem bind (hp : ∀ rest, Starts TokenKind.startsMember rest → Takes p ts a (us ++ rest) usages)
    (hq : Overlooks (q a) us) : Overlooks (p >>= q) (ts ++ us) := by
  intro s d rest hclear hd hrest
  have hname : Starts TokenKind.startsMember rest := hrest.mono fun _ => startsMember_of_isName
  have hwith := hp (d :: rest) ⟨d, rest, rfl, hd.startsMember⟩ (s.facing (ts ++ us ++ d :: rest))
    hclear (List.append_assoc _ _ _)
  have hwithout := hp rest hname (s.facing (ts ++ us ++ rest)) hclear (List.append_assoc _ _ _)
  rw [bind_of_ok hwith, bind_of_ok hwithout]
  exact hq (s.past [] usages) d rest hclear hd hrest

theorem nextOffset_bind {q : Nat → Parser β} (hq : Overlooks (q token.span.start) (token :: ts)) :
    Overlooks (nextOffset >>= q) (token :: ts) := hq

theorem nextKind_bind {q : Option TokenKind → Parser β}
    (hq : Overlooks (q (some token.kind)) (token :: ts)) :
    Overlooks (nextKind >>= q) (token :: ts) := hq

theorem advance_bind {q : Unit → Parser β} (hq : Overlooks (q ()) ts) :
    Overlooks (advance >>= q) (token :: ts) :=
  have hstep : Overlooks (advance >>= q) ([token] ++ ts) :=
    bind (fun rest _ => Takes.advance token (ts ++ rest)) hq
  hstep

end Overlooks

/-! ## Repetition -/

/-- Loops go on alike if their next items are the same and take tokens. -/
theorem repeatWhile_congr {more : ParserState → Bool} {s t : ParserState} (hs : more s)
    (ht : more t) (heq : p s = p t) (hlength : t.tokens.length ≤ s.tokens.length)
    (hshorter : ∀ a u, p t = .ok a u → u.tokens.length < t.tokens.length) :
    repeatWhile more p s = repeatWhile more p t := by
  rw [repeatWhile_eq_bind hs, repeatWhile_eq_bind ht]
  cases hrun : p t with
  | error fault u => rw [bind_of_error (heq.trans hrun), bind_of_error hrun]
  | ok a u =>
    have hlt := hshorter a u hrun
    rw [bind_of_ok (heq.trans hrun), bind_of_ok hrun, othersWhile_of_lt hlt,
      othersWhile_of_lt (Nat.lt_of_lt_of_le hlt hlength)]

/-- **Members**: how a member is taken and read, and which places are inside it. -/
structure OverlooksItem (item : Parser α) (phrase : Phrase α) (inside : List Token → Prop) :
    Prop where
  takes : ∃ usages kinds, TakesItem item phrase usages TokenKind.startsMember kinds
  reads : Reads item phrase
  here : Overlooks item []
  within : ∀ {ts}, inside ts → Overlooks item ts
  starts : ∀ {ts}, inside ts → Starts TokenKind.startsMember ts

variable {phrase : Phrase α} {item : Parser α} {inside : List Token → Prop}

theorem overlooks_optionalItems (h : OverlooksItem item phrase inside)
    {openMark closeMark : Punctuator} (hts : Opened openMark phrase inside ts) :
    Overlooks (optionalItems openMark closeMark item) ts := by
  obtain @⟨os, us, vs, as, hopen, has, hvs⟩ := hts
  obtain ⟨usages, kinds, hitem⟩ := h.takes
  have hplace : Overlooks item vs ∧
      ∀ rest, Starts TokenKind.startsMember rest → Starts TokenKind.startsMember (vs ++ rest) := by
    rcases hvs with rfl | hvs
    · exact ⟨h.here, fun rest hrest => hrest⟩
    · exact ⟨h.within hvs, fun rest _ => (h.starts hvs).append rest⟩
  obtain ⟨hoverlooks, hstarts⟩ := hplace
  -- a member is no closing punctuator
  have hmore : ∀ (s : ParserState) token us, s.tokens = token :: us → token.kind.startsMember →
      !s.isAt closeMark := by
    intro s token us hs hfirst
    have hne : token.kind ≠ .punctuator closeMark := by
      intro heq
      simp [heq, TokenKind.startsMember] at hfirst
    simpa [ParserState.isAt, ParserState.kind?, hs] using hne
  have hloop : Overlooks (repeatWhile (fun s => !s.isAt closeMark) item) (us ++ vs) := by
    intro s d rest hclear hd hrest
    have hwith := hstarts (d :: rest) ⟨d, rest, rfl, hd.startsMember⟩
    have hwithout := hstarts rest (hrest.mono fun _ => startsMember_of_isName)
    rw [repeatWhile_items hitem hmore has (hwith.free hitem.apart)
        (s := s.facing (us ++ vs ++ d :: rest)) hclear (List.append_assoc _ _ _),
      repeatWhile_items hitem hmore has (hwithout.free hitem.apart)
        (s := s.facing (us ++ vs ++ rest)) hclear (List.append_assoc _ _ _)]
    obtain ⟨first, others, hfirst, hkind⟩ := hwith
    obtain ⟨first', others', hfirst', hkind'⟩ := hwithout
    let t := s.past [] (as.flatMap usages)
    have hsame : repeatWhile (fun s => !s.isAt closeMark) item (t.facing (vs ++ d :: rest)) =
        repeatWhile (fun s => !s.isAt closeMark) item (t.facing (vs ++ rest)) := by
      refine repeatWhile_congr (hmore _ first others hfirst hkind)
        (hmore _ first' others' hfirst' hkind') (hoverlooks t d rest hclear hd hrest) ?_ ?_
      · simp [ParserState.facing]
      · intro a u hrun
        obtain ⟨ts, hleads, -, hphrase⟩ := h.reads (t.facing (vs ++ rest)) (fun _ => hclear.1) a u hrun
        exact hleads.length_lt (hitem.starts hphrase).ne_nil
    rw [map_eq_pure_bind]
    exact bind_congr_run hsame _
  unfold optionalItems
  exact Overlooks.bind (fun rest _ => Takes.eat hopen _) (hloop.bind_left _)

end

/-! ## Members and Definitions -/

section

variable {ts rest : List Token} {kinds : List TokenKind}

theorem overlooksItem_inputValueDef : OverlooksItem inputValueDef InputValuePhrase nowhere where
  takes := ⟨_, _, takesItem_inputValueDef⟩
  reads := finishes_inputValueDef.reads
  here := .description_bind _
  within := False.elim
  starts := False.elim

theorem overlooksItem_enumValueDef : OverlooksItem enumValueDef EnumValuePhrase nowhere where
  takes := ⟨_, _, takesItem_enumValueDef⟩
  reads := finishes_enumValueDef.reads
  here := .description_bind _
  within := False.elim
  starts := False.elim

/-- What is opened begins with its punctuator. -/
theorem Opened.free {α : Type} {openMark : Punctuator} {phrase : Phrase α}
    {inside : List Token → Prop} (h : Opened openMark phrase inside ts)
    (hkinds : .punctuator openMark ∉ kinds) (rest : List Token) : Free kinds (ts ++ rest) := by
  obtain ⟨hopen, -, -⟩ := h
  rw [List.append_assoc]
  exact hopen.free hkinds _

theorem FieldPlace.starts (h : FieldPlace ts) : Starts TokenKind.startsMember ts := by
  obtain ⟨hd, hkey, -⟩ := h
  exact hd.starts_append ((hkey.starts.mono fun _ => startsMember_of_isName).append _) rfl rfl

theorem FieldPlace.overlooks (h : FieldPlace ts) : Overlooks fieldDef ts := by
  obtain ⟨hd, hkey, hargs⟩ := h
  apply Overlooks.bind fun rest _ => takes_description hd (hkey.free (by simp [TokenKind.isName]) _ _)
  apply Overlooks.bind fun rest _ => Takes.name hkey _
  exact (overlooks_optionalItems overlooksItem_inputValueDef hargs).bind_left _

theorem overlooksItem_fieldDef : OverlooksItem fieldDef FieldPhrase FieldPlace where
  takes := ⟨_, _, FieldPhrase.starts, takes_fieldDef, by simp [TokenKind.startsMember]⟩
  reads := finishes_fieldDef.reads
  here := .description_bind _
  within := FieldPlace.overlooks
  starts := FieldPlace.starts

theorem overlooks_fieldedDefinition {token : Token} {ks is us fs : List Token} {key : Name}
    {interfaces directives : List Name}
    {q : Nat → Name → List Name → List Name → List FieldDef → Parser Definition}
    (hkey : NamePhrase ks key) (hinterfaces : ImplementsPhrase is interfaces)
    (hdirectives : Many DirectivePhrase us directives)
    (hfields : Opened .braceOpen FieldPhrase FieldPlace fs) :
    Overlooks (fieldedDefinition q) (token :: (ks ++ (is ++ (us ++ fs)))) := by
  have hbehind : ∀ rest, Free [.punctuator .atSign, .punctuator .parenOpen] (fs ++ rest) :=
    hfields.free (by simp)
  have himplements : ∀ rest,
      Free [.keyword .implements, .punctuator .ampersand] (us ++ fs ++ rest) := fun rest => by
    rw [List.append_assoc]
    exact (hdirectives.free_directives (by simp)).append (hfields.free (by simp) rest)
  have hmembers : Overlooks fieldDefs fs := overlooks_optionalItems overlooksItem_fieldDef hfields
  refine .nextOffset_bind (.advance_bind ?_)
  apply Overlooks.bind fun rest _ => Takes.name hkey _
  apply Overlooks.bind fun rest _ => takes_implementedInterfaces hinterfaces (himplements rest)
  apply Overlooks.bind fun rest _ => takes_directives hdirectives (hbehind rest)
  exact hmembers.bind_left _

theorem overlooks_bracedDefinition {α : Type} {item : Parser α} {phrase : Phrase α}
    {inside : List Token → Prop} {token : Token} {ks us ms : List Token} {key : Name}
    {directives : List Name} (hitem : OverlooksItem item phrase inside) (body : List α → Body)
    (hkey : NamePhrase ks key) (hdirectives : Many DirectivePhrase us directives)
    (hmembers : Opened .braceOpen phrase inside ms) :
    Overlooks (bracedDefinition item body) (token :: (ks ++ (us ++ ms))) := by
  refine .nextOffset_bind (.advance_bind ?_)
  apply Overlooks.bind fun rest _ => Takes.name hkey _
  apply Overlooks.bind fun rest _ => takes_directives hdirectives (hmembers.free (by simp) rest)
  exact (overlooks_optionalItems hitem hmembers).bind_left _

/-- The parser that the keyword of a type selects overlooks descriptions inside the type. -/
theorem TypePlace.overlooks (h : TypePlace ts) :
    ∃ token us p, ts = token :: us ∧ extensibleDefinition? token.kind = some p ∧ Overlooks p ts := by
  cases h with
  | fields hkind hkey hinterfaces hdirectives hfields =>
    rcases hkind with hkind | hkind
    · exact ⟨_, _, objectDefinition, rfl, by rw [hkind]; rfl,
        overlooks_fieldedDefinition hkey hinterfaces hdirectives hfields⟩
    · exact ⟨_, _, interfaceDefinition, rfl, by rw [hkind]; rfl,
        overlooks_fieldedDefinition hkey hinterfaces hdirectives hfields⟩
  | values hkind hkey hdirectives hvalues =>
    exact ⟨_, _, enumDefinition, rfl, by rw [hkind]; rfl,
      overlooks_bracedDefinition overlooksItem_enumValueDef .enum hkey hdirectives hvalues⟩
  | inputs hkind hkey hdirectives hfields =>
    exact ⟨_, _, inputDefinition, rfl, by rw [hkind]; rfl,
      overlooks_bracedDefinition overlooksItem_inputValueDef .input hkey hdirectives hfields⟩

theorem DirectivePlace.overlooks (h : DirectivePlace ts) : Overlooks directiveDefinition ts := by
  obtain ⟨-, hat, hkey, hargs⟩ := h
  refine .nextOffset_bind (.advance_bind ?_)
  apply Overlooks.bind fun rest _ => Takes.expect hat _
  apply Overlooks.bind fun rest _ => Takes.name hkey _
  exact (overlooks_optionalItems overlooksItem_inputValueDef hargs).bind_left _

/-! ## Documents -/

/-- What is read behind the keyword of an extension. The definition is read from another state, with
    the same tokens. -/
theorem overlooks_extendedEntry {token : Token} {us : List Token} {p : Parser Definition}
    (offset : Nat) (hparser : extensibleDefinition? token.kind = some p)
    (hp : Overlooks p (token :: us)) : Overlooks (extendedEntry offset) (token :: us) := by
  intro s d rest hclear hd hrest
  have hread : ∀ ts, extendedEntry offset (s.facing (token :: us ++ ts)) =
      (p >>= fun extended => recordExtension s offset extended)
        ({ s with schemaSeen := false }.facing (token :: us ++ ts)) := by
    intro ts
    have hkind : (s.facing (token :: us ++ ts)).kind? = some token.kind := rfl
    unfold extendedEntry
    rw [get_bind, hkind, Option.bind_some, hparser]
    rfl
  rw [hread, hread]
  exact hp.bind_left _ { s with schemaSeen := false } d rest hclear hd hrest

theorem overlooks_entryAt {token : Token} {us : List Token} {p : Parser Definition}
    (hparser : extensibleDefinition? token.kind = some p) (hp : Overlooks p (token :: us)) :
    Overlooks (entryAt (some token.kind)) (token :: us) := by
  have hextend : token.kind ≠ .keyword .extend := by
    intro heq
    simp [heq, extensibleDefinition?] at hparser
  have hdirective : token.kind ≠ .keyword .directive := by
    intro heq
    simp [heq, extensibleDefinition?] at hparser
  rw [entryAt_eq hextend hdirective, hparser]
  exact hp.map _

theorem ItemPlace.overlooks (h : ItemPlace ts) : Overlooks entry ts := by
  rw [entry_eq]
  cases h with
  | type hd h =>
    obtain ⟨token, us, p, rfl, hparser, hp⟩ := h.overlooks
    apply Overlooks.bind fun rest _ => takes_description hd (free_extensible hparser _)
    exact .nextKind_bind (overlooks_entryAt hparser hp)
  | directive hd h =>
    have hp := h.overlooks
    obtain ⟨hkind, -, -, -⟩ := h
    apply Overlooks.bind fun rest _ => takes_description hd (free_keyword hkind _)
    refine .nextKind_bind ?_
    rw [hkind]
    exact hp.map _
  | extension hd hkind h =>
    obtain ⟨token, us, p, rfl, hparser, hp⟩ := h.overlooks
    apply Overlooks.bind fun rest _ => takes_description hd (free_keyword hkind _)
    refine .nextKind_bind ?_
    rw [hkind]
    show Overlooks Sdl.extension _
    rw [extension_eq]
    exact .nextOffset_bind (.advance_bind (overlooks_extendedEntry _ hparser hp))

theorem ItemPlace.starts (h : ItemPlace ts) : Starts TokenKind.startsItem ts := by
  cases h with
  | type hd h =>
    obtain ⟨token, us, p, rfl, hparser, -⟩ := h.overlooks
    refine hd.starts_append ⟨token, us, rfl, ?_⟩ rfl rfl
    unfold extensibleDefinition? at hparser
    split at hparser <;> simp_all [TokenKind.startsItem]
  | directive hd h =>
    obtain ⟨hkind, -, -, -⟩ := h
    exact hd.starts_append ⟨_, _, rfl, by simp [hkind, TokenKind.startsItem]⟩ rfl rfl
  | extension hd hkind _ =>
    exact hd.starts_append ⟨_, _, rfl, by simp [hkind, TokenKind.startsItem]⟩ rfl rfl

theorem free_of_startsItem (h : Starts TokenKind.startsItem ts) : Free continuations ts :=
  h.free (by simp [continuations, TokenKind.startsItem])

/-- Documents with the same items in front are read alike if the next items are. -/
theorem document_congr {us : List Token} {items : Document} (hitems : Many ItemPhrase us items)
    (hts : Starts TokenKind.startsItem ts) (hrest : Starts TokenKind.startsItem rest)
    (hlength : rest.length ≤ ts.length)
    (hentry : ∀ s : ParserState, s.Clear → entry (s.facing ts) = entry (s.facing rest))
    {ending : Ending} (hfault : ending.fault = none) {found : Document} {t : ParserState} :
    document (.start .skip ⟨us ++ ts, ending⟩) = .ok found t ↔
      document (.start .skip ⟨us ++ rest, ending⟩) = .ok found t := by
  rw [document_eq_repeatWhile .skip _ hfault, document_eq_repeatWhile .skip _ hfault]
  obtain ⟨hgives, hstops⟩ := repeatWhile_entry (s := .start .skip ⟨us ++ ts, ending⟩) hitems
    ⟨hfault, rfl⟩ rfl (free_of_startsItem hts)
  obtain ⟨hgives', hstops'⟩ := repeatWhile_entry (s := .start .skip ⟨us ++ rest, ending⟩) hitems
    ⟨hfault, rfl⟩ rfl (free_of_startsItem hrest)
  by_cases hadmitted : items.Admitted [] false
  · -- behind the items in front there are the two texts in the same state
    let s := ParserState.behind (.start .skip ⟨[], ending⟩) [] items
    have hloop : repeatWhile (fun s => !s.tokens.isEmpty) entry (s.facing ts) =
        repeatWhile (fun s => !s.tokens.isEmpty) entry (s.facing rest) := by
      refine repeatWhile_congr ?_ ?_ (hentry s ⟨hfault, rfl⟩) hlength fun e u hrun => ?_
      · simpa [ParserState.facing] using hts.ne_nil
      · simpa [ParserState.facing] using hrest.ne_nil
      · obtain ⟨vs, hleads, -, hitem⟩ := entry_ok (s := s.facing rest) (fun _ => hfault) hrun
        exact hleads.length_lt hitem.starts.ne_nil
    rw [hgives hadmitted, hgives' hadmitted, map_eq_pure_bind]
    exact iff_of_eq (congrArg (· = _) (bind_congr_run hloop _))
  · obtain ⟨fault, u, hstop⟩ := hstops hadmitted
    obtain ⟨fault', u', hstop'⟩ := hstops' hadmitted
    rw [hstop, hstop']
    simp

/-- **One description**: with it or without it, the same is read. -/
theorem Place.document_eq_ok {before behind : List Token} {d : Token} (h : Place before behind)
    (hd : DescriptionPhrase [d]) {ending : Ending} {items : Document} {t : ParserState} :
    document (.start .skip ⟨before ++ d :: behind, ending⟩) = .ok items t ↔
      document (.start .skip ⟨before ++ behind, ending⟩) = .ok items t := by
  by_cases hfault : ending.fault = none
  · cases h with
    | item hitems hbehind =>
      have hitem : Starts TokenKind.startsItem behind := hbehind.mono fun kind hkind => by
        cases kind <;> simp_all [TokenKind.startsDefinition, TokenKind.startsItem]
      have hdescription : Starts TokenKind.startsItem (d :: behind) := by
        cases hd with
        | string hkind _ => exact ⟨d, behind, rfl, by rw [hkind]; rfl⟩
        | blockString hkind => exact ⟨d, behind, rfl, by rw [hkind]; rfl⟩
      refine document_congr hitems hdescription hitem (by simp) (fun s hclear => ?_) hfault
      rw [entry_eq]
      exact description_bind_facing _ hclear hd (hbehind.free (by simp [TokenKind.startsDefinition]))
    | @member ts us items hbefore hitems hus hbehind =>
      subst hbefore
      rw [List.append_assoc, List.append_assoc]
      exact document_congr hitems (hus.starts.append _) (hus.starts.append _) (by simp)
        (fun s hclear => hus.overlooks s d behind hclear hd hbehind) hfault
    | broken hnone =>
      constructor <;> intro hrun <;> exact absurd (document_ok hrun).2.1 (hnone _ _)
  · constructor <;> intro hrun <;> exact absurd (document_ok hrun).1 hfault

/-- **Descriptions**: the same is read from tokens that are the same up to descriptions. -/
theorem SameUpToDescriptions.document_eq_ok {us : List Token} (h : SameUpToDescriptions ts us)
    {ending : Ending} {items : Document} {t : ParserState} :
    document (.start .skip ⟨ts, ending⟩) = .ok items t ↔
      document (.start .skip ⟨us, ending⟩) = .ok items t := by
  induction h with
  | rel ts us hadds =>
    obtain ⟨hplace, hd⟩ := hadds
    exact (hplace.document_eq_ok hd).symm
  | refl ts => exact Iff.rfl
  | symm ts us _ ih => exact ih.symm
  | trans ts us vs _ _ ih ih' => exact ih.trans ih'

end

end SchemaModel.Sdl
