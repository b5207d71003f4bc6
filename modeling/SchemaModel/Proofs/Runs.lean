import SchemaModel.Proofs.Parsing

/-! # Runs

    What a run of the parser has to do with the tokens that it steps over.

    * **Reads**: what a parser gives is what the tokens say that it has stepped over, and roots are
      left alone.
    * **Settled**: no malformed lexeme is next. Every step over a token sees to that.
    * **Prefix rules**: a sequence of steps is followed from the left, where each step adds its
      tokens to those that have been read. -/

namespace SchemaModel.Sdl

open SchemaModel.Sdl.Parser

/-! ## Runs -/

/-- No malformed lexeme is next. -/
def ParserState.Settled (s : ParserState) : Prop :=
  s.tokens = [] → s.ending.fault = none

/-- The run from `s` to `t` has stepped over the tokens `ts`, and nothing malformed follows them. -/
structure ParserState.Leads (s : ParserState) (ts : List Token) (t : ParserState) : Prop where
  tokens : s.tokens = ts ++ t.tokens
  ending : t.ending = s.ending
  settled : t.Settled

/-- The operations with a root type are the same, and so is whether a schema block has been read. -/
structure ParserState.SameRoots (s t : ParserState) : Prop where
  operations : t.operations = s.operations
  schemaSeen : t.schemaSeen = s.schemaSeen

/-- **Reads**: whatever the parser gives, from a state in front of which nothing is malformed, is
    said by the tokens that it has stepped over. -/
def ReadsAt {α : Type} (s : ParserState) (p : Parser α) (phrase : Phrase α) : Prop :=
  ∀ a t, p s = .ok a t → ∃ ts, s.Leads ts t ∧ s.SameRoots t ∧ phrase ts a

/-- A parser that reads phrases of one kind, whatever follows. -/
def Reads {α : Type} (p : Parser α) (phrase : Phrase α) : Prop :=
  ∀ s : ParserState, s.Settled → ReadsAt s p phrase

/-- A phrase without tokens. -/
def Nothing {α : Type} : Phrase α := fun ts _ => ts = []

namespace ParserState

variable {s t u : ParserState} {ts us : List Token}

theorem Leads.refl (h : s.Settled) : s.Leads [] s := ⟨rfl, rfl, h⟩

theorem Leads.trans (hst : s.Leads ts t) (htu : t.Leads us u) : s.Leads (ts ++ us) u :=
  ⟨by rw [hst.tokens, htu.tokens, List.append_assoc], htu.ending.trans hst.ending, htu.settled⟩

/-- A run over a phrase that is not empty takes tokens. -/
theorem Leads.length_lt (h : s.Leads ts t) (hne : ts ≠ []) : t.tokens.length < s.tokens.length := by
  have hpos := List.length_pos_iff.mpr hne
  rw [h.tokens, List.length_append]
  omega

theorem SameRoots.refl (s : ParserState) : s.SameRoots s := ⟨rfl, rfl⟩

theorem SameRoots.trans (hst : s.SameRoots t) (htu : t.SameRoots u) : s.SameRoots u :=
  ⟨htu.operations.trans hst.operations, htu.schemaSeen.trans hst.schemaSeen⟩

end ParserState

/-- A sequence gives what its second step gives, from where the first one ends. -/
theorem bind_ok_iff {α β : Type} {p : Parser α} {q : α → Parser β} {s u : ParserState} {b : β} :
    (p >>= q) s = .ok b u ↔ ∃ a t, p s = .ok a t ∧ q a t = .ok b u := by
  show EStateM.bind p q s = _ ↔ _
  unfold EStateM.bind
  cases p s with
  | ok a t =>
    constructor
    · exact fun h => ⟨a, t, rfl, h⟩
    · rintro ⟨_, _, ⟨⟩, h⟩
      exact h
  | error fault t => simp

theorem map_ok_iff {α β : Type} {p : Parser α} {f : α → β} {s u : ParserState} {b : β} :
    (f <$> p) s = .ok b u ↔ ∃ a, p s = .ok a u ∧ f a = b := by
  rw [map_eq_pure_bind, bind_ok_iff]
  constructor
  · rintro ⟨a, _, hrun, ⟨rfl, rfl⟩⟩
    exact ⟨a, hrun, rfl⟩
  · rintro ⟨a, hrun, rfl⟩
    exact ⟨a, u, hrun, rfl⟩

namespace ReadsAt

variable {α β : Type} {p : Parser α} {q : α → Parser β} {phrase : Phrase β} {s : ParserState}

theorem fail (fault : GrammarFault) (phrase : Phrase α) :
    ReadsAt s (fail fault : Parser α) phrase := by
  intro _ _ hrun
  cases hrun

theorem unexpected (expected : Expected) (phrase : Phrase α) :
    ReadsAt s (unexpected expected : Parser α) phrase := fail _ phrase

theorem imp {weaker : Phrase α} {phrase : Phrase α} (h : ReadsAt s p phrase)
    (himp : ∀ ts a, phrase ts a → weaker ts a) : ReadsAt s p weaker := by
  intro a t hrun
  obtain ⟨ts, hleads, hroots, hphrase⟩ := h a t hrun
  exact ⟨ts, hleads, hroots, himp ts a hphrase⟩

/-- A step whose tokens go in front of those that the next step reads. -/
theorem bind {first : Phrase α} (hp : ReadsAt s p first)
    (hq : ∀ ts a, first ts a → Reads (q a) fun us b => phrase (ts ++ us) b) :
    ReadsAt s (p >>= q) phrase := by
  intro b u hrun
  obtain ⟨a, t, hfirst, hsecond⟩ := bind_ok_iff.mp hrun
  obtain ⟨ts, hst, hstRoots, hphrase⟩ := hp a t hfirst
  obtain ⟨us, htu, htuRoots, hall⟩ := hq ts a hphrase t hst.settled b u hsecond
  exact ⟨ts ++ us, hst.trans htu, hstRoots.trans htuRoots, hall⟩

/-- A step that only looks at the state. -/
theorem get_bind {f : ParserState → Parser β} (h : ReadsAt s (f s) phrase) :
    ReadsAt s (get >>= f) phrase := h

theorem nextKind_bind {f : Option TokenKind → Parser β} (h : ReadsAt s (f s.kind?) phrase) :
    ReadsAt s (nextKind >>= f) phrase := h

theorem nextOffset_bind {f : Nat → Parser β} (h : ReadsAt s (f s.span.start) phrase) :
    ReadsAt s (nextOffset >>= f) phrase := h

/-- A step over a token that is known to be next. -/
theorem advance {token : Token} {ts : List Token} (hs : s.tokens = token :: ts) :
    ReadsAt s advance fun us (_ : Unit) => us = [token] := by
  intro _ t hrun
  rw [advance_eq, hs, List.tail_cons] at hrun
  split at hrun
  · cases hrun
  · rename_i hnone
    cases hrun
    refine ⟨[token], ⟨hs, rfl, fun hts => ?_⟩, ⟨rfl, rfl⟩, rfl⟩
    -- at the end of the tokens a malformed lexeme would have ended the parse
    cases hfault : s.ending.fault with
    | none => rfl
    | some fault => exact (hnone fault hts hfault).elim

end ReadsAt

theorem Reads.pure {α : Type} {phrase : Phrase α} {a : α} (h : phrase [] a) :
    Reads (Pure.pure a) phrase := by
  rintro s hs _ _ ⟨rfl, rfl⟩
  exact ⟨[], .refl hs, .refl s, h⟩

theorem ReadsAt.map {α β : Type} {p : Parser α} {phrase : Phrase β} {s : ParserState}
    {first : Phrase α} {f : α → β} (hp : ReadsAt s p first)
    (h : ∀ ts a, first ts a → phrase ts (f a)) : ReadsAt s (f <$> p) phrase := by
  rw [map_eq_pure_bind]
  exact hp.bind fun ts a hfirst => Reads.pure (by simpa using h ts a hfirst)

/-- The next token, if its kind is known. -/
theorem tokens_of_kind? {s : ParserState} {kind : TokenKind} (h : s.kind? = some kind) :
    ∃ token ts, s.tokens = token :: ts ∧ token.kind = kind := by
  cases hs : s.tokens with
  | nil => simp [ParserState.kind?, hs] at h
  | cons token ts => exact ⟨token, ts, rfl, by simpa [ParserState.kind?, hs] using h⟩

theorem Reads.meet (usage : Usage) : Reads (meet usage) Nothing := by
  intro s hs
  refine .get_bind ?_
  split
  · rintro _ _ ⟨rfl, rfl⟩
    exact ⟨[], ⟨rfl, rfl, hs⟩, ⟨rfl, rfl⟩, rfl⟩
  · exact .fail _ _

/-! ## Repetition -/

/-- What holds of a loop, by induction on its runs. Each run has to take a token. -/
theorem repeatWhile_induct {α : Type} {more : ParserState → Bool} {item : Parser α}
    (inv : ParserState → Prop) (motive : ParserState → List α → ParserState → Prop)
    (hitem : ∀ {s a t}, inv s → more s → item s = .ok a t →
      inv t ∧ t.tokens.length < s.tokens.length)
    (hstop : ∀ {s}, inv s → more s = false → motive s [] s)
    (hstep : ∀ {s a t as u}, inv s → more s → item s = .ok a t → motive t as u →
      motive s (a :: as) u)
    {s u : ParserState} {as : List α} (hs : inv s) (h : repeatWhile more item s = .ok as u) :
    motive s as u := by
  -- the loop checks that tokens are taken, and recurs on their number
  induction hn : s.tokens.length using Nat.strongRecOn generalizing s as with
  | ind n ih =>
    subst hn
    by_cases hmore : more s
    · rw [repeatWhile_eq_bind hmore] at h
      obtain ⟨a, t, hfirst, hothers⟩ := bind_ok_iff.mp h
      obtain ⟨ht, hlength⟩ := hitem hs hmore hfirst
      rw [othersWhile_of_lt hlength, map_eq_pure_bind] at hothers
      obtain ⟨others, v, hrest, hlast⟩ := bind_ok_iff.mp hothers
      cases hlast
      exact hstep hs hmore hfirst (ih _ hlength ht hrest rfl)
    · rw [Bool.not_eq_true] at hmore
      rw [repeatWhile_stop hmore] at h
      cases h
      exact hstop hs hmore

section

variable {α : Type} {more : ParserState → Bool} {item : Parser α} {phrase : Phrase α}
  {s t : ParserState} {as : List α}

/-- A loop reads one phrase after the other, and ends where no more are to come. -/
theorem repeatWhile_ok (hitem : ∀ s : ParserState, s.Settled → more s → ReadsAt s item phrase)
    (hphrase : ∀ {ts a}, phrase ts a → ts ≠ []) (hs : s.Settled)
    (h : repeatWhile more item s = .ok as t) :
    ∃ ts, s.Leads ts t ∧ s.SameRoots t ∧ Many phrase ts as ∧ more t = false := by
  refine repeatWhile_induct ParserState.Settled (fun s as t =>
    ∃ ts, s.Leads ts t ∧ s.SameRoots t ∧ Many phrase ts as ∧ more t = false) ?_ ?_ ?_ hs h
  · intro s a t hs hmore hrun
    obtain ⟨ts, hleads, -, ha⟩ := hitem s hs hmore a t hrun
    exact ⟨hleads.settled, hleads.length_lt (hphrase ha)⟩
  · intro s hs hmore
    exact ⟨[], .refl hs, .refl s, .nil, hmore⟩
  · rintro s a t as u hs hmore hrun ⟨us, htu, htuRoots, has, hend⟩
    obtain ⟨ts, hst, hstRoots, ha⟩ := hitem s hs hmore a t hrun
    exact ⟨ts ++ us, hst.trans htu, hstRoots.trans htuRoots, .cons ha has, hend⟩

theorem reads_repeatWhile (hitem : ∀ s : ParserState, s.Settled → more s → ReadsAt s item phrase)
    (hphrase : ∀ {ts a}, phrase ts a → ts ≠ []) : Reads (repeatWhile more item) (Many phrase) := by
  intro s hs as t hrun
  obtain ⟨ts, hleads, hroots, has, -⟩ := repeatWhile_ok hitem hphrase hs hrun
  exact ⟨ts, hleads, hroots, has⟩

theorem tokens_of_isAt {mark : Punctuator} (h : s.isAt mark) :
    ∃ token ts, s.tokens = token :: ts ∧ token.kind = .punctuator mark :=
  tokens_of_kind? (by simpa [ParserState.isAt] using h)

end

end SchemaModel.Sdl
