import SchemaModel.Proofs.Runs
import SchemaModel.Proofs.Spelling

/-! # Completions

    Wherever the parser stops inside a phrase, the tokens that it has stepped over can be completed to one.

    * **Writable**: tokens that can be written down wherever they are asked for.
    * **Completable**: tokens that become a phrase with writable ones behind them.
    * **StopsIn**: where a run stops, the fault points at the next token, and the tokens in front of that are
      completable.
    * **Finishes**: a parser that reads phrases of a kind and stops in nothing but such phrases. Every parser
      of the grammar that leaves the roots alone does. -/

namespace SchemaModel.Sdl

open SchemaModel.Sdl.Parser

/-! ## Writable Tokens -/

/-- **Writable**: each of the tokens has a text that is scanned as it, wherever it stands. -/
def Writable (ts : List Token) : Prop := ∀ token ∈ ts, token.Portable

theorem writable_nil : Writable [] := by simp [Writable]

theorem Writable.append {ts us : List Token} (hts : Writable ts) (hus : Writable us) :
    Writable (ts ++ us) :=
  List.forall_mem_append.mpr ⟨hts, hus⟩

theorem writable_mark (mark : Punctuator) : Writable [markToken mark] := by
  simpa [Writable] using portable_markToken mark

theorem writable_keyword (word : Keyword) : Writable [keywordToken word] := by
  simpa [Writable] using portable_keywordToken word

/-- **Completable**: with some writable tokens behind them, the tokens are a phrase. -/
def Completable {α : Type} (phrase : Phrase α) (ts : List Token) : Prop :=
  ∃ us a, Writable us ∧ phrase (ts ++ us) a

section

variable {α β : Type} {phrase : Phrase α} {ts us : List Token} {a : α}

/-- A phrase is complete. -/
theorem completable_of_phrase (h : phrase ts a) : Completable phrase ts :=
  ⟨[], a, writable_nil, by simpa using h⟩

theorem Completable.imp {other : Phrase β} (h : Completable phrase ts)
    (himp : ∀ us a, phrase (ts ++ us) a → ∃ b, other (ts ++ us) b) : Completable other ts := by
  obtain ⟨us, a, hus, ha⟩ := h
  obtain ⟨b, hb⟩ := himp us a ha
  exact ⟨us, b, hus, hb⟩

/-- What can be completed behind some tokens is completable together with them. -/
theorem completable_behind :
    Completable (fun vs => phrase (ts ++ vs)) us ↔ Completable phrase (ts ++ us) := by
  simp only [Completable, List.append_assoc]

/-- The tokens are completed to a first part, and then to the whole. -/
theorem Completable.trans {first : Phrase β} (h : Completable first ts)
    (hrest : ∀ us b, first us b → Completable phrase us) : Completable phrase ts := by
  obtain ⟨us, b, hus, hb⟩ := h
  obtain ⟨vs, a, hvs, ha⟩ := hrest _ b hb
  exact ⟨us ++ vs, a, hus.append hvs, by rwa [← List.append_assoc]⟩

/-- A missing token is written. -/
theorem completable_mark (mark : Punctuator) (h : phrase (ts ++ [markToken mark]) a) :
    Completable phrase ts := ⟨_, a, writable_mark mark, h⟩

theorem completable_keyword (word : Keyword) (h : phrase (ts ++ [keywordToken word]) a) :
    Completable phrase ts := ⟨_, a, writable_keyword word, h⟩

/-- A missing name is written. -/
theorem completable_name : Completable NamePhrase [] :=
  completable_keyword .type (.intro rfl)

end

/-! ## Where a Run Stops -/

/-- From `s` to `t`, the tokens `ts` have been stepped over. -/
structure ParserState.Precedes (s : ParserState) (ts : List Token) (t : ParserState) : Prop where
  tokens : s.tokens = ts ++ t.tokens
  ending : t.ending = s.ending

namespace ParserState

variable {s t u : ParserState} {ts us : List Token}

theorem Precedes.refl (s : ParserState) : s.Precedes [] s := ⟨rfl, rfl⟩

theorem Precedes.trans (hst : s.Precedes ts t) (htu : t.Precedes us u) : s.Precedes (ts ++ us) u :=
  ⟨by rw [hst.tokens, htu.tokens, List.append_assoc], htu.ending.trans hst.ending⟩

theorem Leads.precedes (h : s.Leads ts t) : s.Precedes ts t := ⟨h.tokens, h.ending⟩

end ParserState

/-- **Stops in**: where the parser stops, the fault points at the next token, and what it has stepped over
    is completable to a phrase. -/
def StopsIn {α β : Type} (s : ParserState) (p : Parser α) (phrase : Phrase β) : Prop :=
  ∀ fault u, p s = .error fault u →
    fault.span = u.span ∧ ∃ ts, s.Precedes ts u ∧ Completable phrase ts

namespace StopsIn

variable {α β γ : Type} {p : Parser α} {q : α → Parser β} {phrase : Phrase γ} {s : ParserState}

/-- What gives a result does not stop. -/
theorem of_ok {a : α} {t : ParserState} (h : p s = .ok a t) : StopsIn s p phrase := by
  intro fault u hstop
  rw [h] at hstop
  cases hstop

/-- A fault at the next token. -/
theorem fail (fault : GrammarFault) (h : Completable phrase []) :
    StopsIn s (fail fault : Parser α) phrase := by
  intro _ u hstop
  cases hstop
  exact ⟨rfl, [], .refl s, h⟩

theorem unexpected (expected : Expected) (h : Completable phrase []) :
    StopsIn s (unexpected expected : Parser α) phrase := fail _ h

theorem imp {δ : Type} {other : Phrase δ} (h : StopsIn s p phrase)
    (himp : ∀ ts, Completable phrase ts → Completable other ts) : StopsIn s p other := by
  intro fault u hstop
  obtain ⟨hspan, ts, hsu, hphrase⟩ := h fault u hstop
  exact ⟨hspan, ts, hsu, himp ts hphrase⟩

/-- **Sequences**: a first part can be completed to the whole, and the second step stops in what is missing
    behind what the first one has read. -/
theorem bind {δ : Type} {first : Phrase δ} (hp : StopsIn s p first)
    (hbegun : ∀ ts d, first ts d → Completable phrase ts)
    (hq : ∀ a t, p s = .ok a t →
      ∃ ts, s.Precedes ts t ∧ StopsIn t (q a) fun us => phrase (ts ++ us)) :
    StopsIn s (p >>= q) phrase := by
  intro fault u hstop
  cases hrun : p s with
  | error fault' t =>
    rw [bind_of_error hrun] at hstop
    cases hstop
    obtain ⟨hspan, ts, hsu, hfirst⟩ := hp _ _ hrun
    exact ⟨hspan, ts, hsu, hfirst.trans hbegun⟩
  | ok a t =>
    rw [bind_of_ok hrun] at hstop
    obtain ⟨ts, hst, hrest⟩ := hq a t hrun
    obtain ⟨hspan, us, htu, hphrase⟩ := hrest fault u hstop
    exact ⟨hspan, ts ++ us, hst.trans htu, completable_behind.mp hphrase⟩

theorem get_bind {f : ParserState → Parser β} (h : StopsIn s (f s) phrase) :
    StopsIn s (get >>= f) phrase := h

theorem nextKind_bind {f : Option TokenKind → Parser β} (h : StopsIn s (f s.kind?) phrase) :
    StopsIn s (nextKind >>= f) phrase := h

theorem nextOffset_bind {f : Nat → Parser β} (h : StopsIn s (f s.span.start) phrase) :
    StopsIn s (nextOffset >>= f) phrase := h

theorem map (f : α → β) (hp : StopsIn s p phrase) : StopsIn s (f <$> p) phrase := by
  rw [map_eq_pure_bind]
  intro fault u hstop
  cases hrun : p s with
  | error fault' t =>
    rw [bind_of_error hrun] at hstop
    cases hstop
    exact hp _ _ hrun
  | ok a t =>
    rw [bind_of_ok hrun] at hstop
    cases hstop

/-- **Loops**: if an item stops in what completes the whole, and the whole is what an item reads together
    with the whole behind it, then the loop stops in the whole. -/
theorem repeatWhile {more : ParserState → Bool} (inv : ParserState → Prop)
    (whole : ParserState → Phrase γ) (hitem : ∀ s, inv s → more s → StopsIn s p (whole s))
    (hstep : ∀ s a t, inv s → more s → p s = .ok a t →
      inv t ∧ t.tokens.length < s.tokens.length ∧ ∃ ts, s.Precedes ts t ∧
        ∀ us, Completable (whole t) us → Completable (whole s) (ts ++ us))
    (hs : inv s) : StopsIn s (repeatWhile more p) (whole s) := by
  induction hn : s.tokens.length using Nat.strongRecOn generalizing s with
  | ind n ih =>
    subst hn
    intro fault u hstop
    by_cases hmore : more s
    · rw [repeatWhile_eq_bind hmore] at hstop
      cases hrun : p s with
      | error fault' t =>
        rw [bind_of_error hrun] at hstop
        cases hstop
        exact hitem s hs hmore _ _ hrun
      | ok a t =>
        obtain ⟨ht, hlength, ts, hst, hwhole⟩ := hstep s a t hs hmore hrun
        rw [bind_of_ok hrun, othersWhile_of_lt hlength] at hstop
        obtain ⟨hspan, us, htu, hus⟩ := (ih _ hlength ht rfl).map _ fault u hstop
        exact ⟨hspan, ts ++ us, hst.trans htu, hwhole us hus⟩
    · rw [repeatWhile_stop (by simpa using hmore)] at hstop
      cases hstop

end StopsIn

/-! ## Parsers that Finish -/

/-- A run that reads a phrase or stops in one. -/
structure FinishesAt {α : Type} (s : ParserState) (p : Parser α) (phrase : Phrase α) : Prop where
  reads : ReadsAt s p phrase
  stops : StopsIn s p phrase

/-- **Finishes**: the parser reads phrases of one kind, there is such a phrase that can be written, and the
    parser stops in nothing else. -/
structure Finishes {α : Type} (p : Parser α) (phrase : Phrase α) : Prop where
  reads : Reads p phrase
  begun : Completable phrase []
  stops : ∀ s : ParserState, s.Settled → StopsIn s p phrase

theorem Finishes.at {α : Type} {p : Parser α} {phrase : Phrase α} (h : Finishes p phrase)
    {s : ParserState} (hs : s.Settled) : FinishesAt s p phrase := ⟨h.reads s hs, h.stops s hs⟩

theorem finishes_of_at {α : Type} {p : Parser α} {phrase : Phrase α} (hbegun : Completable phrase [])
    (h : ∀ s : ParserState, s.Settled → FinishesAt s p phrase) : Finishes p phrase :=
  ⟨fun s hs => (h s hs).reads, hbegun, fun s hs => (h s hs).stops⟩

/-- A later step of a sequence stops in what is missing behind that which the first ones have read. -/
theorem FinishesAt.stops_bind {α β γ : Type} {s : ParserState} {p : Parser α} {q : α → Parser β}
    {first : Phrase α} {phrase : Phrase γ} (hp : FinishesAt s p first)
    (hbegun : ∀ ts a, first ts a → Completable phrase ts)
    (hq : ∀ ts a t, first ts a → s.Leads ts t → s.SameRoots t →
      StopsIn t (q a) fun us => phrase (ts ++ us)) : StopsIn s (p >>= q) phrase := by
  refine hp.stops.bind hbegun fun a t hrun => ?_
  obtain ⟨ts, hleads, hroots, hfirst⟩ := hp.reads a t hrun
  exact ⟨ts, hleads.precedes, hq ts a t hfirst hleads hroots⟩

namespace FinishesAt

variable {α β : Type} {p : Parser α} {q : α → Parser β} {phrase : Phrase β} {s : ParserState}

theorem fail {phrase : Phrase α} (fault : GrammarFault) (h : Completable phrase []) :
    FinishesAt s (fail fault : Parser α) phrase := ⟨.fail fault phrase, .fail fault h⟩

theorem unexpected {phrase : Phrase α} (expected : Expected) (h : Completable phrase []) :
    FinishesAt s (unexpected expected : Parser α) phrase :=
  ⟨.unexpected expected phrase, .unexpected expected h⟩

theorem imp {weaker phrase : Phrase α} (h : FinishesAt s p phrase)
    (himp : ∀ ts a, phrase ts a → weaker ts a) : FinishesAt s p weaker :=
  ⟨h.reads.imp himp, h.stops.imp fun _ hphrase => hphrase.imp fun _ a ha => ⟨a, himp _ a ha⟩⟩

theorem bind {first : Phrase α} (hp : FinishesAt s p first)
    (hq : ∀ ts a, first ts a → Finishes (q a) fun us b => phrase (ts ++ us) b) :
    FinishesAt s (p >>= q) phrase where
  reads := hp.reads.bind fun ts a ha => (hq ts a ha).reads
  stops := by
    refine hp.stops_bind (fun ts a ha => ?_) fun ts a t ha hleads _ => (hq ts a ha).stops t hleads.settled
    simpa using completable_behind.mp (hq ts a ha).begun

theorem map {first : Phrase α} {f : α → β} (hp : FinishesAt s p first)
    (h : ∀ ts a, first ts a → phrase ts (f a)) : FinishesAt s (f <$> p) phrase :=
  ⟨hp.reads.map h, (hp.stops.map f).imp fun _ hfirst => hfirst.imp fun _ a ha => ⟨f a, h _ a ha⟩⟩

theorem get_bind {f : ParserState → Parser β} (h : FinishesAt s (f s) phrase) :
    FinishesAt s (get >>= f) phrase := ⟨.get_bind h.reads, .get_bind h.stops⟩

theorem nextKind_bind {f : Option TokenKind → Parser β} (h : FinishesAt s (f s.kind?) phrase) :
    FinishesAt s (nextKind >>= f) phrase := ⟨.nextKind_bind h.reads, .nextKind_bind h.stops⟩

theorem nextOffset_bind {f : Nat → Parser β} (h : FinishesAt s (f s.span.start) phrase) :
    FinishesAt s (nextOffset >>= f) phrase := ⟨.nextOffset_bind h.reads, .nextOffset_bind h.stops⟩

/-- A step over a token stops behind it, at a malformed lexeme. -/
theorem advance {token : Token} {ts : List Token} (hs : s.tokens = token :: ts) :
    FinishesAt s advance fun us (_ : Unit) => us = [token] where
  reads := .advance hs
  stops := by
    intro fault u hstop
    rw [advance_eq, hs, List.tail_cons] at hstop
    split at hstop
    · cases hstop
      exact ⟨rfl, [token], ⟨hs, rfl⟩, completable_of_phrase (a := ()) rfl⟩
    · cases hstop

theorem advance_bind {token : Token} {ts : List Token} {f : Unit → Parser β}
    (hs : s.tokens = token :: ts) (h : Finishes (f ()) fun us b => phrase (token :: us) b) :
    FinishesAt s (Parser.advance >>= f) phrase :=
  (advance hs).bind fun _ _ hus => hus ▸ h

end FinishesAt

namespace Finishes

variable {α β : Type} {p : Parser α} {q : α → Parser β} {phrase : Phrase β}

theorem pure {a : β} (h : phrase [] a) : Finishes (Pure.pure a) phrase :=
  ⟨.pure h, completable_of_phrase h, fun _ _ => .of_ok rfl⟩

theorem imp {weaker phrase : Phrase α} (h : Finishes p phrase)
    (himp : ∀ ts a, phrase ts a → weaker ts a) : Finishes p weaker :=
  finishes_of_at (h.begun.imp fun _ a ha => ⟨a, himp _ a ha⟩) fun _ hs => (h.at hs).imp himp

theorem bind {first : Phrase α} (hp : Finishes p first)
    (hq : ∀ ts a, first ts a → Finishes (q a) fun us b => phrase (ts ++ us) b) :
    Finishes (p >>= q) phrase :=
  finishes_of_at (hp.begun.trans fun ts a ha => by simpa using completable_behind.mp (hq ts a ha).begun)
    fun _ hs => (hp.at hs).bind hq

/-- The last step of a sequence. -/
theorem bind_pure {first : Phrase α} {f : α → β} (hp : Finishes p first)
    (h : ∀ ts a, first ts a → phrase ts (f a)) : Finishes (p >>= fun a => Pure.pure (f a)) phrase :=
  hp.bind fun ts a hfirst => pure (by simpa using h ts a hfirst)

theorem map {first : Phrase α} {f : α → β} (hp : Finishes p first)
    (h : ∀ ts a, first ts a → phrase ts (f a)) : Finishes (f <$> p) phrase :=
  finishes_of_at (hp.begun.imp fun _ a ha => ⟨f a, h _ a ha⟩) fun _ hs => (hp.at hs).map h

/-- A step that reads nothing. -/
theorem bind_nothing (hp : Finishes p Nothing) (hq : ∀ a, Finishes (q a) phrase) :
    Finishes (p >>= q) phrase :=
  hp.bind fun ts a hts => by simpa [show ts = [] from hts] using hq a

/-! ## Single Steps -/

theorem eat (kind : TokenKind) :
    Finishes (eat kind) fun ts eaten => if eaten then Lone kind ts else ts = [] := by
  refine finishes_of_at (completable_of_phrase (a := false) rfl) fun s hs => .nextKind_bind ?_
  split
  · rename_i hkind
    obtain ⟨token, ts, htokens, hkind⟩ := tokens_of_kind? (by simpa using hkind)
    exact .advance_bind htokens (pure ⟨token, hkind, rfl⟩)
  · exact (pure (by simp)).at hs

theorem eat_perhaps (kind : TokenKind) : Finishes (Parser.eat kind) fun ts _ => Perhaps kind ts := by
  refine (eat kind).imp fun ts eaten hts => ?_
  cases eaten with
  | true => exact .inr hts
  | false => exact .inl hts

theorem expect (kind : TokenKind) (h : Completable (fun ts (_ : Unit) => Lone kind ts) []) :
    Finishes (expect kind) fun ts _ => Lone kind ts := by
  refine finishes_of_at h fun s hs => .nextKind_bind ?_
  split
  · rename_i hkind
    obtain ⟨token, ts, htokens, hkind⟩ := tokens_of_kind? (by simpa using hkind)
    exact (FinishesAt.advance htokens).imp fun _ _ hts => ⟨token, hkind, hts⟩
  · exact .unexpected _ h

theorem expectMark (mark : Punctuator) :
    Finishes (expectMark mark) fun ts _ => Lone (.punctuator mark) ts :=
  expect _ (completable_mark mark (a := ()) (lone_markToken mark))

theorem expectKeyword (word : Keyword) :
    Finishes (Parser.expect (.keyword word)) fun ts _ => Lone (.keyword word) ts :=
  expect _ (completable_keyword word (a := ()) (lone_keywordToken word))

theorem name : Finishes name NamePhrase := by
  refine finishes_of_at completable_name fun s hs => .get_bind ?_
  split
  · rename_i token ts htokens
    split
    · rename_i hname
      exact .advance_bind htokens (pure (.intro hname))
    · exact .unexpected _ completable_name
  · exact .unexpected _ completable_name

theorem meet (usage : Usage) : Finishes (meet usage) Nothing := by
  have hnothing : Completable (Nothing : Phrase Unit) [] := completable_of_phrase (a := ()) rfl
  refine ⟨.meet usage, hnothing, fun s hs => ?_⟩
  refine StopsIn.get_bind ?_
  split
  · exact .of_ok rfl
  · exact .fail _ hnothing

end Finishes

/-! ## Repetition -/

section

variable {α : Type} {more : ParserState → Bool} {item : Parser α} {phrase : Phrase α}

/-- One more phrase in front of those that are completed. -/
theorem Completable.many_cons {ts us : List Token} {a : α} (ha : phrase ts a)
    (h : Completable (Many phrase) us) : Completable (Many phrase) (ts ++ us) := by
  obtain ⟨vs, as, hvs, has⟩ := h
  exact ⟨vs, a :: as, hvs, List.append_assoc _ _ _ ▸ .cons ha has⟩

theorem Completable.many {ts : List Token} (h : Completable phrase ts) :
    Completable (Many phrase) ts :=
  h.imp fun _ a ha => ⟨[a], by simpa using Many.cons ha .nil⟩

theorem finishes_repeatWhile
    (hitem : ∀ s : ParserState, s.Settled → more s → FinishesAt s item phrase)
    (hphrase : ∀ {ts a}, phrase ts a → ts ≠ []) : Finishes (repeatWhile more item) (Many phrase) := by
  refine ⟨reads_repeatWhile (fun s hs hmore => (hitem s hs hmore).reads) hphrase,
    completable_of_phrase .nil, fun s hs => ?_⟩
  refine StopsIn.repeatWhile ParserState.Settled (fun _ => Many phrase) ?_ ?_ hs
  · exact fun s hs hmore => (hitem s hs hmore).stops.imp fun _ h => h.many
  · intro s a t hs hmore hrun
    obtain ⟨ts, hleads, -, ha⟩ := (hitem s hs hmore).reads a t hrun
    exact ⟨hleads.settled, hleads.length_lt (hphrase ha), ts, hleads.precedes, fun us h => h.many_cons ha⟩

/-- Where no more items come, the closing punctuator does. -/
theorem finishesAt_closing {s : ParserState} {close : Punctuator} (h : (!s.isAt close) = false) (as : List α) :
    FinishesAt s (do advance; return as) fun ts bs => Lone (.punctuator close) ts ∧ bs = as := by
  obtain ⟨token, ts, htokens, hkind⟩ := @tokens_of_isAt s close (by simpa using h)
  exact .advance_bind htokens (.pure ⟨⟨token, hkind, rfl⟩, rfl⟩)

/-- Items up to a closing punctuator are completed by it. -/
theorem finishes_itemsUntil (close : Punctuator) (hitem : Finishes item phrase)
    (hphrase : ∀ {ts a}, phrase ts a → ts ≠ []) :
    Finishes (itemsUntil close item) fun ts as =>
      ∃ us vs, Many phrase us as ∧ Lone (.punctuator close) vs ∧ ts = us ++ vs := by
  have hclosed : ∀ ts as, Many phrase ts as → Completable (fun ts as =>
      ∃ us vs, Many phrase us as ∧ Lone (.punctuator close) vs ∧ ts = us ++ vs) ts := fun ts as has =>
    completable_mark close ⟨ts, [markToken close], has, lone_markToken close, rfl⟩
  have hloop : Finishes (repeatWhile (fun s => !s.isAt close) item) (Many phrase) :=
    finishes_repeatWhile (fun s hs _ => hitem.at hs) hphrase
  -- what the loop reads does not tell that it has ended at the punctuator
  have hend := fun s hs as t => @repeatWhile_ok _ (fun s => !s.isAt close) item phrase s t as
    (fun s hs _ => hitem.reads s hs) hphrase hs
  refine ⟨fun s hs as u hrun => ?_, hclosed [] [] .nil, fun s hs => ?_⟩
  · obtain ⟨found, t, hrun, hlast⟩ := bind_ok_iff.mp hrun
    obtain ⟨us, hst, hstRoots, has, hclose⟩ := hend s hs found t hrun
    obtain ⟨vs, htu, htuRoots, hvs, rfl⟩ := (finishesAt_closing hclose found).reads as u hlast
    exact ⟨us ++ vs, hst.trans htu, hstRoots.trans htuRoots, us, vs, has, hvs, rfl⟩
  · refine (hloop.stops s hs).bind hclosed fun as t hrun => ?_
    obtain ⟨us, hleads, -, has, hclose⟩ := hend s hs as t hrun
    refine ⟨us, hleads.precedes, ((finishesAt_closing hclose as).imp fun vs bs h => ?_).stops⟩
    obtain ⟨hvs, rfl⟩ := h
    exact ⟨us, vs, has, hvs, rfl⟩

theorem finishes_optionalItems (openMark closeMark : Punctuator) (hitem : Finishes item phrase)
    (hphrase : ∀ {ts a}, phrase ts a → ts ≠ []) :
    Finishes (optionalItems openMark closeMark item) (Enclosed openMark closeMark phrase) := by
  refine (Finishes.eat _).bind fun ts eaten hts => ?_
  cases eaten with
  | true =>
    refine (finishes_itemsUntil closeMark hitem hphrase).imp fun _ as h => ?_
    obtain ⟨us, vs, has, hvs, rfl⟩ := h
    exact .present hts has hvs
  | false =>
    obtain rfl : ts = [] := hts
    exact .pure .absent

theorem finishes_separatedBy (mark : Punctuator) (hitem : Finishes item phrase) :
    Finishes (separatedBy mark item) (Separated mark phrase) := by
  have hnext : ∀ s : ParserState, s.Settled → s.isAt mark → FinishesAt s (do advance; item)
      fun vs b => ∃ ms ws, Lone (.punctuator mark) ms ∧ phrase ws b ∧ vs = ms ++ ws := by
    intro s _ hmark
    obtain ⟨token, ts, htokens, hkind⟩ := tokens_of_isAt hmark
    refine .advance_bind htokens (hitem.imp fun ws b hws => ?_)
    exact ⟨[token], ws, ⟨token, hkind, rfl⟩, hws, rfl⟩
  refine hitem.bind fun ts a ha => ?_
  refine (finishes_repeatWhile hnext fun h => ?_).bind_pure fun us as has => .intro ha has
  obtain ⟨_, ws, ⟨token, -, rfl⟩, -, rfl⟩ := h
  simp

end

/-! ## Values and Types -/

theorem finishes_objectEntry {value : Parser Value} {phrase : Phrase Value}
    (h : Finishes value phrase) : Finishes (objectEntry value) (EntryOf phrase) := by
  refine Finishes.name.bind fun ks key hkey => ?_
  refine (Finishes.expectMark _).bind fun cs _ hcolon => ?_
  exact h.bind_pure fun vs v hv => .intro hkey hcolon hv

/-- A missing value is written as a word. -/
theorem completable_value (levels : Nat) : Completable (ValuePhrase levels) [] :=
  completable_keyword .nullValue ((PlainValue.nullValue rfl).valuePhrase levels)

/-- A value is finished if the values of one level less are. -/
theorem finishes_value_of_inner {levels : Nat}
    (hinner : ∀ below, levels = below + 1 → Finishes (value below) (ValuePhrase below)) :
    Finishes (value levels) (ValuePhrase levels) := by
  have hplain : ∀ {s : ParserState} {token : Token} {ts : List Token} {v : Value},
      s.tokens = token :: ts → PlainValue [token] v →
      FinishesAt s (do advance; return v) (ValuePhrase levels) :=
    fun htokens h => .advance_bind htokens (.pure (h.valuePhrase levels))
  refine finishes_of_at (completable_value levels) fun s hs => ?_
  unfold value
  refine .get_bind ?_
  split
  · exact .unexpected _ (completable_value levels)
  · rename_i token ts htokens
    -- one case for each kind of token that a value begins with
    split
    · exact hplain htokens (.int ‹_›)
    · exact hplain htokens (.float ‹_›)
    · split
      · exact hplain htokens (.string ‹_› ‹_›)
      · exact .fail _ (completable_value levels)
    · exact hplain htokens (.blockString ‹_›)
    · exact hplain htokens (.trueValue ‹_›)
    · exact hplain htokens (.falseValue ‹_›)
    · exact hplain htokens (.nullValue ‹_›)
    · rename_i hkind
      exact hplain htokens (.enum (by rw [hkind]; rfl) (by simp [hkind]) (by simp [hkind])
        (by simp [hkind]))
    · rename_i htrue hfalse hnull hkind
      exact hplain htokens (.enum (by rw [hkind]; rfl) (by simpa [hkind] using htrue)
        (by simpa [hkind] using hfalse) (by simpa [hkind] using hnull))
    · rename_i hkind
      cases levels with
      | zero => exact .fail _ (completable_value 0)
      | succ levels =>
        refine .advance_bind htokens ?_
        refine (finishes_itemsUntil _ (hinner levels rfl) fun h => h.starts.ne_nil).bind_pure
          fun _ items h => ?_
        obtain ⟨us, vs, hitems, hclose, rfl⟩ := h
        exact ValueAround.list ⟨token, hkind, rfl⟩ hitems hclose
    · rename_i hkind
      cases levels with
      | zero => exact .fail _ (completable_value 0)
      | succ levels =>
        refine .advance_bind htokens ?_
        refine (finishes_itemsUntil _ (finishes_objectEntry (hinner levels rfl)) fun h =>
          h.starts.ne_nil).bind_pure fun _ entries h => ?_
        obtain ⟨us, vs, hentries, hclose, rfl⟩ := h
        exact ValueAround.object ⟨token, hkind, rfl⟩ hentries hclose
    · exact .unexpected _ (completable_value levels)

theorem finishes_value (levels : Nat) : Finishes (value levels) (ValuePhrase levels) := by
  induction levels with
  | zero => exact finishes_value_of_inner (by simp)
  | succ levels ih => exact finishes_value_of_inner fun below hbelow => Nat.succ.inj hbelow ▸ ih

theorem finishes_bang {bare : Phrase (TypeRef String)} {ts : List Token} {type : TypeRef String}
    (h : bare ts type) : Finishes (bang type) fun us result => Banged bare (ts ++ us) result := by
  refine (Finishes.eat _).bind fun us eaten hus => ?_
  cases eaten with
  | true => exact .pure (by simpa using Banged.nonNull h hus)
  | false =>
    obtain rfl : us = [] := hus
    exact .pure (by simpa using Banged.plain h)

/-- A type is finished, with its bang, if the types of one level less are. -/
theorem finishes_typeRef_of_inner {levels : Nat} {inner : Phrase (TypeRef String)}
    (hinner : ∀ below, levels = below + 1 → Finishes (typeRef below) inner) :
    Finishes (typeRef levels) (Banged (BareType inner)) := by
  have hnamed : Completable (Banged (BareType inner)) [] :=
    completable_name.imp fun _ key hkey => ⟨_, .plain (.named hkey)⟩
  refine finishes_of_at hnamed fun s hs => ?_
  unfold typeRef
  refine .get_bind ?_
  split
  · exact .unexpected _ hnamed
  · rename_i token ts htokens
    split
    · rename_i hkind
      cases levels with
      | zero => exact .fail _ hnamed
      | succ levels =>
        refine .advance_bind htokens ((hinner levels rfl).bind fun is item hitem => ?_)
        refine (Finishes.expectMark _).bind fun cs _ hclose => ?_
        have hlist := BareType.list ⟨token, hkind, rfl⟩ hitem hclose
        exact (finishes_bang hlist).imp fun us type hus => by simpa using hus
    · split
      · exact (Finishes.name.bind fun ks key hkey => finishes_bang (.named hkey)).at hs
      · exact .unexpected _ hnamed

theorem finishes_typeRef (levels : Nat) : Finishes (typeRef levels) (TypeRefPhrase levels) := by
  induction levels with
  | zero => exact finishes_typeRef_of_inner (by simp)
  | succ levels ih => exact finishes_typeRef_of_inner fun below hbelow => Nat.succ.inj hbelow ▸ ih

/-! ## Descriptions and Directives -/

/-- At a string, what is finished is the string. In its place there may be none. -/
theorem finishesAt_string {s : ParserState} (h : s.kind? = some .string) (levels : Nat) :
    FinishesAt s (value levels) fun ts _ => DescriptionPhrase ts := by
  obtain ⟨token, ts, htokens, hkind⟩ := tokens_of_kind? h
  unfold value
  refine .get_bind ?_
  simp only [htokens, hkind]
  split
  · exact .advance_bind htokens (.pure (.string hkind ‹_›))
  · exact .fail _ (completable_of_phrase (a := .null) .absent)

theorem finishes_description : Finishes description fun ts _ => DescriptionPhrase ts := by
  refine finishes_of_at (completable_of_phrase (a := ()) .absent) fun s hs => .nextKind_bind ?_
  split
  · rename_i hkind
    exact (finishesAt_string hkind nestingLimit).map (f := fun _ => ()) fun _ _ hd => hd
  · rename_i hkind
    obtain ⟨token, ts, htokens, hkind⟩ := tokens_of_kind? hkind
    exact (FinishesAt.advance htokens).imp fun _ _ hts => hts ▸ .blockString hkind
  · exact (Finishes.pure .absent).at hs

theorem finishesAt_directive {s : ParserState} (h : s.isAt .atSign) :
    FinishesAt s directive DirectivePhrase := by
  obtain ⟨token, ts, htokens, hkind⟩ := tokens_of_isAt h
  have hspan : s.span = token.span := by simp [ParserState.span, htokens]
  refine .nextOffset_bind (.advance_bind htokens ?_)
  refine Finishes.name.bind fun ks key hkey => ?_
  refine (finishes_optionalItems _ _ (finishes_objectEntry (finishes_value _)) fun h =>
    h.starts.ne_nil).bind fun as args hargs => ?_
  have hdirective := DirectivePhrase.intro hkind hkey hargs
  rw [hspan]
  dsimp only
  split
  · exact .pure (by simpa using hdirective)
  · exact (Finishes.meet _).bind_nothing fun _ => .pure (by simpa using hdirective)

theorem finishes_directives : Finishes directives (Many DirectivePhrase) :=
  finishes_repeatWhile (fun _ _ h => finishesAt_directive h) fun h => h.starts.ne_nil

/-! ## Members -/

theorem finishes_inputValueDef : Finishes inputValueDef InputValuePhrase := by
  refine finishes_description.bind fun ds _ hd => Finishes.name.bind fun ks key hkey => ?_
  refine (Finishes.expectMark _).bind fun cs _ hcolon => ?_
  refine (finishes_typeRef _).bind fun ts type htype => (Finishes.eat _).bind fun es eaten hequals => ?_
  have hend : ∀ {vs v}, DefaultPhrase vs v → Finishes (do return ⟨key, type, v, ← directives⟩)
      fun us value => InputValuePhrase (ds ++ (ks ++ (cs ++ (ts ++ (vs ++ us))))) value :=
    fun hv => finishes_directives.bind_pure fun us _ hus => .intro hd hkey hcolon htype hv hus
  cases eaten with
  | true =>
    have hdefault : Finishes (some <$> value nestingLimit) fun us v => DefaultPhrase (es ++ us) v :=
      (finishes_value _).map fun us v hv => .present hequals hv
    exact hdefault.bind fun vs v hv => by simpa using hend hv
  | false =>
    obtain rfl : es = [] := hequals
    have hdefault : Finishes (Pure.pure none) DefaultPhrase := .pure .absent
    exact hdefault.bind fun vs v hv => by simpa using hend hv

theorem finishes_argumentDefs :
    Finishes argumentDefs (Enclosed .parenOpen .parenClose InputValuePhrase) :=
  finishes_optionalItems _ _ finishes_inputValueDef fun h => h.starts.ne_nil

theorem finishes_fieldDef : Finishes fieldDef FieldPhrase := by
  refine finishes_description.bind fun ds _ hd => Finishes.name.bind fun ks key hkey => ?_
  refine finishes_argumentDefs.bind fun as args hargs => ?_
  refine (Finishes.expectMark _).bind fun cs _ hcolon => ?_
  refine (finishes_typeRef _).bind fun ts type htype => ?_
  exact finishes_directives.bind_pure fun us _ hus => .intro hd hkey hargs hcolon htype hus

theorem finishes_fieldDefs : Finishes fieldDefs (Enclosed .braceOpen .braceClose FieldPhrase) :=
  finishes_optionalItems _ _ finishes_fieldDef fun h => h.starts.ne_nil

/-- At a token that is not reserved, a name is finished that is not reserved. -/
theorem finishesAt_freeName {s : ParserState}
    (h : ∀ kind ∈ s.kind?, kind.isReserved = false) :
    FinishesAt s name fun ts key => ∃ token : Token, token.kind.isName ∧
      token.kind.isReserved = false ∧ ts = [token] ∧ key = ⟨token.text, token.span.start⟩ := by
  have hfree : Completable (fun ts (key : Name) => ∃ token : Token, token.kind.isName ∧
      token.kind.isReserved = false ∧ ts = [token] ∧ key = ⟨token.text, token.span.start⟩) [] :=
    completable_keyword .type ⟨_, rfl, rfl, rfl, rfl⟩
  refine .get_bind ?_
  split
  · rename_i token ts htokens
    have hkind := h token.kind (by simp [ParserState.kind?, htokens])
    split
    · exact .advance_bind htokens (.pure ⟨token, ‹_›, hkind, rfl, rfl⟩)
    · exact .unexpected _ hfree
  · exact .unexpected _ hfree

theorem finishes_enumValueDef : Finishes enumValueDef EnumValuePhrase := by
  refine finishes_description.bind fun ds _ hd => ?_
  have hbegun : Completable (fun us value => EnumValuePhrase (ds ++ us) value) [] :=
    completable_keyword .type (.intro hd rfl rfl .nil)
  refine finishes_of_at hbegun fun s _ => .nextKind_bind ?_
  split
  · exact .fail _ hbegun
  · exact .fail _ hbegun
  · exact .fail _ hbegun
  · rename_i htrue hfalse hnull
    -- none of the reserved words has been found next
    have hfree : ∀ kind ∈ s.kind?, kind.isReserved = false := by
      intro kind hkind
      obtain hkind : s.kind? = some kind := hkind
      unfold TokenKind.isReserved
      split
      · exact absurd hkind htrue
      · exact absurd hkind hfalse
      · exact absurd hkind hnull
      · rfl
    refine (finishesAt_freeName hfree).bind fun ks key hkey => ?_
    obtain ⟨token, hname, hreserved, rfl, rfl⟩ := hkey
    exact finishes_directives.bind_pure fun us _ hus => .intro hd hname hreserved hus

theorem finishes_implementedInterfaces : Finishes implementedInterfaces ImplementsPhrase := by
  have hitem : Finishes (do
      let interface ← name
      meet ⟨.implements, interface.text, interface.offset⟩
      return interface) NamePhrase :=
    Finishes.name.bind fun ks key hkey => (Finishes.meet _).bind_nothing fun _ =>
      .pure (by simpa using hkey)
  refine (Finishes.eat _).bind fun ts eaten himplements => ?_
  cases eaten with
  | true =>
    refine (Finishes.eat_perhaps _).bind fun us _ hampersand => ?_
    exact (finishes_separatedBy _ hitem).imp fun vs interfaces hvs =>
      .present himplements hampersand hvs
  | false =>
    obtain rfl : ts = [] := himplements
    exact .pure .absent

theorem finishes_pipedNames : Finishes pipedNames PipedPhrase :=
  (Finishes.eat_perhaps _).bind fun _ _ hpipe =>
    (finishes_separatedBy _ Finishes.name).imp fun _ _ hnames => .intro hpipe hnames

/-! ## Definitions -/

section

variable {s : ParserState} {token : Token} {ts : List Token}

/-- A definition behind its keyword, which gives it its place. -/
theorem finishesAt_definition {phrase : Phrase Definition} {p : Nat → Parser Definition}
    (hs : s.tokens = token :: ts)
    (h : Finishes (p token.span.start) fun us d => phrase (token :: us) d) :
    FinishesAt s (do let offset ← nextOffset; advance; p offset) phrase := by
  have hspan : s.span = token.span := by simp [ParserState.span, hs]
  refine .nextOffset_bind (.advance_bind hs ?_)
  rwa [hspan]

theorem finishesAt_object (hs : s.tokens = token :: ts) (hkind : token.kind = .keyword .type) :
    FinishesAt s objectDefinition TypePhrase := by
  refine finishesAt_definition hs ?_
  refine Finishes.name.bind fun ks key hkey => finishes_implementedInterfaces.bind fun is _ his => ?_
  refine finishes_directives.bind fun us _ hus => ?_
  exact finishes_fieldDefs.bind_pure fun fs _ hfs => .object hkind hkey his hus hfs

theorem finishesAt_interface (hs : s.tokens = token :: ts)
    (hkind : token.kind = .keyword .interface) : FinishesAt s interfaceDefinition TypePhrase := by
  refine finishesAt_definition hs ?_
  refine Finishes.name.bind fun ks key hkey => finishes_implementedInterfaces.bind fun is _ his => ?_
  refine finishes_directives.bind fun us _ hus => finishes_fieldDefs.bind fun fs _ hfs => ?_
  refine (Finishes.meet _).bind_nothing fun _ => .pure ?_
  simpa using TypePhrase.interface hkind hkey his hus hfs

theorem finishes_members {α : Type} {q : List Name → Parser α} {phrase : Phrase α}
    (hq : ∀ ms members, MembersPhrase ms members →
      Finishes (q members) fun us a => phrase (ms ++ us) a) :
    Finishes (do
      let members ← if ← eatMark .equals then pipedNames else pure []
      q members) phrase := by
  refine (Finishes.eat _).bind fun es eaten hequals => ?_
  cases eaten with
  | true =>
    refine finishes_pipedNames.bind fun ms members hmembers => ?_
    simpa using hq _ _ (.present hequals hmembers)
  | false =>
    obtain rfl : es = [] := hequals
    have hnone : Finishes (Pure.pure []) MembersPhrase := .pure .absent
    exact hnone.bind fun ms members hmembers => by simpa using hq _ _ hmembers

theorem finishesAt_union (hs : s.tokens = token :: ts) (hkind : token.kind = .keyword .union) :
    FinishesAt s unionDefinition TypePhrase := by
  refine finishesAt_definition hs ?_
  refine Finishes.name.bind fun ks key hkey => finishes_directives.bind fun us _ hus => ?_
  refine finishes_members fun ms members hmembers => ?_
  refine (Finishes.meet _).bind_nothing fun _ => .pure ?_
  simpa using TypePhrase.union hkind hkey hus hmembers

theorem finishesAt_bracedDefinition {α : Type} {item : Parser α} {phrase : Phrase α}
    {body : List α → Body} (hs : s.tokens = token :: ts) (hitem : Finishes item phrase)
    (hphrase : ∀ {ts a}, phrase ts a → ts ≠ [])
    (h : ∀ {ks us ms key directives members}, NamePhrase ks key → Many DirectivePhrase us directives →
      Enclosed .braceOpen .braceClose phrase ms members → TypePhrase (token :: (ks ++ (us ++ ms)))
        ⟨token.span.start, key.text, directives, body members⟩) :
    FinishesAt s (bracedDefinition item body) TypePhrase := by
  refine finishesAt_definition hs ?_
  refine Finishes.name.bind fun ks key hkey => finishes_directives.bind fun us _ hus => ?_
  exact (finishes_optionalItems _ _ hitem hphrase).bind_pure fun ms _ hms => h hkey hus hms

theorem finishesAt_enum (hs : s.tokens = token :: ts) (hkind : token.kind = .keyword .enum) :
    FinishesAt s enumDefinition TypePhrase :=
  finishesAt_bracedDefinition hs finishes_enumValueDef (fun h => h.starts.ne_nil) (.enum hkind)

theorem finishesAt_input (hs : s.tokens = token :: ts) (hkind : token.kind = .keyword .input) :
    FinishesAt s inputDefinition TypePhrase :=
  finishesAt_bracedDefinition hs finishes_inputValueDef (fun h => h.starts.ne_nil) (.input hkind)

theorem finishesAt_scalar (hs : s.tokens = token :: ts) (hkind : token.kind = .keyword .scalar) :
    FinishesAt s scalarDefinition TypePhrase := by
  refine finishesAt_definition hs ?_
  refine Finishes.name.bind fun ks key hkey => ?_
  exact finishes_directives.bind_pure fun us _ hus => .scalar hkind hkey hus

theorem finishesAt_directiveDefinition (hs : s.tokens = token :: ts)
    (hkind : token.kind = .keyword .directive) :
    FinishesAt s directiveDefinition DirectiveDefinitionPhrase := by
  refine finishesAt_definition hs ?_
  refine (Finishes.expectMark _).bind fun ms _ hat => Finishes.name.bind fun ks key hkey => ?_
  refine finishes_argumentDefs.bind fun as _ has => (Finishes.eat_perhaps _).bind fun rs _ hrs => ?_
  refine (Finishes.expectKeyword _).bind fun os _ hon => finishes_pipedNames.bind fun ls _ hls => ?_
  refine (Finishes.meet _).bind_nothing fun _ => .pure ?_
  simpa using DirectiveDefinitionPhrase.intro hkind hat hkey has hrs hon hls

/-- Every definition that can be extended is that of a type, but for the schema block. -/
theorem finishesAt_extensible {p : Parser Definition} (hs : s.tokens = token :: ts)
    (hp : extensibleDefinition? token.kind = some p) (hschema : token.kind ≠ .keyword .schema) :
    FinishesAt s p TypePhrase := by
  unfold extensibleDefinition? at hp
  split at hp <;> cases hp
  · exact absurd ‹_› hschema
  · exact finishesAt_object hs ‹_›
  · exact finishesAt_interface hs ‹_›
  · exact finishesAt_union hs ‹_›
  · exact finishesAt_enum hs ‹_›
  · exact finishesAt_input hs ‹_›
  · exact finishesAt_scalar hs ‹_›

end

end SchemaModel.Sdl
