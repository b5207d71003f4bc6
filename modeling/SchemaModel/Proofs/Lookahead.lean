import SchemaModel.Proofs.Compositional

/-! # One Token Ahead

    The parser decides by the next token alone, so that what it has made of some tokens does not depend
    on what stands behind the next one.

    * **followedBy**: the same state with other tokens behind those that are left.
    * **Agree**: two runs come to the same in front of a token that they share, or both have run past all
      of these.
    * **Shortsighted**: a parser whose runs on tokens that begin alike agree. This is compositional, and so
      every parser of the grammar is shortsighted. -/

namespace SchemaModel.Sdl

open SchemaModel.Sdl.Parser

/-! ## Runs on Tokens that Begin Alike -/

/-- The state with other tokens behind those that are left. -/
def ParserState.followedBy (s : ParserState) (rest : Feed) : ParserState :=
  { s with tokens := s.tokens ++ rest.tokens, ending := rest.ending }

/-- The state with a token next and the rest behind it. -/
def ParserState.inFrontOf (s : ParserState) (token : Token) (rest : Feed) : ParserState :=
  { s with tokens := token :: rest.tokens, ending := rest.ending }

/-- The tokens that a run leaves. -/
def leftOver {α : Type} : EStateM.Result SourceFault ParserState α → List Token
  | .ok _ t | .error _ t => t.tokens

/-- **Agree**: the two runs, in front of `rest` and in front of `other`, come to the same while a token that
    they share is left, or they have both run past these. -/
inductive Agree {α : Type} (rest other : Feed) :
    EStateM.Result SourceFault ParserState α → EStateM.Result SourceFault ParserState α → Prop
  | ok {a : α} {t : ParserState} :
      t.tokens ≠ [] → Agree rest other (.ok a (t.followedBy rest)) (.ok a (t.followedBy other))
  | error {fault : SourceFault} {t : ParserState} :
      t.tokens ≠ [] →
      Agree rest other (.error fault (t.followedBy rest)) (.error fault (t.followedBy other))
  | past {r r' : EStateM.Result SourceFault ParserState α} :
      (leftOver r).length ≤ rest.tokens.length → (leftOver r').length ≤ other.tokens.length →
      Agree rest other r r'

/-- **Shortsighted**: no run adds any tokens, and the runs on tokens that begin alike agree. -/
structure Shortsighted {α : Type} (p : Parser α) : Prop where
  shrinks : ∀ s : ParserState, (leftOver (p s)).length ≤ s.tokens.length
  agrees : ∀ (s : ParserState) (rest other : Feed), s.tokens ≠ [] →
    Agree rest other (p (s.followedBy rest)) (p (s.followedBy other))

section

variable {α β : Type} {p : Parser α} {q q' : α → Parser β} {s s' t : ParserState} {rest other : Feed}

theorem length_followedBy (s : ParserState) (rest : Feed) :
    (s.followedBy rest).tokens.length = s.tokens.length + rest.tokens.length :=
  List.length_append

theorem followedBy_eq_inFrontOf {token : Token} {ts : List Token} (h : s.tokens = token :: ts)
    (rest : Feed) : s.followedBy rest = s.inFrontOf token ⟨ts ++ rest.tokens, rest.ending⟩ := by
  simp [ParserState.followedBy, ParserState.inFrontOf, h]

/-- In front of other tokens a state looks the same, as long as a token is next. -/
theorem view_followedBy (h : s.tokens ≠ []) (rest : Feed) : (s.followedBy rest).view = s.view := by
  obtain ⟨token, ts, htokens⟩ := List.exists_cons_of_ne_nil h
  simp [ParserState.view, ParserState.followedBy, htokens]

/-- A sequence leaves no more than its first step does. -/
theorem length_leftOver_bind_le
    (hq : ∀ a t, p s = .ok a t → (leftOver (q a t)).length ≤ t.tokens.length) :
    (leftOver ((p >>= q) s)).length ≤ (leftOver (p s)).length := by
  cases hrun : p s with
  | ok a t =>
    rw [bind_of_ok hrun]
    exact hq a t hrun
  | error fault t =>
    rw [bind_of_error hrun]
    exact Nat.le_refl _

/-- Two sequences agree if their first steps do, and then the second ones. -/
theorem Agree.bind (hp : Agree rest other (p s) (p s'))
    (hq : ∀ a t, p s = .ok a t → (leftOver (q a t)).length ≤ t.tokens.length)
    (hq' : ∀ a t, p s' = .ok a t → (leftOver (q' a t)).length ≤ t.tokens.length)
    (h : ∀ (a : α) (t : ParserState), t.tokens ≠ [] →
      Agree rest other (q a (t.followedBy rest)) (q' a (t.followedBy other))) :
    Agree rest other ((p >>= q) s) ((p >>= q') s') := by
  have hless := length_leftOver_bind_le hq
  have hless' := length_leftOver_bind_le hq'
  -- the two steps give the same, or have both gone past the tokens that are shared
  generalize hr : p s = r at hp hless
  generalize hr' : p s' = r' at hp hless'
  cases hp with
  | @ok a t hne =>
    rw [bind_of_ok hr, bind_of_ok hr']
    exact h a t hne
  | error hne =>
    rw [bind_of_error hr, bind_of_error hr']
    exact .error hne
  | past hrest hother => exact .past (Nat.le_trans hless hrest) (Nat.le_trans hless' hother)

end

namespace Shortsighted

variable {α β : Type} {p : Parser α} {q : α → Parser β}

theorem pure (a : α) : Shortsighted (Pure.pure a) :=
  ⟨fun _ => Nat.le_refl _, fun _ _ _ hne => .ok hne⟩

theorem bind (hp : Shortsighted p) (hq : ∀ a, Shortsighted (q a)) : Shortsighted (p >>= q) where
  shrinks s :=
    Nat.le_trans (length_leftOver_bind_le fun a t _ => (hq a).shrinks t) (hp.shrinks s)
  agrees s rest other hne :=
    (hp.agrees s rest other hne).bind (fun a t _ => (hq a).shrinks t) (fun a t _ => (hq a).shrinks t)
      fun a t ht => (hq a).agrees t rest other ht

/-- A step that looks at the state, but not behind the next token. -/
theorem get_bind {q : ParserState → Parser β}
    (hsame : ∀ (s : ParserState) (token : Token) (rest other : Feed),
      q (s.inFrontOf token rest) = q (s.inFrontOf token other))
    (hq : ∀ s, Shortsighted (q s)) : Shortsighted (get >>= q) where
  shrinks s := (hq s).shrinks s
  agrees s rest other hne := by
    have hboth : q (s.followedBy rest) = q (s.followedBy other) := by
      obtain ⟨token, ts, htokens⟩ := List.exists_cons_of_ne_nil hne
      rw [followedBy_eq_inFrontOf htokens, followedBy_eq_inFrontOf htokens]
      exact hsame s token _ _
    rw [Sdl.get_bind, Sdl.get_bind, hboth]
    exact (hq _).agrees s rest other hne

/-! ## Single Steps -/

theorem failAt (span : Span) (fault : GrammarFault) :
    Shortsighted (failAt span fault : Parser α) :=
  ⟨fun _ => Nat.le_refl _, fun _ _ _ hne => .error hne⟩

theorem fail (fault : GrammarFault) : Shortsighted (fail fault : Parser α) :=
  get_bind (fun _ _ _ _ => rfl) fun s => failAt s.span fault

/-- A change of the state that does not concern its tokens. -/
theorem modifyState {g : ParserState → ParserState} (htokens : ∀ s, (g s).tokens = s.tokens)
    (hg : ∀ s rest, g (s.followedBy rest) = (g s).followedBy rest) :
    Shortsighted (modify g : Parser PUnit) where
  shrinks s := Nat.le_of_eq (congrArg List.length (htokens s))
  agrees s rest other hne := by
    show Agree rest other (.ok _ (g (s.followedBy rest))) (.ok _ (g (s.followedBy other)))
    rw [hg, hg]
    exact .ok (htokens s ▸ hne)

/-- A step over the last one of the tokens that two runs share takes them both past these. -/
theorem advance : Shortsighted advance where
  shrinks s := by
    rw [advance_eq]
    split
    · exact Nat.zero_le _
    · exact (List.tail_sublist s.tokens).length_le
  agrees s rest other hne := by
    obtain ⟨token, ts, htokens⟩ := List.exists_cons_of_ne_nil hne
    have htail : ∀ rest : Feed, (s.followedBy rest).tokens.tail = ts ++ rest.tokens := by
      intro rest
      simp [ParserState.followedBy, htokens]
    rw [advance_eq, advance_eq, htail, htail]
    cases ts with
    | nil =>
      -- nothing but the tokens behind is left, or nothing at all
      refine .past ?_ ?_
      · split
        · exact Nat.zero_le _
        · exact Nat.le_refl _
      · split
        · exact Nat.zero_le _
        · exact Nat.le_refl _
    | cons next ts => exact .ok (t := { s with tokens := next :: ts }) (List.cons_ne_nil next ts)

theorem meet (usage : Usage) : Shortsighted (meet usage) := by
  refine get_bind (fun _ _ _ _ => rfl) fun s => ?_
  split
  · exact modifyState (fun _ => rfl) fun _ _ => rfl
  · exact fail _

/-! ## Repetition -/

section

variable {more : ParserState → Bool} {item : Parser α}

theorem length_leftOver_repeatWhile_le (hitem : Shortsighted item) (s : ParserState) :
    (leftOver (repeatWhile more item s)).length ≤ s.tokens.length := by
  induction hn : s.tokens.length using Nat.strongRecOn generalizing s with
  | ind n ih =>
    subst hn
    by_cases hmore : more s
    · rw [repeatWhile_eq_bind hmore]
      refine Nat.le_trans (length_leftOver_bind_le fun a t _ => ?_) (hitem.shrinks s)
      by_cases hlt : t.tokens.length < s.tokens.length
      · rw [othersWhile_of_lt hlt, map_eq_pure_bind]
        exact Nat.le_trans (length_leftOver_bind_le fun _ _ _ => Nat.le_refl _) (ih _ hlt t rfl)
      · rw [othersWhile_of_not_lt hlt]
        exact Nat.le_refl _
    · rw [repeatWhile_stop (by simpa using hmore)]
      exact Nat.le_refl _

/-- The runs of a loop behind the first one add no tokens either. -/
theorem length_leftOver_othersWhile_le (hitem : Shortsighted item) (n : Nat) (a : α)
    (t : ParserState) : (leftOver (othersWhile more item n a t)).length ≤ t.tokens.length := by
  by_cases hlt : t.tokens.length < n
  · rw [othersWhile_of_lt hlt, map_eq_pure_bind]
    exact Nat.le_trans (length_leftOver_bind_le fun _ _ _ => Nat.le_refl _)
      (length_leftOver_repeatWhile_le hitem t)
  · rw [othersWhile_of_not_lt hlt]
    exact Nat.le_refl _

theorem repeatWhile (hmore : ∀ (s : ParserState) (rest : Feed), s.tokens ≠ [] →
      more (s.followedBy rest) = more s) (hitem : Shortsighted item) :
    Shortsighted (repeatWhile more item) where
  shrinks := length_leftOver_repeatWhile_le hitem
  agrees s rest other hne := by
    induction hn : s.tokens.length using Nat.strongRecOn generalizing s with
    | ind n ih =>
      subst hn
      by_cases hs : more s
      · rw [repeatWhile_eq_bind ((hmore s rest hne).trans hs),
          repeatWhile_eq_bind ((hmore s other hne).trans hs)]
        refine (hitem.agrees s rest other hne).bind
          (fun a t _ => length_leftOver_othersWhile_le hitem _ a t)
          (fun a t _ => length_leftOver_othersWhile_le hitem _ a t) fun a t ht => ?_
        -- the loop goes on in both runs, or in none
        rw [length_followedBy, length_followedBy]
        by_cases hlt : t.tokens.length < s.tokens.length
        · have hlength : ∀ rest : Feed, (t.followedBy rest).tokens.length <
              s.tokens.length + rest.tokens.length := by
            intro rest
            rw [length_followedBy]
            omega
          rw [othersWhile_of_lt (hlength rest), othersWhile_of_lt (hlength other), map_eq_pure_bind]
          exact (ih _ hlt t ht rfl).bind (fun _ _ _ => Nat.le_refl _) (fun _ _ _ => Nat.le_refl _)
            fun _ u hu => .ok hu
        · have hlength : ∀ rest : Feed, ¬(t.followedBy rest).tokens.length <
              s.tokens.length + rest.tokens.length := by
            intro rest
            rw [length_followedBy]
            omega
          rw [othersWhile_of_not_lt (hlength rest), othersWhile_of_not_lt (hlength other)]
          exact .ok ht
      · rw [Bool.not_eq_true] at hs
        rw [repeatWhile_stop ((hmore s rest hne).trans hs),
          repeatWhile_stop ((hmore s other hne).trans hs)]
        exact .ok hne

end

/-! ## The Grammar -/

/-- The parser never sees what stands behind the next token. -/
theorem compositional : Compositional @Shortsighted where
  pure := pure
  bind := bind
  get_bind hsame hq := get_bind (fun _ _ _ _ => hsame _ _ rfl) hq
  failAt span fault _ := failAt span fault
  record _ _ := modifyState (fun _ => rfl) fun _ _ => rfl
  advance := advance
  meet _ := meet _
  repeatWhile hmore hitem := repeatWhile (fun s rest hne => hmore _ s (view_followedBy hne rest)) hitem

/-! ## Documents -/

theorem recordExtension (before : ParserState) (offset : Nat) (extended : Definition) :
    Shortsighted (recordExtension before offset extended) :=
  Shortsighted.bind (modifyState (fun _ => rfl) fun _ _ => rfl) fun _ =>
    (meet _).bind fun _ => pure _

/-- What is extended is read in the same tokens, only without a schema block in front. -/
theorem extendedEntry_eq (offset : Nat) :
    extendedEntry offset = (do
      let before ← get
      match before.kind?.bind extensibleDefinition? with
      | none => Parser.unexpected .extendedDefinition
      | some definition =>
        modify fun s => { s with schemaSeen := false }
        let extended ← definition
        Sdl.recordExtension before offset extended) := by
  funext s
  unfold extendedEntry
  rw [Sdl.get_bind, Sdl.get_bind]
  cases s.kind?.bind extensibleDefinition? <;> rfl

theorem extendedEntry (offset : Nat) : Shortsighted (extendedEntry offset) := by
  rw [extendedEntry_eq]
  refine get_bind (fun _ _ _ _ => rfl) fun s => ?_
  cases hparser : s.kind?.bind extensibleDefinition? with
  | none => exact compositional.unexpected _
  | some p =>
    obtain ⟨kind, -, hkind⟩ := Option.bind_eq_some_iff.mp hparser
    exact Shortsighted.bind (modifyState (fun _ => rfl) fun _ _ => rfl) fun _ =>
      (compositional.extensibleDefinition hkind).bind fun d => recordExtension s offset d

theorem extension : Shortsighted extension := by
  rw [extension_eq]
  exact compositional.nextOffset.bind fun offset => advance.bind fun _ => extendedEntry offset

theorem entry : Shortsighted entry := by
  rw [entry_eq]
  exact compositional.description.bind fun _ => compositional.nextKind.bind fun kind? =>
    compositional.entryAt fun _ => extension

/-- **Documents**: the parser looks no further than one token ahead in a whole document. -/
theorem document : Shortsighted document := compositional.document entry

end Shortsighted

/-- **Dead ends**: if the parser stops in front of a token, then it stops on all tokens that begin with
    those up to this one. -/
theorem document_stops {policy : Policy} {ts rest : List Token} {token : Token} {ending : Ending}
    {fault : SourceFault} {u : ParserState} (hu : u.tokens = token :: rest)
    (h : document (.start policy ⟨ts ++ token :: rest, ending⟩) = .error fault u) (other : Feed) :
    ∃ v, document (.start policy ⟨ts ++ token :: other.tokens, other.ending⟩) = .error fault v := by
  have hsplit : ∀ feed : Feed, ParserState.start policy ⟨ts ++ token :: feed.tokens, feed.ending⟩ =
      (ParserState.start policy ⟨ts ++ [token], ending⟩).followedBy feed := by
    intro feed
    simp [ParserState.start, ParserState.followedBy]
  have hagree := Shortsighted.document.agrees (.start policy ⟨ts ++ [token], ending⟩) ⟨rest, ending⟩
    other (by simp [ParserState.start])
  rw [← hsplit ⟨rest, ending⟩, ← hsplit other, h] at hagree
  generalize document (.start policy ⟨ts ++ token :: other.tokens, other.ending⟩) = run at hagree
  cases hagree with
  | error _ => exact ⟨_, rfl⟩
  | past hpast _ =>
    simp only [leftOver, hu, List.length_cons] at hpast
    omega

end SchemaModel.Sdl
