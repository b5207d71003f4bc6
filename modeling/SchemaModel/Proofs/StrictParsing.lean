import SchemaModel.Proofs.Compositional

/-! # Parsing under the Two Policies

    A parse that refuses unsupported constructs, run side by side with one that skips them.

    * **strict**: the same state under the policy that refuses.
    * **Follows**: the two runs are the same up to the first usage that one skips and the other
      refuses. Inside an extension this is not the usage that is recorded in the end, but the
      extension itself is recorded then.
    * **Strict**: the two runs of a parser follow each other from every state. This is compositional,
      and so every parser of the grammar is strict, since it sees the policy only through `meet`. -/

namespace SchemaModel.Sdl

open SchemaModel.Sdl.Parser

/-! ## Runs Side by Side -/

/-- The same state under the policy that refuses unsupported constructs. -/
def ParserState.strict (s : ParserState) : ParserState :=
  { s with policy := .reject }

/-- A fault of the source itself, not the refusal of a construct. -/
def SourceFault.Genuine (fault : SourceFault) : Prop :=
  ∀ usage, fault.fault ≠ .refused usage

/-- An extension is recorded only where the keyword for it is read. -/
def Heralded (ts : List Token) (usages : List Usage) : Prop :=
  ∀ usage ∈ usages, usage.construct = .extension → ∃ token ∈ ts, token.kind = .keyword .extend

/-- The run of a parser goes on in the tokens of `s`, under the same policy. -/
structure ParserState.Continues (s t : ParserState) : Prop where
  policy : t.policy = .skip
  suffix : t.tokens <:+ s.tokens

/-- **Follows**: what a strict run from `s` comes to, given the run that skips. -/
inductive Follows {α : Type} (s : ParserState) :
    EStateM.Result SourceFault ParserState α → EStateM.Result SourceFault ParserState α → Prop
  /-- Nothing is skipped, and both runs give the same. -/
  | same {a : α} {t : ParserState} :
      s.Continues t → t.skipped = s.skipped → Follows s (.ok a t) (.ok a t.strict)
  /-- Something is skipped, and the strict run is refused. -/
  | refused {a : α} {t u : ParserState} {first usage : Usage} {others : List Usage} {span : Span} :
      s.Continues t → t.skipped = s.skipped ++ first :: others →
      Heralded s.tokens (first :: others) → (first.construct ≠ .extension → usage = first) →
      Follows s (.ok a t) (.error ⟨.refused usage, span⟩ u)
  /-- Both runs stop at the same fault. -/
  | fault {fault : SourceFault} {t u : ParserState} :
      fault.Genuine → Follows s (.error fault t) (.error fault u)
  /-- The strict run is refused in front of the fault. -/
  | refusedFirst {fault : SourceFault} {t u : ParserState} {usage : Usage} {span : Span} :
      fault.Genuine → Follows s (.error fault t) (.error ⟨.refused usage, span⟩ u)

/-- **Strict parsers**: from every state, a strict run follows the one that skips. -/
def Strict {α : Type} (p : Parser α) : Prop :=
  ∀ s : ParserState, s.policy = .skip → Follows s (p s) (p s.strict)

namespace ParserState.Continues

variable {s t u : ParserState}

theorem refl (h : s.policy = .skip) : s.Continues s := ⟨h, List.suffix_refl _⟩

theorem trans (hst : s.Continues t) (htu : t.Continues u) : s.Continues u :=
  ⟨htu.policy, htu.suffix.trans hst.suffix⟩

end ParserState.Continues

/-- What is heralded in the rest of the tokens is heralded in all of them. -/
theorem Heralded.mono {ts us : List Token} {usages : List Usage} (h : Heralded ts usages)
    (hsuffix : ts <:+ us) : Heralded us usages := by
  intro usage hmem hconstruct
  obtain ⟨token, htoken, hkind⟩ := h usage hmem hconstruct
  exact ⟨token, hsuffix.subset htoken, hkind⟩

theorem Heralded.append {ts : List Token} {usages usages' : List Usage} (h : Heralded ts usages)
    (h' : Heralded ts usages') : Heralded ts (usages ++ usages') := by
  intro usage hmem
  rcases List.mem_append.mp hmem with hmem | hmem
  · exact h usage hmem
  · exact h' usage hmem

/-- A run that goes on from where another one ended, without anything skipped in between. -/
theorem Follows.after {α : Type} {s t : ParserState}
    {r r' : EStateM.Result SourceFault ParserState α} (h : Follows t r r') (hst : s.Continues t)
    (hskipped : t.skipped = s.skipped) : Follows s r r' := by
  cases h with
  | same htu hu => exact .same (hst.trans htu) (hu.trans hskipped)
  | refused htu hu hheralded hfirst =>
    exact .refused (hst.trans htu) (hskipped ▸ hu) (hheralded.mono hst.suffix) hfirst
  | fault h => exact .fault h
  | refusedFirst h => exact .refusedFirst h

/-- Once the strict run is refused, all that counts is how the other one ends. -/
theorem Follows.after_refused {α : Type} {s t u : ParserState}
    {r r' : EStateM.Result SourceFault ParserState α} (h : Follows t r r') (hst : s.Continues t)
    {first usage : Usage} {others : List Usage} {span : Span}
    (hskipped : t.skipped = s.skipped ++ first :: others)
    (hheralded : Heralded s.tokens (first :: others))
    (hfirst : first.construct ≠ .extension → usage = first) :
    Follows s r (.error ⟨.refused usage, span⟩ u) := by
  cases h with
  | same htu hu => exact .refused (hst.trans htu) (hu.trans hskipped) hheralded hfirst
  | @refused _ v _ first' _ others' _ htu hu hheralded' _ =>
    have hall : v.skipped = s.skipped ++ first :: (others ++ first' :: others') := by
      rw [hu, hskipped, List.append_assoc, List.cons_append]
    exact .refused (hst.trans htu) hall
      (hheralded.append (hheralded'.mono hst.suffix)) hfirst
  | fault h => exact .refusedFirst h
  | refusedFirst h => exact .refusedFirst h

/-! ## Sequences -/

section

variable {α β : Type} {p : Parser α} {q : α → Parser β}

/-- The runs of a sequence follow each other if those of its first step do, and those of the
    second one from wherever the first one ends. -/
theorem Follows.bind {s : ParserState} (hp : Follows s (p s) (p s.strict))
    (hq : ∀ a t, p s = .ok a t → s.Continues t → Follows t (q a t) (q a t.strict)) :
    Follows s ((p >>= q) s) ((p >>= q) s.strict) := by
  generalize hr : p s = r at hp hq
  generalize hr' : p s.strict = r' at hp
  -- the second step is taken in both runs, in the one that skips, or in none
  cases hp with
  | @same a t hst hskipped =>
    rw [bind_of_ok hr, bind_of_ok hr']
    exact (hq a t rfl hst).after hst hskipped
  | @refused a t _ _ _ _ _ hst hskipped hheralded hfirst =>
    rw [bind_of_ok hr, bind_of_error hr']
    exact (hq a t rfl hst).after_refused hst hskipped hheralded hfirst
  | fault hgenuine =>
    rw [bind_of_error hr, bind_of_error hr']
    exact .fault hgenuine
  | refusedFirst hgenuine =>
    rw [bind_of_error hr, bind_of_error hr']
    exact .refusedFirst hgenuine

end

namespace Strict

variable {α β : Type} {p : Parser α} {q : α → Parser β}

theorem pure (a : α) : Strict (Pure.pure a) := fun _ hpolicy => .same (.refl hpolicy) rfl

theorem bind (hp : Strict p) (hq : ∀ a, Strict (q a)) : Strict (p >>= q) :=
  fun s hpolicy => (hp s hpolicy).bind fun a t _ hst => hq a t hst.policy

/-- A step that looks at the state, but not at the policy or at what was skipped. -/
theorem get_bind {f : ParserState → Parser α} (hsame : ∀ s, f s.strict = f s)
    (hf : ∀ s, Strict (f s)) : Strict (get >>= f) := by
  intro s hpolicy
  rw [Sdl.get_bind, Sdl.get_bind, hsame]
  exact hf s s hpolicy

/-! ## Single Steps -/

theorem failAt (span : Span) {fault : GrammarFault} (h : ∀ usage, fault ≠ .refused usage) :
    Strict (failAt span fault : Parser α) := fun _ _ => .fault h

/-- A change of the state that does not concern the policy or what was skipped. -/
theorem modifyState {f : ParserState → ParserState} (hstrict : ∀ s, f s.strict = (f s).strict)
    (hpolicy : ∀ s, (f s).policy = s.policy) (htokens : ∀ s, (f s).tokens <:+ s.tokens)
    (hskipped : ∀ s, (f s).skipped = s.skipped) : Strict (modify f) := by
  intro s hs
  have hrun : (modify f : Parser PUnit) s.strict = .ok () (f s).strict := by
    show EStateM.Result.ok _ (f s.strict) = _
    rw [hstrict]
  rw [hrun]
  exact .same ⟨(hpolicy s).trans hs, htokens s⟩ (hskipped s)

/-- Both runs step over the next token, or neither does. -/
theorem advance_cases {s : ParserState} (hpolicy : s.policy = .skip) :
    (∃ t, Parser.advance s = .ok () t ∧ Parser.advance s.strict = .ok () t.strict ∧
      s.Continues t ∧ t.skipped = s.skipped) ∨
    ∃ fault t u, Parser.advance s = .error fault t ∧ Parser.advance s.strict = .error fault u ∧
      fault.Genuine := by
  have htokens : s.strict.tokens = s.tokens := rfl
  have hending : s.strict.ending = s.ending := rfl
  rw [advance_eq, advance_eq, htokens, hending]
  have hsuffix := List.tail_suffix s.tokens
  split
  · exact .inr ⟨_, _, _, rfl, rfl, fun usage h => by cases h⟩
  · exact .inl ⟨_, rfl, rfl, ⟨hpolicy, hsuffix⟩, rfl⟩

theorem advance : Strict advance := by
  intro s hpolicy
  rcases advance_cases hpolicy with ⟨t, hr, hr', hst, hskipped⟩ | ⟨fault, t, u, hr, hr', hgenuine⟩
  · rw [hr, hr']
    exact .same hst hskipped
  · rw [hr, hr']
    exact .fault hgenuine

/-- Meeting a usage is where the two runs part. -/
theorem meet {usage : Usage} (h : usage.construct ≠ .extension) : Strict (meet usage) := by
  rintro ⟨tokens, ending, policy, skipped, operations, schemaSeen⟩ hpolicy
  obtain rfl : policy = .skip := hpolicy
  refine .refused ⟨rfl, List.suffix_refl _⟩ rfl ?_ fun _ => rfl
  intro other hmem hother
  obtain rfl := List.mem_singleton.mp hmem
  exact absurd hother h

/-! ## Repetition -/

theorem repeatWhile {more : ParserState → Bool} (hmore : ∀ s, more s.strict = more s)
    (hp : Strict p) : Strict (repeatWhile more p) := by
  intro s hpolicy
  -- the loop takes tokens in each run but the last one
  induction hn : s.tokens.length using Nat.strongRecOn generalizing s with
  | ind n ih =>
    subst hn
    by_cases hs : more s
    · rw [repeatWhile_eq_bind hs, repeatWhile_eq_bind ((hmore s).trans hs)]
      refine (hp s hpolicy).bind fun first t _ hst => ?_
      by_cases hlength : t.tokens.length < s.tokens.length
      · rw [othersWhile_of_lt hlength, othersWhile_of_lt (t := t.strict) hlength, map_eq_pure_bind]
        exact (ih _ hlength t hst.policy rfl).bind fun _ u _ htu => pure _ u htu.policy
      · rw [othersWhile_of_not_lt hlength, othersWhile_of_not_lt (t := t.strict) hlength]
        exact pure [first] t hst.policy
    · rw [Bool.not_eq_true] at hs
      rw [repeatWhile_stop hs, repeatWhile_stop ((hmore s).trans hs)]
      exact .same (.refl hpolicy) rfl

/-! ## The Grammar -/

/-- A strict run sees what the other one sees, so that the two can only part where a usage is met. -/
theorem compositional : Compositional @Strict where
  pure := pure
  bind := bind
  get_bind hsame hq := get_bind (fun s => hsame s.strict s rfl) hq
  failAt span _ h := failAt span h
  record _ _ :=
    modifyState (fun _ => rfl) (fun _ => rfl) (fun _ => List.suffix_refl _) fun _ => rfl
  advance := advance
  meet := meet
  repeatWhile hmore hitem := repeatWhile (fun s => hmore s.strict s rfl) hitem

/-! ## Documents -/

/-- Of the usages inside an extension none is recorded. A strict run is refused at the first one of
    them, or at the extension itself if there is none. -/
theorem extendedEntry {s t : ParserState} (hst : s.Continues t) (hskipped : t.skipped = s.skipped)
    (hextend : ∃ token ∈ s.tokens, token.kind = .keyword .extend) (offset : Nat) :
    Follows s (extendedEntry offset t) (extendedEntry offset t.strict) := by
  have hkind : t.strict.kind? = t.kind? := rfl
  unfold Sdl.extendedEntry
  rw [Sdl.get_bind, Sdl.get_bind, hkind]
  cases hparser : t.kind?.bind extensibleDefinition? with
  | none => exact (compositional.unexpected _ t hst.policy).after hst hskipped
  | some p =>
    obtain ⟨kind, -, hkind⟩ := Option.bind_eq_some_iff.mp hparser
    have hp := compositional.extensibleDefinition hkind { t with schemaSeen := false } hst.policy
    have hstrict : ({ t with schemaSeen := false } : ParserState).strict =
      { t.strict with schemaSeen := false } := rfl
    rw [hstrict] at hp
    dsimp only
    rw [set_bind, set_bind]
    generalize hr : p { t with schemaSeen := false } = r at hp
    generalize hr' : p { t.strict with schemaSeen := false } = r' at hp
    -- where the extension itself is recorded, an extension is heralded
    have hheralded : ∀ name, Heralded s.tokens [⟨.extension, name, offset⟩] :=
      fun _ _ _ _ => hextend
    cases hp with
    | @same d u htu _ =>
      rw [bind_of_ok hr, bind_of_ok hr', recordExtension_eq_ok htu.policy]
      refine .refused ⟨htu.policy, htu.suffix.trans hst.suffix⟩ ?_ (hheralded d.name) fun _ => rfl
      rw [← hskipped]
    | @refused d u _ _ _ _ _ htu _ _ _ =>
      rw [bind_of_ok hr, bind_of_error hr', recordExtension_eq_ok htu.policy]
      refine .refused ⟨htu.policy, htu.suffix.trans hst.suffix⟩ ?_ (hheralded d.name) ?_
      · rw [← hskipped]
      · exact fun h => absurd rfl h
    | fault hgenuine =>
      rw [bind_of_error hr, bind_of_error hr']
      exact .fault hgenuine
    | refusedFirst hgenuine =>
      rw [bind_of_error hr, bind_of_error hr']
      exact .refusedFirst hgenuine

theorem extension {s : ParserState} (hpolicy : s.policy = .skip)
    (hkind : s.kind? = some (.keyword .extend)) :
    Follows s (extension s) (extension s.strict) := by
  have hextend : ∃ token ∈ s.tokens, token.kind = .keyword .extend := by
    cases hs : s.tokens with
    | nil => simp [ParserState.kind?, hs] at hkind
    | cons token ts => exact ⟨token, by simp, by simpa [ParserState.kind?, hs] using hkind⟩
  rw [extension_eq]
  show Follows s ((Parser.advance >>= fun _ => Sdl.extendedEntry s.span.start) s)
    ((Parser.advance >>= fun _ => Sdl.extendedEntry s.span.start) s.strict)
  rcases advance_cases hpolicy with ⟨t, hr, hr', hst, hskipped⟩ | ⟨fault, t, u, hr, hr', hgenuine⟩
  · rw [bind_of_ok hr, bind_of_ok hr']
    exact extendedEntry hst hskipped hextend _
  · rw [bind_of_error hr, bind_of_error hr']
    exact .fault hgenuine

theorem entry : Strict entry := by
  intro s hpolicy
  rw [entry_eq]
  refine (compositional.description s hpolicy).bind fun _ t _ hst => ?_
  show Follows t (Sdl.entryAt t.kind? t) (Sdl.entryAt t.kind? t.strict)
  by_cases hkind : t.kind? = some (.keyword .extend)
  · rw [hkind]
    exact extension hst.policy hkind
  · exact compositional.entryAt (fun h => absurd h hkind) t hst.policy

/-- **Documents**: from every state, a strict run over a whole document follows the one that skips. -/
theorem document : Strict document := compositional.document entry

end Strict

end SchemaModel.Sdl
