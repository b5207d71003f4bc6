import SchemaModel.Proofs.Parsing

/-! # Parsing at Other Offsets

    The parser copies the byte offsets of its tokens into what it gives, and never looks at them.

    * **move** and **unplaced**: an offset, and everything that holds offsets, with each of them
      replaced by another one, or by zero.
    * **Moves**: a parser that is run on moved tokens gives what it would have given, moved in the
      same way, and stops where it would have stopped. So does every parser of the grammar. -/

namespace SchemaModel.Sdl

/-! ## Moving Offsets -/

/-- What holds byte offsets, and how they are replaced. -/
class Movable (α : Type) where
  move : (Nat → Nat) → α → α

open Movable (move)

/-- An offset. -/
instance : Movable Nat := ⟨fun f offset => f offset⟩

instance : Movable Unit := ⟨fun _ u => u⟩

instance : Movable Bool := ⟨fun _ flag => flag⟩

instance : Movable Value := ⟨fun _ value => value⟩

instance : Movable (Option Value) := ⟨fun _ value => value⟩

instance : Movable (String × Value) := ⟨fun _ entry => entry⟩

instance : Movable (TypeRef String) := ⟨fun _ type => type⟩

instance : Movable (RootOperation × String) := ⟨fun _ operation => operation⟩

instance : Movable (Option TokenKind) := ⟨fun _ kind => kind⟩

instance {α : Type} [Movable α] : Movable (List α) := ⟨fun f as => as.map (move f)⟩

instance : Movable Span := ⟨fun f span => ⟨f span.start, f span.stop⟩⟩

instance : Movable Token := ⟨fun f token => { token with span := move f token.span }⟩

instance : Movable Ending := ⟨fun f ending => { ending with span := move f ending.span }⟩

instance : Movable Feed := ⟨fun f feed => ⟨move f feed.tokens, move f feed.ending⟩⟩

instance : Movable Name := ⟨fun f name => ⟨name.text, f name.offset⟩⟩

instance : Movable InputValueDef :=
  ⟨fun f d => ⟨move f d.name, d.type, d.defaultValue, move f d.directives⟩⟩

instance : Movable FieldDef :=
  ⟨fun f d => ⟨move f d.name, move f d.args, d.type, move f d.directives⟩⟩

instance : Movable EnumValueDef := ⟨fun f d => ⟨move f d.name, move f d.directives⟩⟩

instance : Movable Body where
  move f
    | .schema operations => .schema operations
    | .object interfaces fields => .object (move f interfaces) (move f fields)
    | .interface interfaces fields => .interface (move f interfaces) (move f fields)
    | .union members => .union (move f members)
    | .enum values => .enum (move f values)
    | .input fields => .input (move f fields)
    | .scalar => .scalar
    | .directive args locations => .directive (move f args) (move f locations)

instance : Movable Definition :=
  ⟨fun f d => ⟨f d.offset, d.name, move f d.directives, move f d.body⟩⟩

instance : Movable Entry where
  move f
    | .definition d => .definition (move f d)
    | .extension offset d => .extension (f offset) (move f d)

instance : Movable Usage := ⟨fun f usage => { usage with offset := f usage.offset }⟩

instance : Movable GrammarFault where
  move f
    | .refused usage => .refused (move f usage)
    | fault => fault

instance : Movable SourceFault := ⟨fun f fault => ⟨move f fault.fault, move f fault.span⟩⟩

instance : Movable ParserState where
  move f s := { s with
    tokens := move f s.tokens, ending := move f s.ending, skipped := move f s.skipped }

instance {α : Type} [Movable α] : Movable (EStateM.Result SourceFault ParserState α) where
  move f
    | .ok a t => .ok (move f a) (move f t)
    | .error fault t => .error (move f fault) (move f t)

/-- The same with all places forgotten. -/
def unplaced {α : Type} [Movable α] : α → α := move fun _ => 0

/-- What holds no offsets stays as it is, in lists as well. -/
theorem move_list_eq_self {α : Type} [Movable α] {f : Nat → Nat} (h : ∀ a : α, move f a = a)
    (as : List α) : move f as = as := by
  show as.map (move f) = as
  rw [funext h, List.map_id']

/-! ## Runs on Moved Tokens -/

/-- **Moves to**: on moved tokens the second parser gives what the first one gives, moved. -/
def MovesTo {α : Type} [Movable α] (f : Nat → Nat) (p p' : Parser α) : Prop :=
  ∀ s : ParserState, p' (move f s) = move f (p s)

section

variable {α β : Type} [Movable α] [Movable β] {f : Nat → Nat} {p p' : Parser α}
  {q q' : α → Parser β} {s : ParserState}

theorem kind?_move (s : ParserState) : (move f s).kind? = s.kind? := by
  show (s.tokens.map (move f)).head?.map Token.kind = s.tokens.head?.map Token.kind
  cases s.tokens <;> rfl

theorem isAt_move (s : ParserState) (mark : Punctuator) : (move f s).isAt mark = s.isAt mark := by
  rw [ParserState.isAt, kind?_move, ParserState.isAt]

theorem span_move (s : ParserState) : (move f s).span = move f s.span := by
  show ((s.tokens.map (move f)).head?.map Token.span).getD _ = move f ((s.tokens.head?.map _).getD _)
  cases s.tokens <;> rfl

theorem length_tokens_move (s : ParserState) : (move f s).tokens.length = s.tokens.length :=
  List.length_map _

namespace MovesTo

theorem pure (f : Nat → Nat) (a : α) : MovesTo f (Pure.pure a) (Pure.pure (move f a)) :=
  fun _ => rfl

theorem bind (hp : MovesTo f p p') (hq : ∀ a, MovesTo f (q a) (q' (move f a))) :
    MovesTo f (p >>= q) (p' >>= q') := by
  intro s
  have hfirst := hp s
  cases hrun : p s with
  | ok a t =>
    rw [hrun] at hfirst
    rw [bind_of_ok hrun, bind_of_ok hfirst]
    exact hq a t
  | error fault t =>
    rw [hrun] at hfirst
    rw [bind_of_error hrun, bind_of_error hfirst]
    rfl

theorem map {g g' : α → β} (hp : MovesTo f p p') (hg : ∀ a, g' (move f a) = move f (g a)) :
    MovesTo f (g <$> p) (g' <$> p') := by
  rw [map_eq_pure_bind, map_eq_pure_bind]
  exact hp.bind fun a => hg a ▸ pure f (g a)

/-- A step that looks at the state. -/
theorem get_bind {q q' : ParserState → Parser β} (hq : ∀ s, MovesTo f (q s) (q' (move f s))) :
    MovesTo f (get >>= q) (get >>= q') := fun s => hq s s

/-! ## Single Steps -/

theorem failAt (span : Span) (fault : GrammarFault) :
    MovesTo f (Parser.failAt span fault : Parser α) (Parser.failAt (move f span) (move f fault)) :=
  fun _ => rfl

theorem fail {fault : GrammarFault} (h : move f fault = fault) :
    MovesTo f (Parser.fail fault : Parser α) (Parser.fail fault) := by
  refine get_bind fun s => ?_
  have hfail := failAt (f := f) (α := α) s.span fault
  rw [h] at hfail
  rwa [span_move]

theorem unexpected (expected : Expected) :
    MovesTo f (Parser.unexpected expected : Parser α) (Parser.unexpected expected) := by
  refine get_bind fun s => ?_
  have htext : (move f s).tokens.head?.map Token.text = s.tokens.head?.map Token.text := by
    show (s.tokens.map (move f)).head?.map Token.text = _
    cases s.tokens <;> rfl
  rw [htext]
  exact fail rfl

theorem checkNext : MovesTo f Parser.checkNext Parser.checkNext := by
  intro s
  obtain ⟨tokens, ⟨span, fault⟩, _⟩ := s
  cases tokens <;> cases fault <;> rfl

/-- A change of the state that commutes with the moving of offsets. -/
theorem modifyState {g g' : ParserState → ParserState} (h : ∀ s, g' (move f s) = move f (g s)) :
    MovesTo f (modify g : Parser Unit) (modify g') := by
  intro s
  show EStateM.Result.ok _ (g' (move f s)) = _
  rw [h]
  rfl

theorem advance : MovesTo f Parser.advance Parser.advance := by
  refine (modifyState fun s => ?_).bind fun _ => checkNext
  obtain ⟨tokens, _⟩ := s
  cases tokens <;> rfl

theorem nextKind : MovesTo f Parser.nextKind Parser.nextKind :=
  get_bind fun s => kind?_move (f := f) s ▸ pure f s.kind?

theorem nextKind_bind {q q' : Option TokenKind → Parser β}
    (hq : ∀ kind?, MovesTo f (q kind?) (q' kind?)) :
    MovesTo f (Parser.nextKind >>= q) (Parser.nextKind >>= q') :=
  nextKind.bind hq

theorem nextOffset : MovesTo f Parser.nextOffset Parser.nextOffset :=
  get_bind fun s => span_move (f := f) s ▸ pure f s.span.start

theorem eat (kind : TokenKind) : MovesTo f (Parser.eat kind) (Parser.eat kind) := by
  refine nextKind.bind fun kind? => ?_
  show MovesTo f (if kind? == some kind then _ else _) (if kind? == some kind then _ else _)
  split
  · exact advance.bind fun _ => pure f true
  · exact pure f false

theorem expect (kind : TokenKind) : MovesTo f (Parser.expect kind) (Parser.expect kind) := by
  refine nextKind.bind fun kind? => ?_
  show MovesTo f (if kind? == some kind then _ else _) (if kind? == some kind then _ else _)
  split
  · exact advance
  · exact unexpected _

theorem name : MovesTo f Parser.name Parser.name := by
  refine get_bind fun s => ?_
  have htokens : (move f s).tokens = s.tokens.map (move f) := rfl
  rw [htokens]
  cases s.tokens with
  | nil => exact unexpected _
  | cons token ts =>
    show MovesTo f (if token.kind.isName then _ else _) (if token.kind.isName then _ else _)
    split
    · exact advance.bind fun _ => pure f (⟨token.text, token.span.start⟩ : Name)
    · exact unexpected _

theorem meet (usage : Usage) : MovesTo f (Parser.meet usage) (Parser.meet (move f usage)) := by
  refine get_bind fun s => ?_
  have hpolicy : (move f s).policy = s.policy := rfl
  rw [hpolicy]
  split
  · refine modifyState fun s => ?_
    show { move f s with skipped := s.skipped.map (move f) ++ [move f usage] } =
      { move f s with skipped := (s.skipped ++ [usage]).map (move f) }
    rw [List.map_append, List.map_singleton]
  · refine get_bind fun s => ?_
    rw [span_move]
    exact failAt s.span (.refused usage)

/-! ## Repetition -/

theorem repeatWhile {more : ParserState → Bool} (hmore : ∀ s, more (move f s) = more s)
    (hp : MovesTo f p p') : MovesTo f (Parser.repeatWhile more p) (Parser.repeatWhile more p') := by
  intro s
  induction hn : s.tokens.length using Nat.strongRecOn generalizing s with
  | ind n ih =>
    subst hn
    by_cases hs : more s
    · rw [repeatWhile_eq_bind hs, repeatWhile_eq_bind ((hmore s).trans hs)]
      have hfirst := hp s
      cases hrun : p s with
      | error fault t =>
        rw [hrun] at hfirst
        rw [bind_of_error hrun, bind_of_error hfirst]
        rfl
      | ok a t =>
        rw [hrun] at hfirst
        rw [bind_of_ok hrun, bind_of_ok hfirst]
        -- the loop goes on in both runs, or in none
        by_cases hlt : t.tokens.length < s.tokens.length
        · have hothers := ih _ hlt t rfl
          rw [othersWhile_of_lt hlt, othersWhile_of_lt
            (by rwa [length_tokens_move, length_tokens_move])]
          cases hrest : Parser.repeatWhile more p t with
          | ok as u =>
            rw [hrest] at hothers
            rw [map_of_ok hrest, map_of_ok hothers]
            rfl
          | error fault u =>
            rw [hrest] at hothers
            rw [map_eq_pure_bind, map_eq_pure_bind, bind_of_error hrest, bind_of_error hothers]
            rfl
        · rw [othersWhile_of_not_lt hlt, othersWhile_of_not_lt
            (by rwa [length_tokens_move, length_tokens_move])]
          rfl
    · rw [Bool.not_eq_true] at hs
      rw [repeatWhile_stop hs, repeatWhile_stop ((hmore s).trans hs)]
      rfl

theorem itemsUntil (close : Punctuator) (hp : MovesTo f p p') :
    MovesTo f (Parser.itemsUntil close p) (Parser.itemsUntil close p') :=
  (hp.repeatWhile fun s => by rw [isAt_move]).bind fun as => advance.bind fun _ => pure f as

theorem separatedBy (mark : Punctuator) (hp : MovesTo f p p') :
    MovesTo f (Parser.separatedBy mark p) (Parser.separatedBy mark p') := by
  refine hp.bind fun first => ?_
  refine MovesTo.bind ?_ fun others => pure f (first :: others)
  exact repeatWhile (fun s => isAt_move s mark) (advance.bind fun _ => hp)

theorem optionalItems (openMark closeMark : Punctuator) (hp : MovesTo f p p') :
    MovesTo f (Parser.optionalItems openMark closeMark p)
      (Parser.optionalItems openMark closeMark p') := by
  refine (eat _).bind fun eaten => ?_
  cases eaten with
  | true => exact hp.itemsUntil closeMark
  | false => exact pure f ([] : List α)

end MovesTo

end

/-! ## Values and Types -/

/-- **Moves**: the parser looks at no offset. -/
def Moves {α : Type} [Movable α] (p : Parser α) : Prop :=
  ∀ f, MovesTo f p p

namespace Moves

open MovesTo (pure advance nextKind nextOffset eat expect name meet fail unexpected modifyState)

variable {α : Type} [Movable α]

/-- A step that looks at the next token, but not at its place. -/
theorem get_bind {f : Nat → Nat} {q : ParserState → Parser α} (hsame : ∀ s, q (move f s) = q s)
    (hq : ∀ s, MovesTo f (q s) (q s)) : MovesTo f (get >>= q) (get >>= q) :=
  MovesTo.get_bind fun s => (hsame s).symm ▸ hq s

theorem objectEntry {value : Parser Value} (h : Moves value) : Moves (objectEntry value) :=
  fun f => name.bind fun key => (expect _).bind fun _ => (h f).bind fun v => pure f (key.text, v)

/-- A value looks at no offset if the values of one level less look at none. -/
theorem value_of_inner {levels : Nat} (hinner : ∀ below, levels = below + 1 → Moves (value below)) :
    Moves (value levels) := by
  intro f
  have hplain : ∀ v : Value, MovesTo f (do Parser.advance; return v) (do Parser.advance; return v) :=
    fun v => advance.bind fun _ => pure f v
  unfold Sdl.value
  refine get_bind (fun s => ?_) fun s => ?_
  · obtain ⟨tokens, _⟩ := s
    cases tokens <;> rfl
  split
  · exact unexpected _
  · -- one case for each kind of token, of which strings and brackets go on from there
    split <;> try first | exact hplain _ | exact unexpected _
    · split
      · exact hplain _
      · exact fail rfl
    · cases levels with
      | zero => exact fail rfl
      | succ levels =>
        refine advance.bind fun _ => ((hinner levels rfl f).itemsUntil _).bind fun items => ?_
        rw [move_list_eq_self (fun _ => rfl) items]
        exact pure f (Value.list items)
    · cases levels with
      | zero => exact fail rfl
      | succ levels =>
        have hentry := objectEntry (hinner levels rfl) f
        refine advance.bind fun _ => (hentry.itemsUntil _).bind fun entries => ?_
        rw [move_list_eq_self (fun _ => rfl) entries]
        exact pure f (Value.object entries)

theorem value (levels : Nat) : Moves (value levels) := by
  induction levels with
  | zero => exact value_of_inner (by simp)
  | succ levels ih =>
    exact value_of_inner fun below hbelow => (Nat.succ.inj hbelow) ▸ ih

theorem bang (type : TypeRef String) : Moves (bang type) := by
  intro f
  refine (eat _).bind fun eaten => ?_
  cases eaten with
  | true => exact pure f (TypeRef.nonNull type)
  | false => exact pure f type

/-- A type looks at no offset if the types of one level less look at none. -/
theorem typeRef_of_inner {levels : Nat}
    (hinner : ∀ below, levels = below + 1 → Moves (typeRef below)) : Moves (typeRef levels) := by
  intro f
  unfold Sdl.typeRef
  refine get_bind (fun s => ?_) fun s => ?_
  · obtain ⟨tokens, _⟩ := s
    cases tokens <;> rfl
  split
  · exact unexpected _
  · split
    · cases levels with
      | zero => exact fail rfl
      | succ levels =>
        exact advance.bind fun _ => (hinner levels rfl f).bind fun item =>
          (expect _).bind fun _ => bang (.list item) f
    · split
      · exact name.bind fun leaf => bang (.named leaf.text) f
      · exact unexpected _

theorem typeRef (levels : Nat) : Moves (typeRef levels) := by
  induction levels with
  | zero => exact typeRef_of_inner (by simp)
  | succ levels ih =>
    exact typeRef_of_inner fun below hbelow => (Nat.succ.inj hbelow) ▸ ih

/-! ## Descriptions and Directives -/

theorem description : Moves description := by
  intro f
  refine MovesTo.nextKind_bind fun kind? => ?_
  split
  · exact (value nestingLimit f).map fun _ => rfl
  · exact advance
  · exact pure f ()

theorem directive : Moves directive := by
  intro f
  refine nextOffset.bind fun offset => advance.bind fun _ => name.bind fun key => ?_
  refine ((objectEntry (value nestingLimit) f).optionalItems _ _).bind fun _ => ?_
  show MovesTo f (if isCoreDirective key.text then _ else _)
    (if isCoreDirective key.text then _ else _)
  split
  · exact pure f (⟨key.text, offset⟩ : Name)
  · exact (meet ⟨.directive, key.text, offset⟩).bind fun _ => pure f (⟨key.text, offset⟩ : Name)

theorem directives : Moves directives :=
  fun f => (directive f).repeatWhile fun s => isAt_move s _

/-! ## Members -/

theorem inputValueDef : Moves inputValueDef := by
  intro f
  refine (description f).bind fun _ => name.bind fun key => (expect _).bind fun _ => ?_
  refine (typeRef _ f).bind fun type => (eat _).bind fun eaten => ?_
  have hend : ∀ v : Option Value, MovesTo f (do
      let directives ← Sdl.directives
      return (⟨key, type, v, directives⟩ : InputValueDef)) (do
      let directives ← Sdl.directives
      return (⟨move f key, type, v, directives⟩ : InputValueDef)) := fun v =>
    (directives f).bind fun ds => pure f (⟨key, type, v, ds⟩ : InputValueDef)
  cases eaten with
  | true =>
    have hvalue : MovesTo f (some <$> Sdl.value nestingLimit) (some <$> Sdl.value nestingLimit) :=
      (value nestingLimit f).map fun _ => rfl
    exact hvalue.bind fun v => hend v
  | false => exact (pure f (none : Option Value)).bind fun v => hend v

theorem argumentDefs : Moves argumentDefs := fun f => (inputValueDef f).optionalItems _ _

theorem fieldDef : Moves fieldDef :=
  fun f => (description f).bind fun _ => name.bind fun key => (argumentDefs f).bind fun args =>
    (expect _).bind fun _ => (typeRef _ f).bind fun type => (directives f).bind fun ds =>
      pure f (⟨key, args, type, ds⟩ : FieldDef)

theorem fieldDefs : Moves fieldDefs := fun f => (fieldDef f).optionalItems _ _

theorem enumValueDef : Moves enumValueDef := by
  intro f
  refine (description f).bind fun _ => MovesTo.nextKind_bind fun kind? => ?_
  split
  · exact fail rfl
  · exact fail rfl
  · exact fail rfl
  · exact name.bind fun key => (directives f).bind fun ds => pure f (⟨key, ds⟩ : EnumValueDef)

theorem implementedInterfaces : Moves implementedInterfaces := by
  intro f
  refine (eat _).bind fun eaten => ?_
  cases eaten with
  | true =>
    refine (eat _).bind fun _ => MovesTo.separatedBy _ ?_
    exact name.bind fun key => (meet ⟨.implements, key.text, key.offset⟩).bind fun _ => pure f key
  | false => exact pure f ([] : List Name)

theorem rootOperation : Moves rootOperation := by
  intro f
  refine MovesTo.get_bind fun s => ?_
  rw [kind?_move, span_move]
  split
  · exact unexpected _
  · rename_i operation _
    refine advance.bind fun _ => (expect _).bind fun _ => name.bind fun type => ?_
    refine MovesTo.get_bind fun t => ?_
    show MovesTo f (if t.operations.contains operation then _ else _)
      (if t.operations.contains operation then _ else _)
    split
    · exact MovesTo.failAt s.span (.operationRepeated operation)
    · exact MovesTo.bind (modifyState fun _ => by rfl) fun _ => pure f (operation, type.text)

/-! ## Definitions -/

theorem schemaBlock : Moves schemaBlock := by
  intro f
  refine nextOffset.bind fun offset => advance.bind fun _ => (directives f).bind fun ds => ?_
  refine ((rootOperation f).optionalItems _ _).bind fun operations => ?_
  rw [move_list_eq_self (fun _ => rfl) operations]
  exact MovesTo.bind (modifyState fun _ => by rfl) fun _ =>
    pure f (⟨offset, _, ds, .schema operations⟩ : Definition)

theorem schemaDefinition : Moves schemaDefinition := by
  intro f
  rw [schemaDefinition_eq]
  refine get_bind (fun _ => rfl) fun s => ?_
  split
  · exact (fail rfl).bind fun _ => schemaBlock f
  · exact schemaBlock f

theorem objectDefinition : Moves objectDefinition :=
  fun f => nextOffset.bind fun offset => advance.bind fun _ => name.bind fun key =>
    (implementedInterfaces f).bind fun interfaces => (directives f).bind fun ds =>
      (fieldDefs f).bind fun fields =>
        pure f (⟨offset, key.text, ds, .object interfaces fields⟩ : Definition)

theorem interfaceDefinition : Moves interfaceDefinition :=
  fun f => nextOffset.bind fun offset => advance.bind fun _ => name.bind fun key =>
    (implementedInterfaces f).bind fun interfaces => (directives f).bind fun ds =>
      (fieldDefs f).bind fun fields => (meet ⟨.interface, key.text, offset⟩).bind fun _ =>
        pure f (⟨offset, key.text, ds, .interface interfaces fields⟩ : Definition)

theorem pipedNames : Moves pipedNames := fun _ => (eat _).bind fun _ => name.separatedBy _

theorem unionDefinition : Moves unionDefinition := by
  intro f
  refine nextOffset.bind fun offset => advance.bind fun _ => name.bind fun key => ?_
  refine (directives f).bind fun ds => (eat _).bind fun eaten => ?_
  have hend : ∀ members : List Name, MovesTo f (do
      Parser.meet ⟨.union, key.text, offset⟩
      return (⟨offset, key.text, ds, .union members⟩ : Definition)) (do
      Parser.meet ⟨.union, key.text, f offset⟩
      return (⟨f offset, key.text, move f ds, .union (move f members)⟩ : Definition)) :=
    fun members => (meet ⟨.union, key.text, offset⟩).bind fun _ =>
      pure f (⟨offset, key.text, ds, .union members⟩ : Definition)
  cases eaten with
  | true => exact (pipedNames f).bind fun members => hend members
  | false => exact (pure f ([] : List Name)).bind fun members => hend members

theorem enumDefinition : Moves enumDefinition :=
  fun f => nextOffset.bind fun offset => advance.bind fun _ => name.bind fun key =>
    (directives f).bind fun ds => ((enumValueDef f).optionalItems _ _).bind fun values =>
      pure f (⟨offset, key.text, ds, .enum values⟩ : Definition)

theorem inputDefinition : Moves inputDefinition :=
  fun f => nextOffset.bind fun offset => advance.bind fun _ => name.bind fun key =>
    (directives f).bind fun ds => ((inputValueDef f).optionalItems _ _).bind fun fields =>
      pure f (⟨offset, key.text, ds, .input fields⟩ : Definition)

theorem scalarDefinition : Moves scalarDefinition :=
  fun f => nextOffset.bind fun offset => advance.bind fun _ => name.bind fun key =>
    (directives f).bind fun ds => pure f (⟨offset, key.text, ds, .scalar⟩ : Definition)

theorem directiveDefinition : Moves directiveDefinition :=
  fun f => nextOffset.bind fun offset => advance.bind fun _ => (expect _).bind fun _ =>
    name.bind fun key => (argumentDefs f).bind fun args => (eat _).bind fun _ =>
      (expect _).bind fun _ => (pipedNames f).bind fun locations =>
        (meet ⟨.directiveDefinition, key.text, offset⟩).bind fun _ =>
          pure f (⟨offset, key.text, [], .directive args locations⟩ : Definition)

theorem extensibleDefinition {kind : TokenKind} {p : Parser Definition}
    (h : extensibleDefinition? kind = some p) : Moves p := by
  unfold extensibleDefinition? at h
  split at h <;> cases h
  · exact schemaDefinition
  · exact objectDefinition
  · exact interfaceDefinition
  · exact unionDefinition
  · exact enumDefinition
  · exact inputDefinition
  · exact scalarDefinition

/-! ## Documents -/

theorem recordExtension (before : ParserState) (offset : Nat) (extended : Definition)
    (f : Nat → Nat) : MovesTo f (recordExtension before offset extended)
      (recordExtension (move f before) (f offset) (move f extended)) :=
  MovesTo.bind (modifyState fun _ => rfl) fun _ =>
    (meet ⟨.extension, extended.name, offset⟩).bind fun _ =>
      pure f (Entry.extension offset extended)

theorem extendedEntry (offset : Nat) (f : Nat → Nat) :
    MovesTo f (extendedEntry offset) (extendedEntry (f offset)) := by
  refine MovesTo.get_bind fun s => ?_
  rw [kind?_move]
  cases hparser : s.kind?.bind extensibleDefinition? with
  | none => exact unexpected _
  | some p =>
    obtain ⟨kind, -, hkind⟩ := Option.bind_eq_some_iff.mp hparser
    have hset : MovesTo f (set { s with schemaSeen := false } : Parser PUnit)
        (set { move f s with schemaSeen := false } : Parser PUnit) := fun _ => rfl
    exact hset.bind fun _ => (extensibleDefinition hkind f).bind fun d =>
      recordExtension s offset d f

theorem extension : Moves extension := by
  intro f
  rw [extension_eq]
  exact nextOffset.bind fun offset => advance.bind fun _ => extendedEntry offset f

theorem entryAt (kind? : Option TokenKind) : Moves (entryAt kind?) := by
  intro f
  unfold Sdl.entryAt
  split
  · exact extension f
  · exact (directiveDefinition f).map fun _ => rfl
  · split
    · rename_i p hparser
      obtain ⟨kind, -, hkind⟩ := Option.bind_eq_some_iff.mp hparser
      exact (extensibleDefinition hkind f).map fun _ => rfl
    · exact unexpected _

theorem entry : Moves entry := by
  intro f
  rw [entry_eq]
  exact (description f).bind fun _ => nextKind.bind fun kind? => entryAt kind? f

/-- **Documents**: the parser looks at no offset in a whole document. -/
theorem document : Moves document :=
  fun f => MovesTo.checkNext.bind fun _ => (entry f).repeatWhile fun s => by
    show (!(s.tokens.map (move f)).isEmpty) = _
    rw [List.isEmpty_map]

end Moves

/-- A document is read from moved tokens as it is from the tokens, moved. -/
theorem document_moved (feed : Feed) (f : Nat → Nat) :
    document (.start .skip (move f feed)) = move f (document (.start .skip feed)) :=
  Moves.document f (.start .skip feed)

end SchemaModel.Sdl
