import SchemaModel.Proofs.Parsing

/-! # What Holds of Every Parser of the Grammar

    The parsers of the grammar are put together from a few steps by sequences and loops, and they decide
    by the next token and by what has been read of schema blocks.

    * **View**: what a parser sees of a state when it decides how to go on.
    * **Compositional**: a property of parsers that these few steps have and that sequences and loops keep.
      It holds of every parser of the grammar, up to the definitions. Extensions are left out, since they
      set back what was skipped inside them. -/

namespace SchemaModel.Sdl

open SchemaModel.Sdl.Parser

/-! ## What a Parser Sees -/

/-- **Views**: what a parser may decide by. -/
structure View where
  /-- The next token, or the end of the input if there is none. -/
  next : Except Ending Token
  operations : List RootOperation
  schemaSeen : Bool

/-- What a parser sees of a state. -/
def ParserState.view (s : ParserState) : View where
  next :=
    match s.tokens with
    | [] => .error s.ending
    | token :: _ => .ok token
  operations := s.operations
  schemaSeen := s.schemaSeen

section

variable {s t : ParserState}

/-- In states that look alike, the same token is next, or none is left in front of the same end. -/
theorem tokens_of_view_eq (h : s.view = t.view) :
    s.tokens = [] ∧ t.tokens = [] ∧ s.ending = t.ending ∨
      ∃ token ts us, s.tokens = token :: ts ∧ t.tokens = token :: us := by
  have hnext : s.view.next = t.view.next := congrArg View.next h
  unfold ParserState.view at hnext
  cases hs : s.tokens with
  | nil =>
    cases ht : t.tokens with
    | nil => exact .inl ⟨rfl, rfl, by simpa [hs, ht] using hnext⟩
    | cons token us => simp [hs, ht] at hnext
  | cons token ts =>
    cases ht : t.tokens with
    | nil => simp [hs, ht] at hnext
    | cons token' us =>
      obtain rfl : token = token' := by simpa [hs, ht] using hnext
      exact .inr ⟨token, ts, us, rfl, rfl⟩

theorem head?_of_view_eq (h : s.view = t.view) : s.tokens.head? = t.tokens.head? := by
  rcases tokens_of_view_eq h with ⟨hs, ht, -⟩ | ⟨token, ts, us, hs, ht⟩
  · rw [hs, ht]
  · rw [hs, ht]
    rfl

theorem kind?_of_view_eq (h : s.view = t.view) : s.kind? = t.kind? := by
  rw [ParserState.kind?, head?_of_view_eq h, ParserState.kind?]

theorem isAt_of_view_eq (mark : Punctuator) (h : s.view = t.view) : s.isAt mark = t.isAt mark := by
  rw [ParserState.isAt, kind?_of_view_eq h, ParserState.isAt]

theorem span_of_view_eq (h : s.view = t.view) : s.span = t.span := by
  unfold ParserState.span
  rcases tokens_of_view_eq h with ⟨hs, ht, hending⟩ | ⟨token, ts, us, hs, ht⟩
  · rw [hs, ht, hending]
  · rw [hs, ht]
    rfl

end

/-! ## Steps, Sequences and Loops -/

/-- **Compositional**: the property holds of the steps from which the grammar is built, and is kept by
    sequences and by loops. What is met in a sequence is never an extension. -/
structure Compositional (P : ∀ {α : Type}, Parser α → Prop) : Prop where
  pure : ∀ {α : Type} (a : α), P (Pure.pure a : Parser α)
  bind : ∀ {α β : Type} {p : Parser α} {q : α → Parser β}, P p → (∀ a, P (q a)) → P (p >>= q)
  get_bind : ∀ {β : Type} {q : ParserState → Parser β},
    (∀ s t : ParserState, s.view = t.view → q s = q t) → (∀ s, P (q s)) → P (get >>= q)
  failAt : ∀ {α : Type} (span : Span) {fault : GrammarFault}, (∀ usage, fault ≠ .refused usage) →
    P (failAt span fault : Parser α)
  record : ∀ (roots : List RootOperation → List RootOperation) (seen : Bool → Bool),
    P (modify fun s => { s with operations := roots s.operations, schemaSeen := seen s.schemaSeen })
  advance : P advance
  meet : ∀ {usage : Usage}, usage.construct ≠ .extension → P (meet usage)
  repeatWhile : ∀ {α : Type} {more : ParserState → Bool} {item : Parser α},
    (∀ s t : ParserState, s.view = t.view → more s = more t) → P item → P (repeatWhile more item)

namespace Compositional

variable {P : ∀ {α : Type}, Parser α → Prop} {α β : Type} {p : Parser α}

section

variable (hP : Compositional @P)

include hP

theorem map (f : α → β) (hp : P p) : P (f <$> p) := by
  rw [map_eq_pure_bind]
  exact hP.bind hp fun a => hP.pure (f a)

/-! ## Single Steps -/

theorem fail {fault : GrammarFault} (h : ∀ usage, fault ≠ .refused usage) :
    P (fail fault : Parser α) :=
  hP.get_bind (fun _ _ hview => by rw [span_of_view_eq hview]) fun _ => hP.failAt _ h

theorem unexpected (expected : Expected) : P (unexpected expected : Parser α) :=
  hP.get_bind (fun _ _ hview => by rw [head?_of_view_eq hview]) fun _ => hP.fail (by simp)

theorem checkNext : P checkNext := by
  refine hP.get_bind (fun s t hview => ?_) fun s => ?_
  · rcases tokens_of_view_eq hview with ⟨hs, ht, hending⟩ | ⟨token, ts, us, hs, ht⟩
    · rw [hs, ht, hending]
    · rw [hs, ht]
  split
  · exact hP.failAt _ (by simp)
  · exact hP.pure ()

theorem nextKind : P nextKind :=
  hP.get_bind (fun _ _ hview => by rw [kind?_of_view_eq hview]) fun _ => hP.pure _

theorem nextOffset : P nextOffset :=
  hP.get_bind (fun _ _ hview => by rw [span_of_view_eq hview]) fun _ => hP.pure _

theorem eat (kind : TokenKind) : P (eat kind) := by
  refine hP.bind hP.nextKind fun kind? => ?_
  split
  · exact hP.bind hP.advance fun _ => hP.pure true
  · exact hP.pure false

theorem expect (kind : TokenKind) : P (expect kind) := by
  refine hP.bind hP.nextKind fun kind? => ?_
  split
  · exact hP.advance
  · exact hP.unexpected _

/-- A step that looks at the next token, if there is one. -/
theorem tokens_bind {atEnd : Parser β} {atToken : Token → Parser β} (hend : P atEnd)
    (htoken : ∀ token, P (atToken token)) :
    P (get >>= fun s : ParserState =>
      match s.tokens with
      | [] => atEnd
      | token :: _ => atToken token) := by
  refine hP.get_bind (fun s t hview => ?_) fun s => ?_
  · rcases tokens_of_view_eq hview with ⟨hs, ht, -⟩ | ⟨token, ts, us, hs, ht⟩ <;> simp only [hs, ht]
  split
  · exact hend
  · exact htoken _

theorem name : P name := by
  refine hP.get_bind (fun s t hview => ?_) fun s => ?_
  · rcases tokens_of_view_eq hview with ⟨hs, ht, -⟩ | ⟨token, ts, us, hs, ht⟩ <;> rw [hs, ht]
  split
  · split
    · exact hP.bind hP.advance fun _ => hP.pure _
    · exact hP.unexpected _
  · exact hP.unexpected _

/-! ## Repetition -/

theorem itemsUntil (close : Punctuator) (hp : P p) : P (itemsUntil close p) := by
  refine hP.bind (hP.repeatWhile (fun s t hview => ?_) hp) fun _ => ?_
  · rw [isAt_of_view_eq close hview]
  · exact hP.bind hP.advance fun _ => hP.pure _

theorem separatedBy (mark : Punctuator) (hp : P p) : P (separatedBy mark p) := by
  have hothers := hP.repeatWhile (fun _ _ => isAt_of_view_eq mark) (hP.bind hP.advance fun _ => hp)
  exact hP.bind hp fun _ => hP.bind hothers fun _ => hP.pure _

theorem optionalItems (openMark closeMark : Punctuator) (hp : P p) :
    P (optionalItems openMark closeMark p) := by
  refine hP.bind (hP.eat _) fun eaten => ?_
  split
  · exact hP.itemsUntil closeMark hp
  · exact hP.pure []

/-! ## Values and Types -/

theorem objectEntry {value : Parser Value} (h : P value) : P (objectEntry value) :=
  hP.bind hP.name fun _ => hP.bind (hP.expect _) fun _ => hP.bind h fun _ => hP.pure _

/-- What holds of the values of one level less holds of values. -/
theorem value_of_inner {levels : Nat} (hinner : ∀ below, levels = below + 1 → P (value below)) :
    P (value levels) := by
  have hplain : ∀ v : Value, P (do Parser.advance; return v) :=
    fun v => hP.bind hP.advance fun _ => hP.pure v
  have hdeep : ∀ {α : Type}, P (Parser.fail .nestedTooDeep : Parser α) := hP.fail (by simp)
  unfold Sdl.value
  refine hP.tokens_bind (hP.unexpected _) fun token => ?_
  -- one case for each kind of token, of which strings and brackets go on from there
  split <;> try first | exact hplain _ | exact hP.unexpected _
  · split
    · exact hplain _
    · exact hP.fail (by simp)
  · cases levels with
    | zero => exact hdeep
    | succ levels =>
      exact hP.bind hP.advance fun _ => hP.bind (hP.itemsUntil _ (hinner levels rfl)) fun _ => hP.pure _
  · cases levels with
    | zero => exact hdeep
    | succ levels =>
      have hentry := hP.objectEntry (hinner levels rfl)
      exact hP.bind hP.advance fun _ => hP.bind (hP.itemsUntil _ hentry) fun _ => hP.pure _

theorem value (levels : Nat) : P (value levels) := by
  induction levels with
  | zero => exact hP.value_of_inner (by simp)
  | succ levels ih => exact hP.value_of_inner fun below hbelow => Nat.succ.inj hbelow ▸ ih

theorem bang (type : TypeRef String) : P (bang type) := by
  refine hP.bind (hP.eat _) fun eaten => ?_
  split <;> exact hP.pure _

/-- What holds of the types of one level less holds of types. -/
theorem typeRef_of_inner {levels : Nat} (hinner : ∀ below, levels = below + 1 → P (typeRef below)) :
    P (typeRef levels) := by
  unfold Sdl.typeRef
  refine hP.tokens_bind (hP.unexpected _) fun token => ?_
  split
  · cases levels with
    | zero => exact hP.fail (by simp)
    | succ levels =>
      refine hP.bind hP.advance fun _ => hP.bind (hinner levels rfl) fun item => ?_
      exact hP.bind (hP.expect _) fun _ => hP.bang _
  · split
    · exact hP.bind hP.name fun _ => hP.bang _
    · exact hP.unexpected _

theorem typeRef (levels : Nat) : P (typeRef levels) := by
  induction levels with
  | zero => exact hP.typeRef_of_inner (by simp)
  | succ levels ih => exact hP.typeRef_of_inner fun below hbelow => Nat.succ.inj hbelow ▸ ih

/-! ## Descriptions and Directives -/

theorem description : P description := by
  refine hP.bind hP.nextKind fun kind? => ?_
  split
  · exact hP.map _ (hP.value _)
  · exact hP.advance
  · exact hP.pure ()

theorem directive : P directive := by
  refine hP.bind hP.nextOffset fun offset => hP.bind hP.advance fun _ => hP.bind hP.name fun key => ?_
  refine hP.bind (hP.optionalItems _ _ (hP.objectEntry (hP.value _))) fun _ => ?_
  dsimp only
  split
  · exact hP.pure _
  · exact hP.bind (hP.meet (by simp)) fun _ => hP.pure _

theorem directives : P directives := hP.repeatWhile (fun _ _ => isAt_of_view_eq _) hP.directive

/-! ## Members -/

theorem inputValueDef : P inputValueDef := by
  refine hP.bind hP.description fun _ => hP.bind hP.name fun key => hP.bind (hP.expect _) fun _ => ?_
  refine hP.bind (hP.typeRef _) fun type => hP.bind (hP.eat _) fun eaten => ?_
  split
  · exact hP.bind (hP.map _ (hP.value _)) fun _ => hP.bind hP.directives fun _ => hP.pure _
  · exact hP.bind (hP.pure none) fun _ => hP.bind hP.directives fun _ => hP.pure _

theorem argumentDefs : P argumentDefs := hP.optionalItems _ _ hP.inputValueDef

theorem fieldDef : P fieldDef := by
  refine hP.bind hP.description fun _ => hP.bind hP.name fun _ => hP.bind hP.argumentDefs fun _ => ?_
  refine hP.bind (hP.expect _) fun _ => hP.bind (hP.typeRef _) fun _ => ?_
  exact hP.bind hP.directives fun _ => hP.pure _

theorem fieldDefs : P fieldDefs := hP.optionalItems _ _ hP.fieldDef

theorem enumValueDef : P enumValueDef := by
  refine hP.bind hP.description fun _ => hP.bind hP.nextKind fun kind? => ?_
  split
  · exact hP.fail (by simp)
  · exact hP.fail (by simp)
  · exact hP.fail (by simp)
  · exact hP.bind hP.name fun _ => hP.bind hP.directives fun _ => hP.pure _

theorem implementedInterfaces : P implementedInterfaces := by
  refine hP.bind (hP.eat _) fun eaten => ?_
  split
  · refine hP.bind (hP.eat _) fun _ => hP.separatedBy _ ?_
    exact hP.bind hP.name fun _ => hP.bind (hP.meet (by simp)) fun _ => hP.pure _
  · exact hP.pure []

theorem rootOperation : P rootOperation := by
  refine hP.get_bind (fun s t hview => ?_) fun s => ?_
  · rw [kind?_of_view_eq hview, span_of_view_eq hview]
  split
  · exact hP.unexpected _
  · refine hP.bind hP.advance fun _ => hP.bind (hP.expect _) fun _ => hP.bind hP.name fun type => ?_
    refine hP.get_bind (fun s t hview => ?_) fun t => ?_
    · have hroots : s.operations = t.operations := congrArg View.operations hview
      rw [hroots]
    split
    · exact hP.failAt _ (by simp)
    · exact hP.bind (hP.record (_ :: ·) id) fun _ => hP.pure _

/-! ## Definitions -/

theorem schemaBlock : P schemaBlock := by
  refine hP.bind hP.nextOffset fun _ => hP.bind hP.advance fun _ => hP.bind hP.directives fun _ => ?_
  refine hP.bind (hP.optionalItems _ _ hP.rootOperation) fun _ => ?_
  exact hP.bind (hP.record id fun _ => true) fun _ => hP.pure _

theorem schemaDefinition : P schemaDefinition := by
  rw [schemaDefinition_eq]
  refine hP.get_bind (fun s t hview => ?_) fun s => ?_
  · have hseen : s.schemaSeen = t.schemaSeen := congrArg View.schemaSeen hview
    rw [hseen]
  split
  · exact hP.bind (hP.fail (by simp)) fun _ => hP.schemaBlock
  · exact hP.schemaBlock

/-- Most definitions begin with a keyword and a name. -/
theorem named {q : Nat → Name → Parser Definition} (hq : ∀ offset key, P (q offset key)) :
    P (do
      let offset ← Parser.nextOffset
      Parser.advance
      let key ← Parser.name
      q offset key) :=
  hP.bind hP.nextOffset fun offset => hP.bind hP.advance fun _ => hP.bind hP.name fun key => hq offset key

theorem fieldedDefinition
    {q : Nat → Name → List Name → List Name → List FieldDef → Parser Definition}
    (hq : ∀ offset key interfaces directives fields, P (q offset key interfaces directives fields)) :
    P (fieldedDefinition q) := by
  refine hP.named fun offset key => ?_
  refine hP.bind hP.implementedInterfaces fun _ => hP.bind hP.directives fun _ => ?_
  exact hP.bind hP.fieldDefs fun _ => hq _ _ _ _ _

theorem pipedNames : P pipedNames := hP.bind (hP.eat _) fun _ => hP.separatedBy _ hP.name

theorem unionDefinition : P unionDefinition := by
  refine hP.named fun offset key => ?_
  refine hP.bind hP.directives fun _ => hP.bind (hP.eat _) fun eaten => ?_
  split
  · exact hP.bind hP.pipedNames fun _ => hP.bind (hP.meet (by simp)) fun _ => hP.pure _
  · exact hP.bind (hP.pure []) fun _ => hP.bind (hP.meet (by simp)) fun _ => hP.pure _

theorem bracedDefinition {item : Parser α} (hitem : P item) (body : List α → Body) :
    P (bracedDefinition item body) := by
  refine hP.named fun offset key => ?_
  refine hP.bind hP.directives fun _ => ?_
  exact hP.bind (hP.optionalItems _ _ hitem) fun _ => hP.pure _

theorem scalarDefinition : P scalarDefinition :=
  hP.named fun _ _ => hP.bind hP.directives fun _ => hP.pure _

theorem directiveDefinition : P directiveDefinition := by
  refine hP.bind hP.nextOffset fun _ => hP.bind hP.advance fun _ => hP.bind (hP.expect _) fun _ => ?_
  refine hP.bind hP.name fun _ => hP.bind hP.argumentDefs fun _ => hP.bind (hP.eat _) fun _ => ?_
  refine hP.bind (hP.expect _) fun _ => hP.bind hP.pipedNames fun _ => ?_
  exact hP.bind (hP.meet (by simp)) fun _ => hP.pure _

theorem extensibleDefinition {kind : TokenKind} {definition : Parser Definition}
    (h : extensibleDefinition? kind = some definition) : P definition := by
  unfold extensibleDefinition? at h
  split at h <;> cases h
  · exact hP.schemaDefinition
  · exact hP.fieldedDefinition fun _ _ _ _ _ => hP.pure _
  · exact hP.fieldedDefinition fun _ _ _ _ _ => hP.bind (hP.meet (by simp)) fun _ => hP.pure _
  · exact hP.unionDefinition
  · exact hP.bracedDefinition hP.enumValueDef .enum
  · exact hP.bracedDefinition hP.inputValueDef .input
  · exact hP.scalarDefinition

/-! ## Documents -/

/-- The item of a document that begins with a token of the given kind, if extensions have the property
    as well. -/
theorem entryAt {kind? : Option TokenKind} (h : kind? = some (.keyword .extend) → P extension) :
    P (entryAt kind?) := by
  unfold Sdl.entryAt
  split
  · exact h rfl
  · exact hP.map _ hP.directiveDefinition
  · split
    · rename_i definition hdefinition
      obtain ⟨kind, -, hkind⟩ := Option.bind_eq_some_iff.mp hdefinition
      exact hP.map _ (hP.extensibleDefinition hkind)
    · exact hP.unexpected _

/-- **Documents** have the property if their items have it. -/
theorem document (hentry : P entry) : P document := by
  refine hP.bind hP.checkNext fun _ => hP.repeatWhile (fun s t hview => ?_) hentry
  rcases tokens_of_view_eq hview with ⟨hs, ht, -⟩ | ⟨token, ts, us, hs, ht⟩
  · rw [hs, ht]
  · rw [hs, ht]
    rfl

end

end Compositional

end SchemaModel.Sdl
