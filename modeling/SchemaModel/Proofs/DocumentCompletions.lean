import SchemaModel.Proofs.Completions
import SchemaModel.Proofs.Items

/-! # Completions of Documents

    Wherever the parser stops in a document, the tokens that it has stepped over can be completed to one that
    is accepted, unless an operation is named that has a root type already.

    * **NamesAgain**: an operation with a root type is named again, be it in a schema block or in an extension
      of one. This is found out only behind the type that follows.
    * **NewDefinition**: a definition that may stand where it does. A type always may.
    * **Items**: all that is missing in an item is completed, so that the item is admitted. -/

namespace SchemaModel.Sdl

open SchemaModel.Sdl.Parser

/-! ## Operations that Are Named Again -/

/-- Behind the opening brace of a schema block, an operation is named that has a root type by then. -/
inductive OperationsAgain : List RootOperation → List Token → Prop
  | here {granted : List RootOperation} {token : Token} {us : List Token} {operation : RootOperation} :
      operationOf? token.kind = some operation → operation ∈ granted → OperationsAgain granted (token :: us)
  | later {granted : List RootOperation} {ts us : List Token} {operation : RootOperation × String} :
      OperationPhrase ts operation → OperationsAgain (operation.1 :: granted) us →
      OperationsAgain granted (ts ++ us)

/-- A schema block names such an operation. -/
inductive BlockAgain (granted : List RootOperation) : List Token → Prop
  | intro {token : Token} {us os vs : List Token} {directives : List Name} :
      token.kind = .keyword .schema → Many DirectivePhrase us directives →
      Lone (.punctuator .braceOpen) os → OperationsAgain granted vs →
      BlockAgain granted (token :: (us ++ (os ++ vs)))

/-- **Named again**: in the first schema block or extension of one that is not read to its end, or in one
    in front of that, an operation is named that has a root type by then. -/
inductive NamesAgain : List RootOperation → List Token → Prop
  | here {granted : List RootOperation} {ds es us : List Token} :
      DescriptionPhrase ds → Perhaps (.keyword .extend) es → BlockAgain granted us →
      NamesAgain granted (ds ++ (es ++ us))
  | later {granted : List RootOperation} {ts us : List Token} {e : Entry} :
      ItemPhrase ts e → NamesAgain (Document.granting granted [e]) us → NamesAgain granted (ts ++ us)

section

variable {granted : List RootOperation} {ts us : List Token}

theorem fresh_nil (granted : List RootOperation) : Fresh granted [] := by simp [Fresh]

/-- Operations that are not named again are fresh. -/
theorem fresh_of_not_again {operations : List (RootOperation × String)}
    (h : Many OperationPhrase ts operations) (hagain : ¬OperationsAgain granted (ts ++ us)) :
    Fresh granted operations := by
  induction h generalizing granted with
  | nil => exact fresh_nil granted
  | @cons vs ws operation operations hfirst _ ih =>
    rw [List.append_assoc] at hagain
    refine fresh_cons.mpr ⟨fun hmem => ?_, ih fun hlater => hagain (.later hfirst hlater)⟩
    obtain ⟨hkind, -, -⟩ := hfirst
    exact hagain (.here hkind hmem)

theorem SchemaPhrase.fresh {d : Definition} (h : SchemaPhrase ts d)
    (hagain : ¬BlockAgain granted (ts ++ us)) : Fresh granted d.body.operations := by
  obtain ⟨hkind, hdirectives, hoperations⟩ := h
  cases hoperations with
  | absent => exact fresh_nil granted
  | @present os vs cs _ hopen hmany _ =>
    have hnone : ¬OperationsAgain granted (vs ++ (cs ++ us)) := fun h =>
      hagain (by simpa using BlockAgain.intro hkind hdirectives hopen h)
    exact fresh_of_not_again hmany hnone

/-- The operations of an item are fresh if none of them is named again. -/
theorem ItemPhrase.fresh {e : Entry} (h : ItemPhrase ts e)
    (hagain : ¬NamesAgain granted (ts ++ us)) : Fresh granted e.operations := by
  cases h with
  | entry h =>
    cases h with
    | @schema ds vs _ hd h =>
      have hnone : ¬BlockAgain granted (vs ++ us) := fun hblock =>
        hagain (by simpa using NamesAgain.here hd (.inl rfl) hblock)
      exact h.fresh hnone
    | type _ h | extension _ _ h =>
      have hnone := h.operations_eq_nil
      rw [Entry.operations, hnone]
      exact fresh_nil granted
    | directive _ h =>
      cases h
      exact fresh_nil granted
  | @schemaExtension ds vs token _ hd hkind h =>
    have hnone : ¬BlockAgain granted (vs ++ us) := fun hblock =>
      hagain (by simpa using NamesAgain.here hd (.inr ⟨token, hkind, rfl⟩) hblock)
    exact h.fresh hnone

/-- The operations whose keywords are among the tokens. -/
def operationKeywords (ts : List Token) : List RootOperation :=
  ts.filterMap fun token => operationOf? token.kind

theorem operationKeywords_append (ts us : List Token) :
    operationKeywords (ts ++ us) = operationKeywords ts ++ operationKeywords us :=
  List.filterMap_append

theorem operationKeywords_cons {token : Token} {operation : RootOperation}
    (h : operationOf? token.kind = some operation) (ts : List Token) :
    operationKeywords (token :: ts) = operation :: operationKeywords ts :=
  List.filterMap_cons_some h

/-- Operations are named by their keywords. -/
theorem sublist_operationKeywords {operations : List (RootOperation × String)}
    (h : Many OperationPhrase ts operations) :
    (operations.map Prod.fst).Sublist (operationKeywords ts) := by
  induction h with
  | nil => exact List.nil_sublist _
  | @cons vs ws operation operations hfirst _ ih =>
    obtain ⟨hkind, -, -⟩ := hfirst
    rw [operationKeywords_append, operationKeywords_cons hkind]
    exact (ih.trans (List.sublist_append_right _ _)).cons_cons _

theorem sublist_operationKeywords_item {e : Entry} (h : ItemPhrase ts e) :
    ((Document.operations [e]).map Prod.fst).Sublist (operationKeywords ts) := by
  cases hblock : e.schemaBlock? with
  | none => simp [Document.operations, hblock]
  | some block =>
    have hnamed : Document.operations [e] = block.2 := by simp [Document.operations, hblock]
    rw [hnamed]
    clear hnamed
    cases h with
    | schemaExtension _ _ _ => cases hblock
    | entry h =>
      cases h with
      | type _ h => simp [h.schemaBlock?_eq_none] at hblock
      | directive _ h => cases h; cases hblock
      | extension _ _ _ => cases hblock
      | schema _ h =>
        obtain ⟨-, -, henclosed⟩ := h
        obtain rfl := Option.some.inj hblock
        cases henclosed with
        | absent => exact List.nil_sublist _
        | present _ hmany _ =>
          refine (sublist_operationKeywords hmany).trans (List.Sublist.filterMap _ ?_)
          simp only [← List.cons_append, ← List.append_assoc]
          exact (List.sublist_append_right _ _).trans (List.sublist_append_left _ _)

/-- More operations with a root type come from more keywords. -/
theorem nodup_granting {operations : List RootOperation}
    (hsub : operations.Sublist (operationKeywords ts))
    (h : (granted ++ operationKeywords (ts ++ us)).Nodup) :
    (operations.reverse ++ granted ++ operationKeywords us).Nodup := by
  rw [operationKeywords_append] at h
  have hless : (granted ++ (operations ++ operationKeywords us)).Nodup :=
    h.sublist ((hsub.append_right _).append_left _)
  have hperm : (operations.reverse ++ granted ++ operationKeywords us).Perm
      (granted ++ (operations ++ operationKeywords us)) := by
    rw [← List.append_assoc]
    exact (((List.reverse_perm _).append_right _).trans List.perm_append_comm).append_right _
  exact hperm.nodup_iff.mpr hless

theorem OperationsAgain.not_nodup (h : OperationsAgain granted ts) :
    ¬(granted ++ operationKeywords ts).Nodup := by
  induction h with
  | @here granted token us operation hkind hmem =>
    rw [operationKeywords_cons hkind]
    intro hnodup
    exact (List.nodup_append.mp hnodup).2.2 operation hmem operation List.mem_cons_self rfl
  | @later granted ts us operation hfirst _ ih =>
    have hsub := sublist_operationKeywords (many_singleton.mpr hfirst)
    exact fun hnodup => ih (nodup_granting hsub hnodup)

/-- **Twice**: an operation that is named again has its keyword among the tokens twice. -/
theorem NamesAgain.not_nodup (h : NamesAgain granted ts) :
    ¬(granted ++ operationKeywords ts).Nodup := by
  induction h with
  | @here granted ds es us _ _ hblock =>
    obtain ⟨hkind, -, -, hoperations⟩ := hblock
    refine fun hnodup => hoperations.not_nodup (hnodup.sublist (List.Sublist.append_left ?_ _))
    refine List.Sublist.filterMap _ ?_
    simp only [← List.cons_append, ← List.append_assoc]
    exact List.sublist_append_right _ _
  | @later granted ts us e hitem _ ih =>
    exact fun hnodup => ih (nodup_granting (sublist_operationKeywords_item hitem) hnodup)

end

/-! ## Single Steps -/

namespace StopsIn

variable {α β γ : Type} {phrase : Phrase γ} {s t : ParserState}

/-- A change of the state that does not concern its tokens. -/
theorem set_bind {f : PUnit → Parser β} (hst : s.Precedes [] t) (h : StopsIn t (f ⟨⟩) phrase) :
    StopsIn s (set t >>= f) phrase := by
  intro fault u hstop
  obtain ⟨hspan, ts, htu, hphrase⟩ := h fault u hstop
  exact ⟨hspan, ts, hst.trans htu, hphrase⟩

theorem modify_bind {g : ParserState → ParserState} {f : PUnit → Parser β} (hst : s.Precedes [] (g s))
    (h : StopsIn (g s) (f ⟨⟩) phrase) : StopsIn s (modify g >>= f) phrase :=
  set_bind hst h

end StopsIn

/-! ## Schema Blocks -/

section

variable {s : ParserState} {token : Token} {ts : List Token}

/-- The type behind the keyword of an operation. -/
def operationType : Parser Name := do
  advance
  expectMark .colon
  name

theorem rootOperation_eq :
    rootOperation = (do
      let s ← get
      match s.kind?.bind operationOf? with
      | none => unexpected .rootOperation
      | some operation =>
        let type ← operationType
        if (← get).operations.contains operation then
          failAt s.span (.operationRepeated operation)
        else
          modify fun s => { s with operations := operation :: s.operations }
          return (operation, type.text)) := by
  unfold rootOperation operationType
  refine congrArg (get >>= ·) (funext fun s => ?_)
  cases s.kind?.bind operationOf? with
  | none => rfl
  | some operation => simp only [bind_assoc]

/-- An operation that is not named again stops in the block that it is part of. The block may have no room
    for one more operation, but then it is complete. -/
theorem stopsIn_rootOperation (hagain : ¬OperationsAgain s.operations s.tokens) :
    StopsIn s rootOperation fun ts operations =>
      Many OperationPhrase ts operations ∧ Fresh s.operations operations := by
  rw [rootOperation_eq]
  refine .get_bind ?_
  cases hoperation : s.kind?.bind operationOf? with
  | none => exact .unexpected _ (completable_of_phrase ⟨.nil, fresh_nil _⟩)
  | some operation =>
    obtain ⟨kind, hkind, hkindOf⟩ := Option.bind_eq_some_iff.mp hoperation
    obtain ⟨token, ts, htokens, rfl⟩ := tokens_of_kind? hkind
    have hnew : operation ∉ s.operations := fun hmem => hagain (htokens ▸ .here hkindOf hmem)
    have htype : FinishesAt s operationType fun us type =>
        OperationPhrase us (operation, type.text) := by
      refine .advance_bind htokens ((Finishes.expectMark _).bind fun cs _ hcolon => ?_)
      exact Finishes.name.imp fun ks key hkey => .intro hkindOf hcolon hkey
    -- behind the type, the operation is looked up, and it is not there
    refine htype.stops_bind (fun us type hphrase => ?_) fun us type t _ _ hroots => .get_bind ?_
    · refine completable_of_phrase ⟨many_singleton.mpr hphrase, fresh_cons.mpr ⟨hnew, fresh_nil _⟩⟩
    · have hcontains : t.operations.contains operation = false := by
        simpa [hroots.operations] using hnew
      rw [hcontains]
      exact .of_ok rfl

theorem stopsIn_operations (hs : s.Settled) (hagain : ¬OperationsAgain s.operations s.tokens) :
    StopsIn s (repeatWhile (fun s => !s.isAt .braceClose) rootOperation) fun ts operations =>
      Many OperationPhrase ts operations ∧ Fresh s.operations operations := by
  -- what is left names nothing again, counted with the operations that have been read
  refine StopsIn.repeatWhile (fun s => s.Settled ∧ ¬OperationsAgain s.operations s.tokens)
    (fun s ts operations => Many OperationPhrase ts operations ∧ Fresh s.operations operations) ?_ ?_
    ⟨hs, hagain⟩
  · exact fun s hs _ => stopsIn_rootOperation hs.2
  · intro s operation t hs _ hrun
    obtain ⟨ts, hleads, -, hgrants, hphrase⟩ := rootOperation_ok hrun
    have hgranted : t.operations = operation.1 :: s.operations := hgrants.operations
    have hagain := hs.2
    rw [hleads.tokens] at hagain
    refine ⟨⟨hleads.settled, fun hlater => hagain (.later hphrase (hgranted ▸ hlater))⟩,
      hleads.length_lt hphrase.starts.ne_nil, ts, hleads.precedes, fun us hus => ?_⟩
    obtain ⟨vs, operations, hvs, hmany, hfresh⟩ := hus
    have hfirst : operation.1 ∉ s.operations := by
      obtain ⟨hkind, -, -⟩ := hphrase
      exact fun hmem => hagain (.here hkind hmem)
    refine ⟨vs, operation :: operations, hvs, ?_, fresh_cons.mpr ⟨hfirst, hgranted ▸ hfresh⟩⟩
    rw [List.append_assoc]
    exact .cons hphrase hmany

/-- The operations of a block, none of which is named again behind its opening brace. -/
theorem stopsIn_operationBlock (hs : s.Settled)
    (hagain : ∀ os vs, Lone (.punctuator .braceOpen) os → s.tokens = os ++ vs →
      ¬OperationsAgain s.operations vs) :
    StopsIn s (optionalItems .braceOpen .braceClose rootOperation) fun ts operations =>
      Enclosed .braceOpen .braceClose OperationPhrase ts operations ∧ Fresh s.operations operations := by
  have hclosed : ∀ {os us operations}, Lone (.punctuator .braceOpen) os →
      Many OperationPhrase us operations → Fresh s.operations operations →
      Completable (fun ts operations => Enclosed .braceOpen .braceClose OperationPhrase ts operations ∧
        Fresh s.operations operations) (os ++ us) := fun hopen hmany hfresh =>
    completable_mark .braceClose
      ⟨List.append_assoc _ _ _ ▸ .present hopen hmany (lone_markToken _), hfresh⟩
  refine ((Finishes.eat _).at hs).stops_bind (fun os eaten hopen => ?_)
    fun os eaten t hopen hleads hroots => ?_
  · cases eaten with
    | true => simpa using hclosed hopen .nil (fresh_nil _)
    | false =>
      obtain rfl : os = [] := hopen
      exact completable_of_phrase ⟨.absent, fresh_nil _⟩
  · cases eaten with
    | false => exact .of_ok rfl
    | true =>
      have hnone : ¬OperationsAgain t.operations t.tokens :=
        hroots.operations ▸ hagain os t.tokens hopen hleads.tokens
      refine (stopsIn_operations hleads.settled hnone).bind (fun us operations h => ?_)
        fun operations u hrun => ?_
      · exact completable_behind.mpr (hclosed hopen h.1 (hroots.operations ▸ h.2))
      · obtain ⟨us, htu, -, -, hmany, hend⟩ := repeatWhile_rootOperation_ok hleads.settled hrun
        have hfresh : Fresh s.operations operations :=
          hroots.operations ▸ fresh_of_not_again hmany (htu.tokens ▸ hnone)
        -- the loop has ended at the brace that closes the block
        refine ⟨us, htu.precedes, ((finishesAt_closing hend operations).imp fun vs _ h => ?_).stops⟩
        obtain ⟨hclose, rfl⟩ := h
        exact ⟨.present hopen hmany hclose, hfresh⟩

/-! ## Definitions -/

/-- **New definitions**: a type, or a schema block that may stand where it does. -/
def NewDefinition (s : ParserState) : Phrase Definition := fun ts d =>
  TypePhrase ts d ∨ SchemaPhrase ts d ∧ s.schemaSeen = false ∧ Fresh s.operations d.body.operations

/-- In place of any definition, a type may be written. -/
theorem completable_type : Completable TypePhrase [] := by
  have htype : TypePhrase ([keywordToken .type] ++ [keywordToken .type])
      ⟨0, Keyword.type.text, [], .object [] []⟩ :=
    .object rfl (.intro rfl) .absent .nil .absent
  exact ⟨_, _, (writable_keyword .type).append (writable_keyword .type), htype⟩

theorem completable_newDefinition (s : ParserState) : Completable (NewDefinition s) [] :=
  completable_type.imp fun _ d hd => ⟨d, .inl hd⟩

/-- A schema block that names nothing again stops in itself, or in the type that may stand in its place. -/
theorem stopsIn_schemaDefinition (htokens : s.tokens = token :: ts)
    (hkind : token.kind = .keyword .schema) (hagain : ¬BlockAgain s.operations s.tokens) :
    StopsIn s schemaDefinition (NewDefinition s) := by
  refine .get_bind ?_
  split
  · -- a second block stops at its keyword, where a type would have done
    refine (StopsIn.fail _ (completable_newDefinition s)).bind
      (fun _ _ h => completable_of_phrase h) fun a t hrun => ?_
    cases hrun
  · rename_i hseen
    have hseen : s.schemaSeen = false := by simpa using hseen
    -- without operations, the block is complete behind its keyword and behind each directive
    have hempty : ∀ {us directives}, Many DirectivePhrase us directives →
        Completable (NewDefinition s) (token :: us) := by
      intro us directives hus
      have hphrase := SchemaPhrase.intro hkind hus .absent
      rw [List.append_nil] at hphrase
      exact completable_of_phrase (.inr ⟨hphrase, hseen, fresh_nil s.operations⟩)
    refine .nextOffset_bind ((FinishesAt.advance htokens).stops_bind (fun us _ hus => ?_)
      fun us _ t hus htoken hroots => ?_)
    · exact hus ▸ hempty .nil
    subst hus
    refine (finishes_directives.at htoken.settled).stops_bind (fun us directives hus => ?_)
      fun us directives t' hus hleads hroots' => ?_
    · exact completable_behind.mpr (hempty hus)
    have hoperations : t'.operations = s.operations := (hroots.trans hroots').operations
    have hnone : ∀ os vs, Lone (.punctuator .braceOpen) os → t'.tokens = os ++ vs →
        ¬OperationsAgain t'.operations vs := by
      intro os vs hopen hrest h
      have hblock : BlockAgain s.operations (token :: (us ++ (os ++ vs))) :=
        .intro hkind hus hopen (hoperations ▸ h)
      rw [htoken.tokens, hleads.tokens, hrest] at hagain
      exact hagain hblock
    refine (stopsIn_operationBlock hleads.settled hnone).bind (fun vs operations h => ?_)
      fun operations u hrun => ?_
    · have hphrase := SchemaPhrase.intro hkind hus h.1
      exact completable_of_phrase (.inr ⟨hphrase, hseen, hoperations ▸ h.2⟩)
    · obtain ⟨vs, hlast, -⟩ := optionalItems_rootOperation_ok hleads.settled hrun
      exact ⟨vs, hlast.precedes, .of_ok rfl⟩

/-- Every definition that can be extended stops in a new definition, if it names nothing again. -/
theorem stopsIn_extensible {p : Parser Definition} (htokens : s.tokens = token :: ts)
    (hp : extensibleDefinition? token.kind = some p) (hagain : ¬BlockAgain s.operations s.tokens) :
    StopsIn s p (NewDefinition s) := by
  by_cases hschema : token.kind = .keyword .schema
  · rw [hschema] at hp
    cases hp
    exact stopsIn_schemaDefinition htokens hschema hagain
  · have htype := (finishesAt_extensible htokens hp hschema).stops
    exact htype.imp fun _ h => h.imp fun _ d hd => ⟨d, .inl hd⟩

/-- What is read of it is a new definition. -/
theorem newDefinition_of_ok {p : Parser Definition} {d : Definition} {t : ParserState}
    (htokens : s.tokens = token :: ts) (hp : extensibleDefinition? token.kind = some p)
    (hagain : ¬BlockAgain s.operations s.tokens) (hrun : p s = .ok d t) :
    ∃ us, s.Leads us t ∧ NewDefinition s us d := by
  by_cases hschema : token.kind = .keyword .schema
  · rw [hschema] at hp
    cases hp
    obtain ⟨us, operations, hleads, hphrase, -, hseen, -, -⟩ :=
      schemaDefinition_ok htokens hschema hrun
    exact ⟨us, hleads, .inr ⟨hphrase, hseen, hphrase.fresh (hleads.tokens ▸ hagain)⟩⟩
  · obtain ⟨us, hleads, -, hphrase⟩ := (finishesAt_extensible htokens hp hschema).reads d t hrun
    exact ⟨us, hleads, .inl hphrase⟩

end

/-! ## Items -/

/-- An item that is admitted in a state. -/
def NewItem (s : ParserState) : Phrase Entry := fun ts e =>
  ItemPhrase ts e ∧ e.Admitted s.operations s.schemaSeen

section

variable {s : ParserState} {ds us : List Token} {token : Token} {d : Definition}

/-- A new definition is an item. -/
theorem NewDefinition.item (h : NewDefinition s us d) (hd : DescriptionPhrase ds) :
    NewItem s (ds ++ us) (.definition d) := by
  rcases h with htype | ⟨hschema, hseen, hfresh⟩
  · have hitem := EntryPhrase.type hd htype
    exact ⟨.entry hitem, hitem.admitted htype.schemaBlock?_eq_none _ _⟩
  · exact ⟨.entry (.schema hd hschema), fun _ => hseen, hfresh⟩

/-- Behind the keyword for it, a definition that is new without a schema block in front is an
    extension. -/
theorem NewDefinition.extension (h : NewDefinition { s with schemaSeen := false } us d)
    (hd : DescriptionPhrase ds) (hkind : token.kind = .keyword .extend) :
    NewItem s (ds ++ (token :: us)) (.extension token.span.start d) := by
  have hblock : Entry.isBlock (.extension token.span.start d) → s.schemaSeen = false :=
    fun h => absurd h Bool.false_ne_true
  rcases h with htype | ⟨hschema, -, hfresh⟩
  · have hnone : Fresh s.operations d.body.operations :=
      htype.operations_eq_nil ▸ fresh_nil s.operations
    exact ⟨.entry (.extension hd hkind htype), hblock, hnone⟩
  · exact ⟨.schemaExtension hd hkind hschema, hblock, hfresh⟩

/-- In place of any item, and behind the keyword of an extension, a type may be written. -/
theorem completable_item (s : ParserState) (hd : DescriptionPhrase ds) :
    Completable (fun us e => NewItem s (ds ++ us) e) [] :=
  (completable_newDefinition s).imp fun _ d h => ⟨.definition d, h.item hd⟩

theorem completable_extension (s : ParserState) (hd : DescriptionPhrase ds)
    (hkind : token.kind = .keyword .extend) :
    Completable (fun us e => NewItem s (ds ++ (token :: us)) e) [] :=
  (completable_newDefinition { s with schemaSeen := false }).imp fun _ d h =>
    ⟨.extension token.span.start d, h.extension hd hkind⟩

end

section

variable {s : ParserState} {ds ts : List Token} {token : Token}

/-- An extension that names nothing again stops in itself. -/
theorem stopsIn_extension (hd : DescriptionPhrase ds) (htokens : s.tokens = token :: ts)
    (hkind : token.kind = .keyword .extend) (hagain : ¬BlockAgain s.operations ts) :
    StopsIn s extension fun us e => NewItem s (ds ++ us) e := by
  have hspan : s.span = token.span := by simp [ParserState.span, htokens]
  rw [extension_eq]
  refine .nextOffset_bind ((FinishesAt.advance htokens).stops_bind (fun us _ hus => ?_)
    fun us _ t hus hleads hroots => .get_bind ?_)
  · exact hus ▸ completable_extension s hd hkind
  subst hus
  cases hparser : t.kind?.bind extensibleDefinition? with
  | none => exact .unexpected _ (completable_extension s hd hkind)
  | some p =>
    obtain ⟨kind, hnext, hp⟩ := Option.bind_eq_some_iff.mp hparser
    obtain ⟨first, us, hfirst, rfl⟩ := tokens_of_kind? hnext
    have hrest : ts = t.tokens := (List.cons.inj (htokens.symm.trans hleads.tokens)).2
    -- the definition is read as if there were no schema block in front
    let u : ParserState := { t with schemaSeen := false }
    have hnone : ¬BlockAgain u.operations u.tokens := by
      show ¬BlockAgain t.operations t.tokens
      rwa [hroots.operations, ← hrest]
    have hextension : ∀ {vs d}, NewDefinition u vs d →
        NewItem s (ds ++ (token :: vs)) (.extension token.span.start d) := by
      intro vs d h
      have hsame : NewDefinition { s with schemaSeen := false } vs d := by
        simpa only [NewDefinition, u, hroots.operations] using h
      exact hsame.extension hd hkind
    refine StopsIn.set_bind ⟨rfl, rfl⟩ ((stopsIn_extensible (s := u) hfirst hp hnone).bind
      (fun vs d h => completable_of_phrase (hextension h)) fun d v hrun => ?_)
    obtain ⟨vs, huv, hnew⟩ := newDefinition_of_ok (s := u) hfirst hp hnone hrun
    refine ⟨vs, huv.precedes, .modify_bind ⟨rfl, rfl⟩ ?_⟩
    -- with the roots set back, nothing is left to do but to meet the extension
    have hlast : Finishes (do
        meet ⟨.extension, d.name, s.span.start⟩
        return Entry.extension s.span.start d) fun ws e => NewItem s (ds ++ ([token] ++ (vs ++ ws))) e :=
      (Finishes.meet _).bind_nothing fun _ => .pure (by simpa [hspan] using hextension hnew)
    exact hlast.stops _ huv.settled

/-- An item behind its description. -/
theorem stopsIn_entryAt (hd : DescriptionPhrase ds)
    (hagain : ∀ es us, Perhaps (.keyword .extend) es → s.tokens = es ++ us →
      ¬BlockAgain s.operations us) :
    StopsIn s (entryAt s.kind?) fun us e => NewItem s (ds ++ us) e := by
  have hbegun := completable_item s hd
  cases hkind : s.kind? with
  | none => exact .unexpected _ hbegun
  | some kind =>
    obtain ⟨token, ts, htokens, rfl⟩ := tokens_of_kind? hkind
    by_cases hextend : token.kind = .keyword .extend
    · rw [hextend]
      exact stopsIn_extension hd htokens hextend
        (hagain [token] ts (.inr ⟨token, hextend, rfl⟩) htokens)
    by_cases hdirective : token.kind = .keyword .directive
    · rw [hdirective]
      have hstops := (finishesAt_directiveDefinition htokens hdirective).stops
      have hitem : ∀ {vs d}, DirectiveDefinitionPhrase vs d →
          NewItem s (ds ++ vs) (.definition d) := by
        intro vs d hphrase
        have hblock : Entry.schemaBlock? (.definition d) = none := by
          cases hphrase
          rfl
        have hitem := EntryPhrase.directive hd hphrase
        exact ⟨.entry hitem, hitem.admitted hblock _ _⟩
      exact (hstops.map _).imp fun us h => h.imp fun vs d hphrase => ⟨.definition d, hitem hphrase⟩
    rw [entryAt_eq hextend hdirective]
    cases hp : extensibleDefinition? token.kind with
    | none => exact .unexpected _ hbegun
    | some p =>
      have hstops := stopsIn_extensible htokens hp (hagain [] _ (.inl rfl) rfl)
      exact (hstops.map _).imp fun us h => h.imp fun vs d hnew => ⟨.definition d, hnew.item hd⟩

theorem stopsIn_entry (hs : s.Settled) (hagain : ¬NamesAgain s.operations s.tokens) :
    StopsIn s entry (NewItem s) := by
  rw [entry_eq]
  refine (finishes_description.at hs).stops_bind (fun ds _ hd => ?_)
    fun ds _ t hd hleads hroots => .nextKind_bind ?_
  · simpa using completable_behind.mp (completable_item s hd)
  · have hnone : ∀ es us, Perhaps (.keyword .extend) es → t.tokens = es ++ us →
        ¬BlockAgain t.operations us := by
      intro es us hes hus hblock
      refine hagain ?_
      rw [hleads.tokens, hus]
      exact .here hd hes (hroots.operations ▸ hblock)
    have hsame : NewItem t = NewItem s := by
      unfold NewItem
      rw [hroots.operations, hroots.schemaSeen]
    exact hsame ▸ stopsIn_entryAt hd hnone

/-- What is read as an item that names nothing again is admitted, and leaves the roots that it gives. -/
theorem newItem_of_ok {t : ParserState} {e : Entry} (hs : s.Settled)
    (hagain : ¬NamesAgain s.operations s.tokens) (hrun : entry s = .ok e t) :
    ∃ us, s.Leads us t ∧ NewItem s us e ∧ us ≠ [] ∧
      t.operations = Document.granting s.operations [e] ∧ t.schemaSeen = (s.schemaSeen || e.isBlock) ∧
      ¬NamesAgain t.operations t.tokens := by
  obtain ⟨us, hleads, hrecords, hitem⟩ := entry_ok hs hrun
  rw [hleads.tokens] at hagain
  have hoperations : t.operations = Document.granting s.operations [e] := hrecords.grants.operations
  -- a run counts at most one block, be it in front or read now
  have hblocks := hrecords.blocks
  have hflag := Bool.toNat_le t.schemaSeen
  have hblock : e.isBlock → s.schemaSeen = false := by
    intro h
    obtain ⟨block, hblock⟩ := Option.isSome_iff_exists.mp h
    cases hseen : s.schemaSeen with
    | false => rfl
    | true =>
      simp [hblock, hseen] at hblocks
      omega
  refine ⟨us, hleads, ⟨hitem, hblock, hitem.fresh hagain⟩, hitem.starts.ne_nil, hoperations, ?_,
    fun hlater => hagain (.later hitem (hoperations ▸ hlater))⟩
  unfold Entry.isBlock
  cases hschema : e.schemaBlock? <;> cases hseen : s.schemaSeen <;> cases hseen' : t.schemaSeen <;>
    simp_all

/-! ## Documents -/

/-- Items that are admitted one after the other. -/
def NewItems (s : ParserState) : Phrase Document := fun ts items =>
  Many ItemPhrase ts items ∧ items.Admitted s.operations s.schemaSeen

theorem stopsIn_entries (hs : s.Settled) (hagain : ¬NamesAgain s.operations s.tokens) :
    StopsIn s (repeatWhile (fun s => !s.tokens.isEmpty) entry) (NewItems s) := by
  refine StopsIn.repeatWhile (fun s => s.Settled ∧ ¬NamesAgain s.operations s.tokens)
    NewItems ?_ ?_ ⟨hs, hagain⟩
  · intro s hs _
    exact (stopsIn_entry hs.1 hs.2).imp fun _ h => h.imp fun _ e he =>
      ⟨[e], many_singleton.mpr he.1, he.2, trivial⟩
  · intro s e t hs _ hrun
    obtain ⟨us, hleads, hitem, hne, hoperations, hseen, hnone⟩ := newItem_of_ok hs.1 hs.2 hrun
    refine ⟨⟨hleads.settled, hnone⟩, hleads.length_lt hne, us, hleads.precedes, fun vs h => ?_⟩
    obtain ⟨ws, items, hws, hmany, hadmitted⟩ := h
    rw [hoperations, hseen] at hadmitted
    refine ⟨ws, e :: items, hws, ?_, hitem.2, hadmitted⟩
    rw [List.append_assoc]
    exact .cons hitem.1 hmany

/-- **Documents**: where the parser stops in a document in which nothing is named again, the fault points at
    the next token, and the tokens in front of that can be completed to a document that is accepted. -/
theorem document_stopsIn {policy : Policy} {feed : Feed} (hagain : ¬NamesAgain [] feed.tokens) :
    StopsIn (.start policy feed) document fun ts (items : Document) =>
      Many ItemPhrase ts items ∧ items.Admitted [] false := by
  intro fault u hstop
  cases hcheck : checkNext (.start policy feed) with
  | ok a t =>
    obtain ⟨rfl, hsettled⟩ := checkNext_ok hcheck
    have hrun : document (.start policy feed) =
        repeatWhile (fun s => !s.tokens.isEmpty) entry (.start policy feed) := bind_of_ok hcheck _
    exact stopsIn_entries hsettled hagain fault u (hrun ▸ hstop)
  | error fault' t =>
    -- a malformed lexeme comes first
    have hrun : document (.start policy feed) = .error fault' t := bind_of_error hcheck _
    rw [hrun] at hstop
    cases hstop
    obtain ⟨ts, ⟨span, fault⟩⟩ := feed
    cases ts with
    | cons => cases hcheck
    | nil =>
      cases fault with
      | none => cases hcheck
      | some fault =>
        cases hcheck
        exact ⟨rfl, [], .refl _, completable_of_phrase (a := []) ⟨.nil, trivial⟩⟩

end

end SchemaModel.Sdl
