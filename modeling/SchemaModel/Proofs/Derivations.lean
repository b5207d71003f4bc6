import Mathlib.Data.List.Chain
import SchemaModel.Proofs.Completions
import SchemaModel.Proofs.Meaning
import SchemaModel.Proofs.Scopes

/-! # Derivations

    Whatever the parser reads has been derived by the grammar, so that a text is read exactly if the
    grammar derives its tokens.

    * **Grants**: the operations that schema blocks give a root type on the way.
    * **Records**: what a run remembers of the schema blocks among the items that it has read.
    * **Soundness**: a document that is read is a derivation of all tokens. -/

namespace SchemaModel.Sdl

open SchemaModel.Sdl.Parser

section

variable {s : ParserState} {token : Token} {ts : List Token}

/-! ## Schema Blocks -/

/-- The operations are given root types on the way from `s` to `t`, none of them a second time. -/
structure ParserState.Grants (s : ParserState) (operations : List (RootOperation × String))
    (t : ParserState) : Prop where
  operations : t.operations = (operations.map Prod.fst).reverse ++ s.operations
  distinct : s.operations.Nodup → t.operations.Nodup

theorem rootOperation_ok {t : ParserState} {operation : RootOperation × String}
    (h : rootOperation s = .ok operation t) :
    ∃ ts, s.Leads ts t ∧ t.schemaSeen = s.schemaSeen ∧ s.Grants [operation] t ∧
      OperationPhrase ts operation := by
  unfold rootOperation at h
  rw [get_bind] at h
  cases hoperation : s.kind?.bind operationOf? with
  | none =>
    rw [hoperation] at h
    cases h
  | some operation' =>
    obtain ⟨kind, hkind, hkindOf⟩ := Option.bind_eq_some_iff.mp hoperation
    obtain ⟨token, ts, htokens, rfl⟩ := tokens_of_kind? hkind
    rw [hoperation] at h
    obtain ⟨_, t₁, hadvance, h⟩ := bind_ok_iff.mp h
    obtain ⟨_, t₂, hexpect, h⟩ := bind_ok_iff.mp h
    obtain ⟨type, t₃, hname, h⟩ := bind_ok_iff.mp h
    obtain ⟨us, h₁, hroots₁, rfl⟩ := ReadsAt.advance htokens _ _ hadvance
    obtain ⟨cs, h₂, hroots₂, hcolon⟩ := (Finishes.expectMark _).reads _ h₁.settled _ _ hexpect
    obtain ⟨ks, h₃, hroots₃, hkey⟩ := Finishes.name.reads _ h₂.settled _ _ hname
    have hleads := h₁.trans (h₂.trans h₃)
    have hroots := hroots₁.trans (hroots₂.trans hroots₃)
    rw [get_bind] at h
    -- the operation is refused if it has a root type already
    split at h
    · cases h
    · rename_i hnew
      cases h
      have hnew : operation' ∉ s.operations := by simpa [hroots.operations] using hnew
      refine ⟨token :: (cs ++ ks), ⟨hleads.tokens, hleads.ending, hleads.settled⟩,
        hroots.schemaSeen, ⟨?_, ?_⟩, .intro hkindOf hcolon hkey⟩
      · simp [hroots.operations]
      · intro hnodup
        simpa [hroots.operations, hnew] using hnodup

theorem repeatWhile_rootOperation_ok {t : ParserState}
    {operations : List (RootOperation × String)} (hs : s.Settled)
    (h : repeatWhile (fun s => !s.isAt .braceClose) rootOperation s = .ok operations t) :
    ∃ ts, s.Leads ts t ∧ t.schemaSeen = s.schemaSeen ∧ s.Grants operations t ∧
      Many OperationPhrase ts operations ∧ (!t.isAt .braceClose) = false := by
  refine repeatWhile_induct ParserState.Settled (fun s operations t =>
    ∃ ts, s.Leads ts t ∧ t.schemaSeen = s.schemaSeen ∧ s.Grants operations t ∧
      Many OperationPhrase ts operations ∧ (!t.isAt .braceClose) = false) ?_ ?_ ?_ hs h
  · intro s operation t _ _ hrun
    obtain ⟨ts, hleads, -, -, hoperation⟩ := rootOperation_ok hrun
    exact ⟨hleads.settled, hleads.length_lt hoperation.starts.ne_nil⟩
  · intro s hs hmore
    exact ⟨[], .refl hs, rfl, ⟨rfl, id⟩, .nil, hmore⟩
  · rintro s operation t operations u - - hrun ⟨us, htu, hseen, hgrants, hmany, hend⟩
    obtain ⟨ts, hst, hseen', hgrants', hoperation⟩ := rootOperation_ok hrun
    refine ⟨ts ++ us, hst.trans htu, hseen.trans hseen', ⟨?_, ?_⟩, .cons hoperation hmany, hend⟩
    · simp [hgrants.operations, hgrants'.operations]
    · exact hgrants.distinct ∘ hgrants'.distinct

theorem optionalItems_rootOperation_ok {t : ParserState}
    {operations : List (RootOperation × String)} (hs : s.Settled)
    (h : optionalItems .braceOpen .braceClose rootOperation s = .ok operations t) :
    ∃ ts, s.Leads ts t ∧ t.schemaSeen = s.schemaSeen ∧ s.Grants operations t ∧
      Enclosed .braceOpen .braceClose OperationPhrase ts operations := by
  obtain ⟨eaten, t₁, heat, h⟩ := bind_ok_iff.mp h
  obtain ⟨os, h₁, hroots₁, hopen⟩ := (Finishes.eat _).reads s hs _ _ heat
  cases eaten with
  | false =>
    obtain rfl : os = [] := hopen
    cases h
    exact ⟨[], h₁, hroots₁.schemaSeen, ⟨hroots₁.operations, fun h => hroots₁.operations ▸ h⟩,
      .absent⟩
  | true =>
    obtain ⟨found, t₂, hloop, h⟩ := bind_ok_iff.mp h
    obtain ⟨us, h₂, hseen, hgrants, hitems, hend⟩ :=
      repeatWhile_rootOperation_ok h₁.settled hloop
    -- the loop has ended at the brace that closes the block
    obtain ⟨cs, h₃, hroots₃, hclose, rfl⟩ := (finishesAt_closing hend found).reads _ _ h
    refine ⟨os ++ (us ++ cs), h₁.trans (h₂.trans h₃), ?_, ⟨?_, ?_⟩, .present hopen hitems hclose⟩
    · rw [hroots₃.schemaSeen, hseen, hroots₁.schemaSeen]
    · rw [hroots₃.operations, hgrants.operations, hroots₁.operations]
    · intro hnodup
      rw [hroots₃.operations]
      exact hgrants.distinct (hroots₁.operations ▸ hnodup)

theorem schemaDefinition_ok {t : ParserState} {d : Definition}
    (htokens : s.tokens = token :: ts) (hkind : token.kind = .keyword .schema)
    (h : schemaDefinition s = .ok d t) :
    ∃ us operations, s.Leads us t ∧ SchemaPhrase us d ∧ d.body = .schema operations ∧
      s.schemaSeen = false ∧ t.schemaSeen = true ∧ s.Grants operations t := by
  have hspan : s.span = token.span := by simp [ParserState.span, htokens]
  unfold schemaDefinition at h
  rw [get_bind] at h
  -- a second schema block is refused
  split at h
  · cases h
  · rename_i hseen
    obtain ⟨offset, t₀, hoffset, h⟩ := bind_ok_iff.mp h
    cases hoffset
    obtain ⟨_, t₁, hadvance, h⟩ := bind_ok_iff.mp h
    obtain ⟨ds, t₂, hdirectives, h⟩ := bind_ok_iff.mp h
    obtain ⟨operations, t₃, hoperations, h⟩ := bind_ok_iff.mp h
    obtain ⟨_, h₁, hroots₁, rfl⟩ := ReadsAt.advance htokens _ _ hadvance
    obtain ⟨us, h₂, hroots₂, hds⟩ := finishes_directives.reads _ h₁.settled _ _ hdirectives
    obtain ⟨vs, h₃, hroots₃, hgrants, hvs⟩ :=
      optionalItems_rootOperation_ok h₂.settled hoperations
    have hroots := hroots₁.trans hroots₂
    have hleads := h₁.trans (h₂.trans h₃)
    cases h
    refine ⟨token :: (us ++ vs), operations, ⟨hleads.tokens, hleads.ending, hleads.settled⟩, ?_,
      rfl, by simpa using hseen, rfl, ⟨?_, ?_⟩⟩
    · rw [hspan]
      exact .intro hkind hds hvs
    · exact hgrants.operations.trans (by rw [hroots.operations])
    · exact fun hnodup => hgrants.distinct (hroots.operations ▸ hnodup)

/-! ## Items -/

/-- What a run from `s` to `t` remembers of the schema blocks among the items that it has read. -/
structure ParserState.Records (s : ParserState) (items : Document) (t : ParserState) : Prop where
  grants : s.Grants items.operations t
  blocks : s.schemaSeen.toNat + (items.filterMap Entry.schemaBlock?).length = t.schemaSeen.toNat

theorem ParserState.SameRoots.records {t : ParserState} (h : s.SameRoots t) {e : Entry}
    (he : e.schemaBlock? = none) : s.Records [e] t := by
  refine ⟨⟨?_, fun hnodup => h.operations ▸ hnodup⟩, ?_⟩
  · simp [Document.operations, he, h.operations]
  · simp [he, h.schemaSeen]

theorem ParserState.Records.trans {t u : ParserState} {e : Entry} {items : Document}
    (hst : s.Records [e] t) (htu : t.Records items u) : s.Records (e :: items) u := by
  have hblocks : (e :: items).filterMap Entry.schemaBlock? =
      [e].filterMap Entry.schemaBlock? ++ items.filterMap Entry.schemaBlock? := by
    rw [← List.filterMap_append]
    rfl
  refine ⟨⟨?_, htu.grants.distinct ∘ hst.grants.distinct⟩, ?_⟩
  · rw [htu.grants.operations, hst.grants.operations]
    simp only [Document.operations, hblocks, List.flatMap_append, List.map_append,
      List.reverse_append, List.append_assoc]
  · rw [← htu.blocks, ← hst.blocks, hblocks, List.length_append, Nat.add_assoc]

/-- No type is a schema block. -/
theorem TypePhrase.schemaBlock?_eq_none {us : List Token} {d : Definition} (h : TypePhrase us d) :
    Entry.schemaBlock? (.definition d) = none := by
  cases h <;> rfl

theorem extendedEntry_ok {t : ParserState} {e : Entry} {offset : Nat}
    (h : extendedEntry offset s = .ok e t) :
    ∃ ts d, s.Leads ts t ∧ s.SameRoots t ∧ e = .extension offset d ∧
      (TypePhrase ts d ∨ SchemaPhrase ts d) := by
  unfold extendedEntry at h
  rw [get_bind] at h
  cases hparser : s.kind?.bind extensibleDefinition? with
  | none =>
    rw [hparser] at h
    cases h
  | some p =>
    obtain ⟨kind, hkind, hp⟩ := Option.bind_eq_some_iff.mp hparser
    obtain ⟨token, ts, htokens, rfl⟩ := tokens_of_kind? hkind
    rw [hparser] at h
    dsimp only at h
    rw [set_bind] at h
    obtain ⟨d, t₁, hrun, h⟩ := bind_ok_iff.mp h
    have hd : ∃ us, ({ s with schemaSeen := false } : ParserState).Leads us t₁ ∧
        (TypePhrase us d ∨ SchemaPhrase us d) := by
      have htokens : ({ s with schemaSeen := false } : ParserState).tokens = token :: ts := htokens
      by_cases hschema : token.kind = .keyword .schema
      · rw [hschema] at hp
        cases hp
        obtain ⟨us, -, hleads, hphrase, -⟩ := schemaDefinition_ok htokens hschema hrun
        exact ⟨us, hleads, .inr hphrase⟩
      · obtain ⟨us, hleads, -, hphrase⟩ :=
          (finishesAt_extensible htokens hp hschema).reads d t₁ hrun
        exact ⟨us, hleads, .inl hphrase⟩
    obtain ⟨us, hleads, hphrase⟩ := hd
    -- the roots are set back to those in front of the extension
    obtain ⟨_, t₂, hmodify, h⟩ := bind_ok_iff.mp h
    cases hmodify
    obtain ⟨_, t₃, hmeet, h⟩ := bind_ok_iff.mp h
    have hsettled : ({ t₁ with
        skipped := s.skipped, operations := s.operations, schemaSeen := s.schemaSeen } :
        ParserState).Settled := hleads.settled
    obtain ⟨_, h₃, hroots₃, rfl⟩ := Reads.meet _ _ hsettled _ _ hmeet
    cases h
    refine ⟨us, d, ⟨?_, ?_, h₃.settled⟩, ⟨hroots₃.operations, hroots₃.schemaSeen⟩, rfl, hphrase⟩
    · rw [← List.append_nil us, List.append_assoc, ← h₃.tokens]
      exact hleads.tokens
    · exact h₃.ending.trans hleads.ending

theorem extension_ok {t : ParserState} {e : Entry} (htokens : s.tokens = token :: ts)
    (hkind : token.kind = .keyword .extend) (h : extension s = .ok e t) :
    ∃ us, s.Leads us t ∧ s.Records [e] t ∧
      ∀ ds, DescriptionPhrase ds → ItemPhrase (ds ++ us) e := by
  have hspan : s.span = token.span := by simp [ParserState.span, htokens]
  rw [extension_eq] at h
  obtain ⟨_, _, hoffset, h⟩ := bind_ok_iff.mp h
  cases hoffset
  obtain ⟨_, t₁, hadvance, h⟩ := bind_ok_iff.mp h
  obtain ⟨_, h₁, hroots₁, rfl⟩ := ReadsAt.advance htokens _ _ hadvance
  obtain ⟨us, d, h₂, hroots₂, rfl, hphrase⟩ := extendedEntry_ok h
  refine ⟨token :: us, h₁.trans h₂, (hroots₁.trans hroots₂).records rfl, fun ds hd => ?_⟩
  rw [hspan]
  rcases hphrase with htype | hschema
  · exact .entry (.extension hd hkind htype)
  · exact .schemaExtension hd hkind hschema

/-- A keyword other than those of extensions and directive definitions begins a definition that can
    be extended, or no item at all. -/
theorem entryAt_eq {kind : TokenKind} (hextend : kind ≠ .keyword .extend)
    (hdirective : kind ≠ .keyword .directive) :
    entryAt (some kind) =
      match extensibleDefinition? kind with
      | some definition => .definition <$> definition
      | none => unexpected .definition := by
  unfold entryAt
  split
  · exact absurd (Option.some.inj ‹_›) hextend
  · exact absurd (Option.some.inj ‹_›) hdirective
  · rfl

/-- A schema block is read as an item that names its operations. -/
theorem schemaEntry_ok {t : ParserState} {d : Definition} (htokens : s.tokens = token :: ts)
    (hkind : token.kind = .keyword .schema) (h : schemaDefinition s = .ok d t) :
    ∃ us, s.Leads us t ∧ s.Records [.definition d] t ∧
      ∀ ds, DescriptionPhrase ds → ItemPhrase (ds ++ us) (.definition d) := by
  obtain ⟨us, operations, hleads, hphrase, hbody, hseen, hseen', hgrants⟩ :=
    schemaDefinition_ok htokens hkind h
  have hblock : Entry.schemaBlock? (.definition d) = some (d.offset, operations) := by
    obtain ⟨offset, name, directives, body⟩ := d
    obtain rfl : body = .schema operations := hbody
    rfl
  refine ⟨us, hleads, ⟨⟨?_, hgrants.distinct⟩, ?_⟩, fun ds hds => .entry (.schema hds hphrase)⟩
  · simpa [Document.operations, hblock] using hgrants.operations
  · simp [hblock, hseen, hseen']

theorem entryAt_ok {t : ParserState} {e : Entry} (h : entryAt s.kind? s = .ok e t) :
    ∃ us, s.Leads us t ∧ s.Records [e] t ∧
      ∀ ds, DescriptionPhrase ds → ItemPhrase (ds ++ us) e := by
  cases hkind : s.kind? with
  | none =>
    rw [hkind] at h
    cases h
  | some kind =>
    obtain ⟨token, ts, htokens, rfl⟩ := tokens_of_kind? hkind
    rw [hkind] at h
    by_cases hextend : token.kind = .keyword .extend
    · rw [hextend] at h
      exact extension_ok htokens hextend h
    by_cases hdirective : token.kind = .keyword .directive
    · rw [hdirective] at h
      obtain ⟨d, hrun, rfl⟩ := map_ok_iff.mp h
      obtain ⟨us, hleads, hroots, hd⟩ :=
        (finishesAt_directiveDefinition htokens hdirective).reads _ _ hrun
      refine ⟨us, hleads, hroots.records ?_, fun ds hds => .entry (.directive hds hd)⟩
      cases hd
      rfl
    rw [entryAt_eq hextend hdirective] at h
    cases hparser : extensibleDefinition? token.kind with
    | none =>
      rw [hparser] at h
      cases h
    | some p =>
      rw [hparser] at h
      obtain ⟨d, hrun, rfl⟩ := map_ok_iff.mp h
      by_cases hschema : token.kind = .keyword .schema
      · rw [hschema] at hparser
        cases hparser
        exact schemaEntry_ok htokens hschema hrun
      · obtain ⟨us, hleads, hroots, hphrase⟩ :=
          (finishesAt_extensible htokens hparser hschema).reads d t hrun
        exact ⟨us, hleads, hroots.records hphrase.schemaBlock?_eq_none,
          fun ds hds => .entry (.type hds hphrase)⟩

theorem entry_ok {t : ParserState} {e : Entry} (hs : s.Settled) (h : entry s = .ok e t) :
    ∃ us, s.Leads us t ∧ s.Records [e] t ∧ ItemPhrase us e := by
  rw [entry_eq] at h
  obtain ⟨_, t₁, hdescription, h⟩ := bind_ok_iff.mp h
  obtain ⟨ds, h₁, hroots₁, hds⟩ := finishes_description.reads s hs _ _ hdescription
  obtain ⟨us, h₂, hrecords, hphrase⟩ := entryAt_ok h
  refine ⟨ds ++ us, h₁.trans h₂, ⟨⟨?_, ?_⟩, ?_⟩, hphrase ds hds⟩
  · rw [hrecords.grants.operations, hroots₁.operations]
  · exact fun hnodup => hrecords.grants.distinct (hroots₁.operations ▸ hnodup)
  · rw [← hrecords.blocks, hroots₁.schemaSeen]

theorem repeatWhile_entry_ok {t : ParserState} {items : Document} (hs : s.Settled)
    (h : repeatWhile (fun s => !s.tokens.isEmpty) entry s = .ok items t) :
    ∃ us, s.Leads us t ∧ s.Records items t ∧ Many ItemPhrase us items ∧ t.tokens = [] := by
  refine repeatWhile_induct ParserState.Settled (fun s items t =>
    ∃ us, s.Leads us t ∧ s.Records items t ∧ Many ItemPhrase us items ∧ t.tokens = []) ?_ ?_ ?_ hs h
  · intro s e t hs _ hrun
    obtain ⟨us, hleads, -, hitem⟩ := entry_ok hs hrun
    exact ⟨hleads.settled, hleads.length_lt hitem.starts.ne_nil⟩
  · intro s hs hmore
    exact ⟨[], .refl hs, ⟨⟨rfl, id⟩, by simp⟩, .nil, by simpa using hmore⟩
  · rintro s e t items u hs - hrun ⟨us, htu, hrecords, hitems, hend⟩
    obtain ⟨ts, hst, hrecord, hitem⟩ := entry_ok hs hrun
    exact ⟨ts ++ us, hst.trans htu, hrecord.trans hrecords, .cons hitem hitems, hend⟩

end

/-- The check for a malformed lexeme lets no other states pass than settled ones. -/
theorem checkNext_ok {s t : ParserState} {u : Unit} (h : checkNext s = .ok u t) :
    t = s ∧ s.Settled := by
  unfold checkNext at h
  rw [get_bind] at h
  cases hts : s.tokens with
  | cons token ts =>
    rw [hts] at h
    cases h
    exact ⟨rfl, fun hnil => by simp [hts] at hnil⟩
  | nil =>
    cases hfault : s.ending.fault with
    | none =>
      rw [hts, hfault] at h
      cases h
      exact ⟨rfl, fun _ => hfault⟩
    | some fault =>
      rw [hts, hfault] at h
      cases h

/-- **Soundness**: whatever is read as a document is a derivation of all tokens, behind which
    nothing malformed lies. -/
theorem document_ok {policy : Policy} {feed : Feed} {items : Document} {t : ParserState}
    (h : document (.start policy feed) = .ok items t) :
    feed.ending.fault = none ∧ Many ItemPhrase feed.tokens items ∧
      (items.filterMap Entry.schemaBlock?).length ≤ 1 ∧
      (items.operations.map Prod.fst).Nodup := by
  obtain ⟨_, s, hcheck, hloop⟩ := bind_ok_iff.mp h
  obtain ⟨rfl, hsettled⟩ := checkNext_ok hcheck
  obtain ⟨us, hleads, hrecords, hitems, hend⟩ := repeatWhile_entry_ok hsettled hloop
  have htokens : feed.tokens = us := by simpa [ParserState.start, hend] using hleads.tokens
  refine ⟨?_, htokens ▸ hitems, ?_, ?_⟩
  · have hfault := hleads.settled hend
    rwa [hleads.ending] at hfault
  · -- the flag counts the schema blocks, and it counts to one
    have hblocks := hrecords.blocks
    have hflag := Bool.toNat_le t.schemaSeen
    omega
  · have hnodup := hrecords.grants.distinct List.nodup_nil
    rw [hrecords.grants.operations] at hnodup
    exact (List.reverse_perm _).nodup_iff.mp (by simpa [ParserState.start] using hnodup)

/-- The grammar derives at most one document from the tokens of a text. -/
theorem DocumentPhrase.unique {ts : List Token} {items others : Document}
    (h : DocumentPhrase ts items) (hother : DocumentPhrase ts others) : items = others := by
  -- the parser reads both of them
  obtain ⟨t, hrun, -⟩ := document_eq_ok h ⟨⟨0, 0⟩, none⟩ rfl
  obtain ⟨u, hotherRun, -⟩ := document_eq_ok hother ⟨⟨0, 0⟩, none⟩ rfl
  rw [hrun] at hotherRun
  cases hotherRun
  rfl

/-! ## Main Result -/

/-- No extension is one of the schema block. -/
def NoSchemaExtension (ts : List Token) : Prop :=
  ts.IsChain fun first second =>
    ¬(first.kind = .keyword .extend ∧ second.kind = .keyword .schema)

instance (ts : List Token) : Decidable (NoSchemaExtension ts) :=
  inferInstanceAs (Decidable (List.IsChain _ _))

/-- Without extensions of the schema block, all items are those of the grammar. -/
theorem Many.entries_of_items {ts : List Token} {items : Document} (h : Many ItemPhrase ts items)
    (hnone : NoSchemaExtension ts) : Many EntryPhrase ts items := by
  induction h with
  | nil => exact .nil
  | @cons ts us e items he _ ih =>
    refine .cons ?_ (ih (List.IsChain.right_of_append hnone))
    cases he with
    | entry he => exact he
    | @schemaExtension ds vs token d hd hkind hschema =>
      obtain ⟨hschemaKind, -, -⟩ := hschema
      have hitem := List.IsChain.right_of_append (List.IsChain.left_of_append hnone)
      exact absurd ⟨hkind, hschemaKind⟩ (hitem.rel_head? rfl)

/-- The tokens of a source end in no fault if none of its lexemes is malformed. -/
theorem ending_fault_eq_none {source : String} :
    (Feed.ofSource source).ending.fault = none ↔
      ∀ fault span text, .malformed fault span text ∉ lexemes source := by
  -- lexemes are cut off at the first malformed one, so this holds from any offset on
  have hfrom : ∀ offset cs, (Feed.ofLexemes (lexemesFrom offset cs)).ending.fault = none ↔
      ∀ fault span text, .malformed fault span text ∉ lexemesFrom offset cs := by
    intro offset cs
    fun_induction lexemesFrom offset cs with
    | case1 => simp [Feed.ofLexemes]
    | case2 offset cs start d ds htrivia scan ih =>
      cases hfault : scan.fault with
      | none => simpa [Lexeme.ofScan, hfault, Feed.ofLexemes] using ih
      | some fault =>
        simp only [Lexeme.ofScan, hfault, Feed.ofLexemes]
        constructor
        · rintro ⟨⟩
        · exact fun h => absurd List.mem_cons_self (h _ _ _)
  exact hfrom 0 source.toList

/-- **Reading is parsing by the grammar**: if no extension is one of the schema block, a text is
    read exactly if none of its lexemes is malformed and the grammar derives a document from its
    tokens, and then it is read as what that document means. -/
theorem read_eq_ok_iff_derives {source : String}
    (hnone : NoSchemaExtension (Feed.ofSource source).tokens) (schema : Schema) :
    read .skip source = .ok schema ↔
      (∀ fault span text, .malformed fault span text ∉ lexemes source) ∧
        ∃ items, DocumentPhrase (Feed.ofSource source).tokens items ∧ items.Means source schema := by
  rw [← ending_fault_eq_none]
  constructor
  · intro h
    obtain ⟨items, t, hrun, -⟩ := read_eq_ok.mp h
    obtain ⟨hfault, hitems, hblock, hdistinct⟩ := document_ok hrun
    have hphrase : DocumentPhrase (Feed.ofSource source).tokens items :=
      ⟨hitems.entries_of_items hnone, hblock, hdistinct⟩
    have hschema := h.symm.trans (read_of_phrase hphrase hfault)
    exact ⟨hfault, items, hphrase, (Document.means_iff hblock hdistinct).mpr (Except.ok.inj hschema)⟩
  · rintro ⟨hfault, items, hphrase, hmeans⟩
    obtain rfl := (Document.means_iff hphrase.oneBlock hphrase.distinct).mp hmeans
    exact read_of_phrase hphrase hfault

/-- A described type with an interface, an argument and directives, an extension of it, and a schema
    block. -/
def shelfText : String :=
  "\"Books\" type Shelf implements Node\x7bbook(id:ID!=\"0\"):[Book!]@deprecated@rare\x7d\n" ++
    "scalar Book extend type Shelf\x7bsize:Int\x7d schema\x7bquery:Shelf\x7d"

/-- What the text is read as. -/
def shelfSchema : Schema where
  declarations := [
    ⟨"Shelf", .object [⟨"book", .list (.nonNull (.named "Book")),
      [⟨"id", .nonNull (.named "ID"), some (.string "0"), .sdl ⟨1, 41⟩⟩], .sdl ⟨1, 36⟩⟩], .sdl ⟨1, 9⟩⟩,
    ⟨"Book", .scalar, .sdl ⟨2, 1⟩⟩]
  roots := ⟨some "Shelf", none, none⟩
  rootsOrigin := .sdl ⟨2, 41⟩
  skipped := [⟨.implements, "Node", .sdl ⟨1, 31⟩⟩, ⟨.directive, "rare", .sdl ⟨1, 71⟩⟩,
    ⟨.extension, "Shelf", .sdl ⟨2, 13⟩⟩]

theorem read_eq_ok_iff_derives_shelfText :
    NoSchemaExtension (Feed.ofSource shelfText).tokens ∧ read .skip shelfText = .ok shelfSchema ∧
      ∃ items, DocumentPhrase (Feed.ofSource shelfText).tokens items ∧
        items.Means shelfText shelfSchema := by
  have hnone : NoSchemaExtension (Feed.ofSource shelfText).tokens := by decide +kernel
  have hread : read .skip shelfText = .ok shelfSchema := toOption_eq_some.mp (by decide +kernel)
  obtain ⟨-, hmeans⟩ := (read_eq_ok_iff_derives hnone shelfSchema).mp hread
  exact ⟨hnone, hread, hmeans⟩

end SchemaModel.Sdl
