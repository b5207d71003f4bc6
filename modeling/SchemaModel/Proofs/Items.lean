import SchemaModel.Proofs.Derivations

/-! # Accepted Items

    Which runs of items the parser accepts, extensions of the schema block included.

    * **Admitted**: items are accepted exactly if they are admitted one after the other. What is
      admitted behind some items depends on the operations that they name, and on whether a schema
      block is among them.
    * **Unique**: tokens make up no more than one run of items that is accepted.
    * **Extensions**: an extension has no bearing on the items behind it. -/

namespace SchemaModel.Sdl

theorem many_singleton {α : Type} {phrase : Phrase α} {ts : List Token} {a : α} :
    Many phrase ts [a] ↔ phrase ts a := by
  constructor
  · rintro (_ | ⟨ha, ⟨⟩⟩)
    rwa [List.append_nil]
  · intro ha
    exact List.append_nil ts ▸ .cons ha .nil

/-- A run of phrases is split where what it stands for is. -/
theorem many_append {α : Type} {phrase : Phrase α} {ts : List Token} {as bs : List α} :
    Many phrase ts (as ++ bs) ↔
      ∃ us vs, ts = us ++ vs ∧ Many phrase us as ∧ Many phrase vs bs := by
  constructor
  · intro h
    induction as generalizing ts with
    | nil => exact ⟨[], ts, rfl, .nil, h⟩
    | cons a as ih =>
      cases h with
      | @cons us vs _ _ ha hrest =>
        obtain ⟨us', vs', rfl, has, hbs⟩ := ih hrest
        exact ⟨us ++ us', vs', (List.append_assoc _ _ _).symm, .cons ha has, hbs⟩
  · rintro ⟨us, vs, rfl, has, hbs⟩
    induction has with
    | nil => exact hbs
    | cons ha _ ih => exact List.append_assoc _ _ _ ▸ .cons ha ih

/-! ## Admitted Items -/

section

variable {granted : List RootOperation} {seen : Bool} {items others : Document}

theorem granting_granting (granted : List RootOperation) (items others : Document) :
    Document.granting (items.granting granted) others = (items ++ others).granting granted := by
  simp [Document.granting, Document.operations_append]

/-- Items are admitted if those in front are, and if the others are behind them. -/
theorem admitted_append : Document.Admitted granted seen (items ++ others) ↔
    items.Admitted granted seen ∧
      others.Admitted (items.granting granted) (seen || items.any Entry.isBlock) := by
  induction items generalizing granted seen with
  | nil => simp [Document.Admitted, Document.granting, Document.operations]
  | cons e items ih =>
    have hgranting : Document.granting (Document.granting granted [e]) items =
        Document.granting granted (e :: items) := granting_granting granted [e] items
    rw [List.cons_append, Document.Admitted, ih, hgranting, Document.Admitted, and_assoc,
      List.any_cons, Bool.or_assoc]

/-- An extension is admitted if it names no operation twice, and none that has a root type. -/
theorem admitted_extension_cons {offset : Nat} {d : Definition} :
    Document.Admitted granted seen (.extension offset d :: items) ↔
      Fresh granted d.body.operations ∧ items.Admitted granted seen := by
  have hgranting : Document.granting granted [.extension offset d] = granted := rfl
  have hblock : (seen || Entry.isBlock (.extension offset d)) = seen := Bool.or_false seen
  rw [Document.Admitted, hgranting, hblock]
  exact and_congr_left fun _ => ⟨fun h => h.fresh, fun h => ⟨fun hb => absurd hb Bool.false_ne_true, h⟩⟩

end

/-! ## Accepted Documents -/

section

variable {feed : Feed} {items others : Document} {t : ParserState}

/-- **Acceptance**: a document is read exactly if no malformed lexeme ends the tokens and these make
    up items that are admitted. -/
theorem document_eq_ok_iff : document (.start .skip feed) = .ok items t ↔
    feed.ending.fault = none ∧ Many ItemPhrase feed.tokens items ∧ items.Admitted [] false ∧
      t = (ParserState.start .skip feed).behind [] items := by
  constructor
  · intro h
    obtain ⟨hfault, hitems, -, -⟩ := document_ok h
    have hrun := document_givesIf hitems hfault
    by_cases hadmitted : items.Admitted [] false
    · have hgives := h.symm.trans (hrun.gives hadmitted)
      cases hgives
      exact ⟨hfault, hitems, hadmitted, rfl⟩
    · obtain ⟨fault, u, hstop⟩ := hrun.stops hadmitted
      exact absurd (h.symm.trans hstop) (by simp)
  · rintro ⟨hfault, hitems, hadmitted, rfl⟩
    exact (document_givesIf hitems hfault).gives hadmitted

/-- The items that tokens make up, if these are accepted. -/
def acceptedItems? (ts : List Token) : Option Document :=
  match document (.start .skip ⟨ts, ⟨⟨0, 0⟩, none⟩⟩) with
  | .ok items _ => some items
  | .error .. => none

theorem acceptedItems?_eq_some {ts : List Token} :
    acceptedItems? ts = some items ↔ Many ItemPhrase ts items ∧ items.Admitted [] false := by
  unfold acceptedItems?
  constructor
  · intro h
    split at h
    · rename_i found t hrun
      obtain rfl : found = items := Option.some.inj h
      obtain ⟨-, hitems, hadmitted, -⟩ := document_eq_ok_iff.mp hrun
      exact ⟨hitems, hadmitted⟩
    · cases h
  · rintro ⟨hitems, hadmitted⟩
    rw [document_eq_ok_iff.mpr ⟨rfl, hitems, hadmitted, rfl⟩]

/-- Tokens make up no other items than those that are accepted. -/
theorem items_unique {ts : List Token} (h : Many ItemPhrase ts items)
    (hadmitted : items.Admitted [] false) (hother : Many ItemPhrase ts others) : items = others := by
  let ending : Ending := ⟨⟨0, 0⟩, none⟩
  have hending : ending.fault = none := rfl
  have hfirst := (document_givesIf h hending).gives hadmitted
  have hsecond := document_givesIf hother hending
  by_cases hothers : others.Admitted [] false
  · have heq := hfirst.symm.trans (hsecond.gives hothers)
    cases heq
    rfl
  · obtain ⟨fault, u, hstop⟩ := hsecond.stops hothers
    exact absurd (hfirst.symm.trans hstop) (by simp)

/-- A source is read exactly if its tokens make up items that are admitted, and then as what these
    declare. -/
theorem read_eq_ok_iff_items {source : String} {schema : Schema} : read .skip source = .ok schema ↔
    (Feed.ofSource source).ending.fault = none ∧
      ∃ items : Document, Many ItemPhrase (Feed.ofSource source).tokens items ∧ items.Admitted [] false ∧
        schema =
          items.toSchema (LineTable.ofText source.toList) (items.flatMap Entry.usages) := by
  rw [read_eq_ok]
  constructor
  · rintro ⟨items, t, hrun, rfl⟩
    obtain ⟨hfault, hitems, hadmitted, rfl⟩ := document_eq_ok_iff.mp hrun
    exact ⟨hfault, items, hitems, hadmitted, rfl⟩
  · rintro ⟨hfault, items, hitems, hadmitted, rfl⟩
    exact ⟨items, _, document_eq_ok_iff.mpr ⟨hfault, hitems, hadmitted, rfl⟩, rfl⟩

/-- What the tokens of a source that is read make up is admitted. -/
theorem admitted_of_read {source : String} (hread : ∃ schema, read .skip source = .ok schema)
    (hitems : Many ItemPhrase (Feed.ofSource source).tokens items) : items.Admitted [] false := by
  obtain ⟨schema, hread⟩ := hread
  obtain ⟨-, found, hfound, hadmitted, -⟩ := read_eq_ok_iff_items.mp hread
  rwa [← items_unique hfound hadmitted hitems]

end

end SchemaModel.Sdl
