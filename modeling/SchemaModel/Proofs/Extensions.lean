import SchemaModel.Proofs.Items
import SchemaModel.Proofs.Origins
import SchemaModel.Proofs.Positions
import SchemaModel.Proofs.Strictness
import SchemaModel.Proofs.Trivia

/-! # Extensions

    An extension is parsed and then left out, and what is around it does not see it.

    * **In place**: the part of a source that an item takes up, from its first character to its last
      one.
    * **Moved**: a source is read as the items that its tokens make up when they are moved.
    * **Left out**: blanks in the place of an extension change nothing but that the extension is no
      longer among what is skipped. -/

namespace SchemaModel.Sdl

open Movable (move)

/-! ## In Place -/

/-- **In place**: between `front` and `back`, the source holds the item `e` and nothing else. Its
    description belongs to it. -/
inductive ItemAt (source : String) (front text back : List Char) (e : Entry) : Prop
  | intro {ts us vs : List Token} {first last : Token} {items others : Document} :
      source.toList = front ++ (text ++ back) →
      (Feed.ofSource source).tokens = ts ++ (us ++ vs) →
      Many ItemPhrase ts items → ItemPhrase us e → Many ItemPhrase vs others →
      -- the text goes from the first token of the item to the last one
      us.head? = some first → first.span.start = byteLength front →
      us.getLast? = some last → last.span.stop = byteLength (front ++ text) →
      ItemAt source front text back e

theorem ItemPhrase.ne_nil {ts : List Token} {e : Entry} (h : ItemPhrase ts e) : ts ≠ [] := by
  obtain ⟨token, us, rfl, -⟩ := h.starts
  exact List.cons_ne_nil token us

/-- Every item of a source without faults is in its place. -/
theorem exists_itemAt {source : String} {items : Document} {e : Entry}
    (hfault : (Feed.ofSource source).ending.fault = none)
    (hitems : Many ItemPhrase (Feed.ofSource source).tokens items) (he : e ∈ items) :
    ∃ front text back, ItemAt source front text back e := by
  obtain ⟨before, others, rfl⟩ := List.append_of_mem he
  obtain ⟨ts, _, htokens, hts, hothers⟩ := many_append.mp hitems
  cases hothers with
  | @cons us vs _ _ hus hvs =>
    obtain ⟨stop, hlexemes⟩ := lexemes_of_fault_eq_none hfault
    obtain ⟨first, us', hfirst⟩ := List.exists_cons_of_ne_nil hus.ne_nil
    obtain ⟨last, hlast⟩ := Option.ne_none_iff_exists'.mp
      (mt List.getLast?_eq_none_iff.mp hus.ne_nil)
    obtain ⟨init, hinit⟩ := List.getLast?_eq_some_iff.mp hlast
    rw [htokens, List.map_append, List.append_assoc] at hlexemes
    have hbegin : ts.map Lexeme.token ++ ((us ++ vs).map .token ++ [.endOfInput stop]) =
        ts.map .token ++ .token first :: ((us' ++ vs).map .token ++ [.endOfInput stop]) := by
      rw [hfirst]
      rfl
    -- the item begins where its first token does, and ends where its last one does
    obtain ⟨front, rest, hstart, hcut⟩ :=
      exists_cut_in_front (hlexemes.trans hbegin)
    obtain ⟨hms, -⟩ := hcut.again
    have hbehind : lexemesFrom (byteLength front) rest =
        init.map .token ++ .token last :: (vs.map .token ++ [.endOfInput stop]) := by
      have hall : first :: (us' ++ vs) = init ++ last :: vs := by
        rw [← List.cons_append, ← hfirst, hinit, List.append_assoc, List.singleton_append]
      rw [← hms]
      simpa using congrArg (·.map Lexeme.token ++ [.endOfInput stop]) hall
    obtain ⟨text, back, -, rfl, hstop, -⟩ := lexemesFrom_behind hbehind rfl
    exact ⟨front, text, back, .intro hcut.text htokens hts hus hvs (by rw [hfirst]; rfl) hstart hlast
      (by rw [hstop, byteLength_append])⟩

/-- A source is cut in front of an item that is in its place, and behind it. -/
theorem ItemAt.cuts {source : String} {front text back : List Char} {e : Entry}
    (h : ItemAt source front text back e) (hfault : (Feed.ofSource source).ending.fault = none) :
    ∃ ts us vs items others stop, (Feed.ofSource source).tokens = ts ++ (us ++ vs) ∧
      Many ItemPhrase ts items ∧ ItemPhrase us e ∧ Many ItemPhrase vs others ∧
      Cut source front (text ++ back) (ts.map .token)
        (us.map .token ++ (vs.map .token ++ [.endOfInput stop])) ∧
      Cut source (front ++ text) back (ts.map .token ++ us.map .token)
        (vs.map .token ++ [.endOfInput stop]) := by
  obtain @⟨ts, us, vs, first, last, items, others, htext, htokens, hitems, hus, hothers, hfirst, hstart,
    hlast, hstop⟩ := h
  obtain ⟨stop, hlexemes⟩ := lexemes_of_fault_eq_none hfault
  refine ⟨ts, us, vs, items, others, stop, htokens, hitems, hus, hothers, ?_, ?_⟩
  · obtain ⟨us', rfl⟩ := List.head?_eq_some_iff.mp hfirst
    exact cut_in_front htext (by simp [hlexemes, htokens]) hstart
  · obtain ⟨init, rfl⟩ := List.getLast?_eq_some_iff.mp hlast
    have hend : lexemes source = (ts.map .token ++ init.map .token) ++
        .token last :: (vs.map .token ++ [.endOfInput stop]) := by
      simp [hlexemes, htokens]
    simpa using cut_behind (htext.trans (List.append_assoc _ _ _).symm) hend hstop

/-! ## Moved Sources -/

/-- The tokens of a source whose lexemes become tokens when they are moved. -/
theorem feed_of_moved {source : String} {f : Nat → Nat} {ts : List Token} {stop : Nat}
    (h : (lexemes source).map (move f) = ts.map .token ++ [.endOfInput stop]) :
    move f (Feed.ofSource source).tokens = ts ∧ (Feed.ofSource source).ending.fault = none := by
  have hmove : Feed.ofLexemes ((lexemes source).map (move f)) = move f (Feed.ofSource source) :=
    ofLexemes_map_move f 0 source.toList
  rw [h, ofLexemes_append, Feed.ofLexemes, List.append_nil] at hmove
  have hfault : (move f (Feed.ofSource source)).ending.fault = none := by rw [← hmove]
  exact ⟨(congrArg Feed.tokens hmove).symm, hfault⟩

section

variable {source : String} {f : Nat → Nat} {items : Document}
  (hitems : Many ItemPhrase (move f (Feed.ofSource source).tokens) items)

include hitems

/-- **Moved**: a source whose tokens make up some items when they are moved is read if these are
    admitted. -/
theorem read_moved_iff (hfault : (Feed.ofSource source).ending.fault = none) :
    (∃ schema, read .skip source = .ok schema) ↔ items.Admitted [] false := by
  have hmoved := document_moved (Feed.ofSource source) f
  constructor
  · rintro ⟨schema, hread⟩
    obtain ⟨found, t, hrun, -⟩ := read_eq_ok.mp hread
    rw [hrun] at hmoved
    obtain ⟨-, hfound, hadmitted, -⟩ := document_eq_ok_iff.mp hmoved
    rwa [← items_unique hfound hadmitted hitems]
  · intro hadmitted
    obtain ⟨t, hrun⟩ : ∃ t, document (.start .skip (move f (Feed.ofSource source))) = .ok items t :=
      ⟨_, document_eq_ok_iff.mpr ⟨hfault, hitems, hadmitted, rfl⟩⟩
    rw [hrun] at hmoved
    cases hrun : document (.start .skip (Feed.ofSource source)) with
    | ok found t => exact ⟨_, read_eq_ok.mpr ⟨found, t, hrun, rfl⟩⟩
    | error fault t =>
      rw [hrun] at hmoved
      cases hmoved

/-- It is read as what becomes the items, and what is skipped of these, when it is moved. -/
theorem read_moved {schema : Schema} (hread : read .skip source = .ok schema) :
    ∃ found usages, move f found = items ∧ move f usages = items.flatMap Entry.usages ∧
      schema = Document.toSchema (LineTable.ofText source.toList) usages found := by
  obtain ⟨found, t, hrun, rfl⟩ := read_eq_ok.mp hread
  have hmoved := document_moved (Feed.ofSource source) f
  rw [hrun] at hmoved
  obtain ⟨-, hfound, hadmitted, hstate⟩ := document_eq_ok_iff.mp hmoved
  have heq := items_unique hfound hadmitted hitems
  refine ⟨found, t.skipped, heq, ?_, rfl⟩
  rw [← heq]
  exact congrArg ParserState.skipped hstate

end

/-! ## Left Out -/

theorem isBlank_blank (c : Char) : isBlank (blank c) := by
  unfold blank
  split
  · subst c
    rfl
  · rfl

/-- Blanks in the place of what is between two cuts: what stands around it stays as it is. -/
theorem lexemes_blanked {source other : String} {front text back : List Char} {ts : List Token}
    {ks ms : List Lexeme} (hfront : Cut source front (text ++ back) (ts.map .token) (ks ++ ms))
    (hback : Cut source (front ++ text) back (ts.map .token ++ ks) ms) (hne : text ≠ [])
    (hother : other.toList = front ++ (blanked text ++ back)) :
    (lexemes other).map (move (restoredOffset front text)) = ts.map .token ++ ms := by
  obtain ⟨-, hagain⟩ := hfront.again
  obtain ⟨hms, -⟩ := hback.again
  have htrivia : Trivia false (blanked text) false := by
    refine trivia_of_blanks fun c hc => ?_
    obtain ⟨d, -, rfl⟩ := List.mem_map.mp hc
    exact isBlank_blank d
  have hapart : Apart (blanked text ++ back) :=
    htrivia.apart (mt List.map_eq_nil_iff.mp hne) back
  have hbehind : (lexemesFrom (byteLength front + text.length) back).map
      (move (restoredOffset front text)) = ms := by
    rw [hms, byteLength_append]
    exact lexemesFrom_shift (restoredOffset_behind hne front) back
  have htokens : move (restoredOffset front text) ts = ts :=
    (hfront.move_tokens fun n hn => restoredOffset_of_le hn text).trans (move_id ts)
  rw [lexemes, hother, hagain _ hapart, lexemesFrom_gap (htrivia.gap back), byteLength_blanked,
    List.map_append, map_move_token, htokens, hbehind]

/-- A source is read with blanks in the place of an extension, as its other items in their places. -/
theorem read_blanked {source other : String} {front text back : List Char} {offset : Nat}
    {d : Definition} {schema : Schema} (hread : read .skip source = .ok schema)
    (hplace : ItemAt source front text back (.extension offset d))
    (hother : other.toList = front ++ (blanked text ++ back)) :
    ∃ items others : Document,
      schema = Document.toSchema (LineTable.ofText source.toList)
        ((items ++ .extension offset d :: others).flatMap Entry.usages)
        (items ++ .extension offset d :: others) ∧
      read .skip other = .ok (Document.toSchema (LineTable.ofText source.toList)
        ((items ++ others).flatMap Entry.usages) (items ++ others)) := by
  obtain ⟨hfault, all, hall, hadmitted, rfl⟩ := read_eq_ok_iff_items.mp hread
  obtain ⟨ts, us, vs, items, others, stop, htokens, hitems, hextension, hothers, hfront, hback⟩ :=
    hplace.cuts hfault
  obtain rfl : all = items ++ .extension offset d :: others := items_unique hall hadmitted
    (many_append.mpr ⟨ts, us ++ vs, htokens, hitems, .cons hextension hothers⟩)
  have hadmitted : Document.Admitted [] false (items ++ others) := by
    obtain ⟨hbefore, hbehind⟩ := admitted_append.mp hadmitted
    exact admitted_append.mpr ⟨hbefore, (admitted_extension_cons.mp hbehind).2⟩
  -- the tokens around the extension are those of the other source
  have hne : text ≠ [] := by
    rintro rfl
    obtain ⟨hms, -⟩ := hfront.again
    obtain ⟨hms', -⟩ := hback.again
    rw [List.append_nil, ← List.nil_append back, ← hms] at hms'
    exact hextension.ne_nil (List.map_eq_nil_iff.mp (List.self_eq_append_left.mp hms'))
  have hlexemes := lexemes_blanked hfront hback hne hother
  rw [← List.append_assoc, ← List.map_append] at hlexemes
  obtain ⟨hmoved, hfault⟩ := feed_of_moved hlexemes
  have hrest : Many ItemPhrase (move (restoredOffset front text) (Feed.ofSource other).tokens)
      (items ++ others) := many_append.mpr ⟨ts, vs, hmoved, hitems, hothers⟩
  obtain ⟨found, hfound⟩ := (read_moved_iff hrest hfault).mpr hadmitted
  obtain ⟨tree, usages, htree, husages, rfl⟩ := read_moved hrest hfound
  -- everything else has the position that it had
  have hposition : ∀ offset, (LineTable.ofText source.toList).position
      (restoredOffset front text offset) = (LineTable.ofText other.toList).position offset := by
    rw [hfront.text, hother]
    exact position_blanked front text back
  rw [← toSchema_move hposition, husages, htree] at hfound
  exact ⟨items, others, rfl, hfound⟩

/-- An extension has no part in what a document declares. -/
theorem toSchema_without_extension (lines : LineTable) (usages others : List Usage)
    (front back : Document) (offset : Nat) (d : Definition) :
    Document.toSchema lines others (front ++ back) =
      { Document.toSchema lines usages (front ++ .extension offset d :: back) with
        skipped := others.map (Usage.skipped lines) } := by
  have hdeclarations : (front ++ .extension offset d :: back).filterMap (Entry.declaration? lines) =
      (front ++ back).filterMap (Entry.declaration? lines) := by
    rw [List.filterMap_append, List.filterMap_append]
    rfl
  have hblock : (front ++ .extension offset d :: back).findSome? Entry.schemaBlock? =
      (front ++ back).findSome? Entry.schemaBlock? := by
    rw [List.findSome?_append, List.findSome?_append]
    rfl
  unfold Document.toSchema
  rw [hdeclarations, hblock]
  cases (front ++ back).findSome? Entry.schemaBlock? <;> rfl

/-- What is skipped of a definition is no extension. -/
theorem Definition.construct_ne_extension {d : Definition} {usage : Usage} (h : usage ∈ d.usages) :
    usage.construct ≠ .extension := by
  have hdirective : ∀ {names : List Name}, usage ∈ directiveUsages names →
      usage.construct ≠ .extension := by
    intro names hmem
    obtain ⟨name, -, rfl⟩ := List.mem_map.mp hmem
    simp
  have hvalues : ∀ {values : List InputValueDef}, usage ∈ values.flatMap InputValueDef.usages →
      usage.construct ≠ .extension := by
    intro values hmem
    obtain ⟨value, -, hmem⟩ := List.mem_flatMap.mp hmem
    exact hdirective hmem
  have hfields : ∀ {fields : List FieldDef}, usage ∈ fields.flatMap FieldDef.usages →
      usage.construct ≠ .extension := by
    intro fields hmem
    obtain ⟨field, -, hmem⟩ := List.mem_flatMap.mp hmem
    exact (List.mem_append.mp hmem).elim hvalues hdirective
  obtain ((hmem | hmem) | hmem) | hmem : ((usage ∈ d.body.interfaces.map
      (fun name => ⟨.implements, name.text, name.offset⟩) ∨ usage ∈ directiveUsages d.directives) ∨
      usage ∈ d.body.memberUsages) ∨
      usage ∈ (d.body.construct?.map fun construct => ⟨construct, d.name, d.offset⟩).toList := by
    simpa only [Definition.usages, List.mem_append] using h
  · obtain ⟨name, -, rfl⟩ := List.mem_map.mp hmem
    simp
  · exact hdirective hmem
  · cases hbody : d.body <;> rw [hbody] at hmem <;> simp only [Body.memberUsages] at hmem
    case object | interface => exact hfields hmem
    case enum =>
      obtain ⟨value, -, hmem⟩ := List.mem_flatMap.mp hmem
      exact hdirective hmem
    case input | directive => exact hvalues hmem
    all_goals cases hmem
  · cases hbody : d.body <;> simp_all [Body.construct?]

/-- Every extension among what is skipped is an item that is in its place. -/
theorem itemAt_of_skipped {source : String} {schema : Schema} {skipped : Skipped}
    (hread : read .skip source = .ok schema) (hskipped : skipped ∈ schema.skipped)
    (hconstruct : skipped.construct = .extension) :
    ∃ front text back offset d, ItemAt source front text back (.extension offset d) ∧
      skipped = ⟨.extension, d.name,
        .sdl ((LineTable.ofText source.toList).position offset)⟩ := by
  obtain ⟨hfault, items, hitems, -, rfl⟩ := read_eq_ok_iff_items.mp hread
  rw [skipped_toSchema] at hskipped
  obtain ⟨usage, husage, rfl⟩ := List.mem_map.mp hskipped
  obtain ⟨e, he, husage⟩ := List.mem_flatMap.mp husage
  -- the item that the usage is met in is the extension itself
  cases e with
  | definition d => exact absurd hconstruct (Definition.construct_ne_extension husage)
  | extension offset d =>
    obtain rfl := List.mem_singleton.mp husage
    obtain ⟨front, text, back, hplace⟩ := exists_itemAt hfault hitems he
    exact ⟨front, text, back, offset, d, hplace, rfl⟩

/-- **Left out**: every extension that is recorded has its place in the source. The source is read
    with blanks in the place of any of its extensions, and as the same schema. Only the entry of the
    extension is no longer among what is skipped. -/
theorem extension_leaves_only_its_entry {source : String} {schema : Schema}
    (hread : read .skip source = .ok schema) :
    (∀ skipped ∈ schema.skipped, skipped.construct = .extension →
      ∃ front text back offset d, ItemAt source front text back (.extension offset d) ∧
        skipped = ⟨.extension, d.name,
          .sdl ((LineTable.ofText source.toList).position offset)⟩) ∧
    ∀ {other : String} {front text back : List Char} {offset : Nat} {d : Definition},
      ItemAt source front text back (.extension offset d) →
      other.toList = front ++ (blanked text ++ back) →
      ∃ found before after, read .skip other = .ok found ∧
        found.declarations = schema.declarations ∧ found.roots = schema.roots ∧
        found.rootsOrigin = schema.rootsOrigin ∧
        schema.skipped = before ++ ⟨.extension, d.name,
          .sdl ((LineTable.ofText source.toList).position offset)⟩ :: after ∧
        found.skipped = before ++ after ∧ found.skippedTypes = schema.skippedTypes := by
  refine ⟨fun skipped => itemAt_of_skipped hread, ?_⟩
  intro other front text back offset d hplace hother
  obtain ⟨items, others, hschema, hfound⟩ := read_blanked hread hplace hother
  generalize LineTable.ofText source.toList = lines at hschema hfound
  let before := (items.flatMap Entry.usages).map (Usage.skipped lines)
  let after := (others.flatMap Entry.usages).map (Usage.skipped lines)
  have hskipped : schema.skipped =
      before ++ ⟨.extension, d.name, .sdl (lines.position offset)⟩ :: after := by
    rw [hschema, skipped_toSchema, List.flatMap_append, List.map_append]
    rfl
  rw [toSchema_without_extension lines _ _ items others offset d, ← hschema, List.flatMap_append,
    List.map_append] at hfound
  refine ⟨_, before, after, hfound, rfl, rfl, rfl, hskipped, rfl, ?_⟩
  -- an extension declares no type
  unfold Schema.skippedTypes
  rw [hskipped, List.filter_append, List.filter_append]
  rfl

/-- An extension of the schema block with a description over two lines, between two definitions. -/
def harbourText : String :=
  "scalar Pier \"\"\"é\n\"\"\"extend schema@tag\x7bquery:Dock\x7dunion Dock"

/-- The directive and the root inside the extension leave no trace either. -/
theorem extension_leaves_only_its_entry_harbourText :
    ∃ schema found before after, read .skip harbourText = .ok schema ∧
      read .skip "scalar Pier     \n                                union Dock" = .ok found ∧
      found.roots = schema.roots ∧
      schema.skipped = before ++ ⟨.extension, "schema", .sdl ⟨2, 4⟩⟩ :: after ∧
      found.skipped = before ++ after := by
  have hsome : (read .skip harbourText).toOption.isSome := by decide +kernel
  obtain ⟨schema, hschema⟩ := Option.isSome_iff_exists.mp hsome
  have hread : read .skip harbourText = .ok schema := toOption_eq_some.mp hschema
  let front := "scalar Pier ".toList
  let text := "\"\"\"é\n\"\"\"extend schema@tag\x7bquery:Dock\x7d".toList
  let pier : List Token := [⟨.keyword .scalar, ⟨0, 6⟩, "scalar"⟩, ⟨.name, ⟨7, 11⟩, "Pier"⟩]
  let block : List Token := [⟨.blockString, ⟨12, 21⟩, "\"\"\"é\n\"\"\""⟩,
    ⟨.keyword .extend, ⟨21, 27⟩, "extend"⟩, ⟨.keyword .schema, ⟨28, 34⟩, "schema"⟩,
    ⟨.punctuator .atSign, ⟨34, 35⟩, "@"⟩, ⟨.name, ⟨35, 38⟩, "tag"⟩,
    ⟨.punctuator .braceOpen, ⟨38, 39⟩, "\x7b"⟩, ⟨.keyword .query, ⟨39, 44⟩, "query"⟩,
    ⟨.punctuator .colon, ⟨44, 45⟩, ":"⟩, ⟨.name, ⟨45, 49⟩, "Dock"⟩,
    ⟨.punctuator .braceClose, ⟨49, 50⟩, "\x7d"⟩]
  let dock : List Token := [⟨.keyword .union, ⟨50, 55⟩, "union"⟩, ⟨.name, ⟨56, 60⟩, "Dock"⟩]
  have htokens : (Feed.ofSource harbourText).tokens = pier ++ (block ++ dock) := by
    decide +kernel
  have hpier : acceptedItems? pier = some [.definition ⟨0, "Pier", [], .scalar⟩] := by decide +kernel
  have hextension : acceptedItems? block = some [.extension 21
      ⟨28, "schema", [⟨"tag", 34⟩], .schema [(.query, "Dock")]⟩] := by decide +kernel
  have hdock : acceptedItems? dock = some [.definition ⟨50, "Dock", [], .union []⟩] := by
    decide +kernel
  have hplace : ItemAt harbourText front text "union Dock".toList (.extension 21
      ⟨28, "schema", [⟨"tag", 34⟩], .schema [(.query, "Dock")]⟩) :=
    .intro (by decide +kernel) htokens (acceptedItems?_eq_some.mp hpier).1
      (many_singleton.mp (acceptedItems?_eq_some.mp hextension).1)
      (acceptedItems?_eq_some.mp hdock).1 rfl (by decide +kernel) rfl (by decide +kernel)
  have hother : "scalar Pier     \n                                union Dock".toList =
      front ++ (blanked text ++ "union Dock".toList) := by decide +kernel
  obtain ⟨found, before, after, hfound, -, hroots, -, hskipped, hrest, -⟩ :=
    (extension_leaves_only_its_entry hread).2 hplace hother
  have hposition : (LineTable.ofText harbourText.toList).position 21 = ⟨2, 4⟩ := by decide +kernel
  rw [hposition] at hskipped
  exact ⟨schema, found, before, after, hread, hfound, hroots, hskipped, hrest⟩

end SchemaModel.Sdl
