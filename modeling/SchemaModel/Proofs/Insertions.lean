import SchemaModel.Proofs.Extensions

/-! # Insertions

    A source with one more extension.

    * **Insertion**: an item is put between two others of a source, with white space around it.
    * **Own offsets**: the tokens are those of both texts, further on.
    * **Put in**: the source is still read, unless the extension names an operation to which a schema
      block in front of it gives a root type. -/

namespace SchemaModel.Sdl

open Movable (move)

/-! ## Insertion -/

/-- **Insertion**: the second source is the first one with one more item `e` between `items` and
    `others`. The gap between them becomes two, `before` and `after`, which are the parts of it with
    white space added. Only at the start and at the end of the source there need not be any. -/
inductive Insertion (source text other : String) (items others : Document) (e : Entry) : Prop
  | intro {front gap back before after : List Char} {ts us vs : List Token} {stop stop' : Nat} :
      -- the source is cut behind `items`, and there is nothing but `gap` in front of `others`
      Cut source front (gap ++ back) (ts.map .token) (vs.map .token ++ [.endOfInput stop]) →
      Gap gap back → Many ItemPhrase ts items → Many ItemPhrase vs others →
      -- the text is the one item, and leaves no comment open
      Cut text text.toList [] (us.map .token) [.endOfInput stop'] → ItemPhrase us e →
      -- it is held apart on both sides
      Trivia false before false → (before = [] → front = []) →
      Gap after back → (after = [] → back = []) →
      other.toList = front ++ (before ++ (text.toList ++ (after ++ back))) →
      Insertion source text other items others e

/-! ## Own Offsets -/

/-- The byte offset in the text that holds it of what lies at `offset` in
    `front ++ before ++ text ++ after ++ back`: be it in `text`, or else in `front ++ gap ++ back`. -/
def ownOffset (front gap before text after : List Char) (offset : Nat) : Nat :=
  let inner := byteLength front + byteLength before
  if offset ≤ byteLength front then offset
  else if offset ≤ inner + byteLength text then offset - inner
  else byteLength front + byteLength gap + (offset - (inner + byteLength text + byteLength after))

section

variable {front gap back before after : List Char} {source text other : String}
  {ts us vs : List Token} {stop stop' : Nat}

theorem Cut.eq_nil {ls ms : List Lexeme} (h : Cut source [] back ls ms) : ls = [] := by
  obtain ⟨-, hagain⟩ := h.again
  have hnil := hagain [] (by simp [Apart])
  exact List.self_eq_append_left.mp hnil

theorem ownOffset_inside {cs : List Char} {n : Nat} (hfront : before = [] → front = [])
    (hn : n ≤ byteLength cs) :
    ownOffset front gap before cs after (n + (byteLength front + byteLength before)) = n := by
  have hpos : byteLength front = 0 ∨ 0 < byteLength before := by
    by_cases hne : before = []
    · exact .inl (byteLength_eq_zero.mpr (hfront hne))
    · exact .inr (Nat.pos_of_ne_zero (mt byteLength_eq_zero.mp hne))
  simp only [ownOffset]
  split
  · omega
  · rw [if_pos (by omega), Nat.add_sub_cancel]

theorem ownOffset_behind {cs : List Char} (hpos : 0 < byteLength after) (n : Nat) :
    ownOffset front gap before cs after
      (byteLength front + byteLength before + byteLength cs + byteLength after + n) =
        byteLength front + byteLength gap + n := by
  simp only [ownOffset]
  rw [if_neg (by omega), if_neg (by omega), Nat.add_sub_cancel_left]

/-- In front of what is put in, the lexemes stay as they are. -/
theorem lexemesFrom_in_front {inside : List Char} {ms : List Lexeme}
    (hcut : Cut source front back (ts.map .token) ms) (hbefore : Trivia false before false)
    (hfront : before = [] → front = []) :
    lexemesFrom 0 (front ++ (before ++ inside)) =
      ts.map .token ++ lexemesFrom (byteLength front + byteLength before) inside := by
  obtain ⟨-, hagain⟩ := hcut.again
  by_cases hne : before = []
  · obtain rfl := hfront hne
    have hnil := hcut.eq_nil
    simp [hne, hnil]
  · rw [hagain _ (hbefore.apart hne _), lexemesFrom_gap (hbefore.gap _)]

/-- What is put in has its own lexemes, further on. -/
theorem lexemesFrom_put_in (inner : Nat)
    (htext : Cut text text.toList [] (us.map .token) [.endOfInput stop']) (hafter : Gap after back)
    (hback : after = [] → back = []) :
    lexemesFrom inner (text.toList ++ (after ++ back)) =
      (us.map .token).map (move (· + inner)) ++
        lexemesFrom (inner + byteLength text.toList + byteLength after) back := by
  obtain ⟨-, hagain⟩ := htext.again
  have hapart : Apart (after ++ back) := by
    by_cases hne : after = []
    · simp [hne, hback hne, Apart]
    · obtain ⟨flag, htrivia, -⟩ := hafter
      exact htrivia.apart hne back
  have hmove := lexemesFrom_add inner 0 (text.toList ++ (after ++ back))
  rw [hagain _ hapart, List.map_append, ← lexemesFrom_add, lexemesFrom_gap hafter,
    Nat.zero_add] at hmove
  rw [hmove, Nat.add_comm (byteLength text.toList)]

/-- Behind what is put in, the lexemes are moved, in any way if nothing but the end is left. -/
theorem lexemesFrom_beyond {cs : List Char}
    (hcut : Cut source front (gap ++ back) (ts.map .token) (vs.map .token ++ [.endOfInput stop]))
    (hgap : Gap gap back) (hback : after = [] → back = []) :
    ∃ last, (lexemesFrom (byteLength front + byteLength before + byteLength cs + byteLength after)
        back).map (move (ownOffset front gap before cs after)) =
      vs.map .token ++ [.endOfInput last] := by
  obtain ⟨hms, -⟩ := hcut.again
  rw [lexemesFrom_gap hgap] at hms
  by_cases hne : after = []
  · obtain rfl := hback hne
    rw [lexemesFrom_nil] at hms ⊢
    obtain rfl : vs = [] := by simpa using congrArg List.length hms
    exact ⟨_, rfl⟩
  · have hpos : 0 < byteLength after := Nat.pos_of_ne_zero (mt byteLength_eq_zero.mp hne)
    refine ⟨stop, ?_⟩
    rw [hms]
    exact lexemesFrom_shift (ownOffset_behind hpos) back

/-- The lexemes of a source into which something is put are those of both, up to where they stand. -/
theorem lexemes_inserted
    (hcut : Cut source front (gap ++ back) (ts.map .token) (vs.map .token ++ [.endOfInput stop]))
    (hgap : Gap gap back) (htext : Cut text text.toList [] (us.map .token) [.endOfInput stop'])
    (hbefore : Trivia false before false) (hfront : before = [] → front = [])
    (hafter : Gap after back) (hback : after = [] → back = [])
    (hother : other.toList = front ++ (before ++ (text.toList ++ (after ++ back)))) :
    ∃ last, (lexemes other).map (move (ownOffset front gap before text.toList after)) =
      (ts ++ (us ++ vs)).map .token ++ [.endOfInput last] := by
  let f := ownOffset front gap before text.toList after
  let inner := byteLength front + byteLength before
  have hlexemes : lexemes other = ts.map .token ++ ((us.map .token).map (move (· + inner)) ++
      lexemesFrom (inner + byteLength text.toList + byteLength after) back) := by
    rw [lexemes, hother, lexemesFrom_in_front hcut hbefore hfront,
      lexemesFrom_put_in inner htext hafter hback]
  obtain ⟨last, hlast⟩ : ∃ last, (lexemesFrom (inner + byteLength text.toList + byteLength after)
      back).map (move f) = vs.map .token ++ [.endOfInput last] :=
    lexemesFrom_beyond hcut hgap hback
  have hts : move f ts = ts :=
    (hcut.move_tokens fun n hn => if_pos hn).trans (move_id ts)
  have hus : move f (move (· + inner) us) = us := by
    have hcomp : move f (move (· + inner) us) = move (fun n => f (n + inner)) us := by
      show (us.map _).map _ = _
      rw [List.map_map]
      rfl
    rw [hcomp, htext.move_tokens fun n hn => ownOffset_inside hfront hn]
    exact move_id us
  refine ⟨last, ?_⟩
  rw [hlexemes, List.map_append, List.map_append, hlast, map_move_token, map_move_token,
    map_move_token, hts, hus]
  simp

end

/-! ## Put In -/

/-- An extension that is admitted alone is admitted between other items if it names no operation to which
    a schema block in front of it gives a root type. -/
theorem admitted_with_extension {items others : Document} {offset : Nat} {d : Definition}
    (haround : Document.Admitted [] false (items ++ others))
    (halone : Document.Admitted [] false [.extension offset d]) :
    Document.Admitted [] false (items ++ .extension offset d :: others) ↔
      ∀ operation ∈ d.body.operations, operation.1 ∉ items.operations.map Prod.fst := by
  obtain ⟨hitems, hothers⟩ := admitted_append.mp haround
  obtain ⟨⟨hdistinct, -⟩, -⟩ := admitted_extension_cons.mp halone
  have hgranting : ∀ operation : RootOperation, operation ∉ items.granting [] ↔
      operation ∉ items.operations.map Prod.fst := by
    simp [Document.granting]
  rw [admitted_append, admitted_extension_cons, Fresh]
  simp only [hgranting]
  exact ⟨fun h => h.2.1.2, fun h => ⟨hitems, ⟨hdistinct, h⟩, hothers⟩⟩

/-- **Put in**: a source with one more extension is read exactly if the extension names no operation to
    which a schema block in front of it gives a root type. So whatever else the source holds, it is read
    with any extension that is read alone and that is none of the schema block. -/
theorem read_inserted_iff {source text other : String} {items others : Document} {offset : Nat}
    {d : Definition} (hsource : ∃ schema, read .skip source = .ok schema)
    (htext : ∃ schema, read .skip text = .ok schema)
    (h : Insertion source text other items others (.extension offset d)) :
    (∃ schema, read .skip other = .ok schema) ↔
      ∀ operation ∈ d.body.operations, operation.1 ∉ items.operations.map Prod.fst := by
  obtain @⟨front, gap, back, before, after, ts, us, vs, stop, stop', hcut, hgap, hitems, hothers, halone,
    hextension, hbefore, hfront, hafter, hback, hother⟩ := h
  obtain ⟨last, hlexemes⟩ :=
    lexemes_inserted hcut hgap halone hbefore hfront hafter hback hother
  obtain ⟨hmoved, hfault⟩ := feed_of_moved hlexemes
  have hall : Many ItemPhrase
      (move (ownOffset front gap before text.toList after) (Feed.ofSource other).tokens)
      (items ++ .extension offset d :: others) :=
    many_append.mpr ⟨ts, us ++ vs, hmoved, hitems, .cons hextension hothers⟩
  have hsourceTokens : Feed.ofSource source = ⟨ts ++ vs, ⟨⟨stop, stop⟩, none⟩⟩ := by
    apply feed_of_lexemes
    rw [hcut.lexemes, List.map_append, List.append_assoc]
  have htextTokens : Feed.ofSource text = ⟨us, ⟨⟨stop', stop'⟩, none⟩⟩ :=
    feed_of_lexemes halone.lexemes
  rw [read_moved_iff hall hfault]
  apply admitted_with_extension
  · refine admitted_of_read hsource ?_
    rw [hsourceTokens]
    exact many_append.mpr ⟨ts, vs, rfl, hitems, hothers⟩
  · refine admitted_of_read htext ?_
    rw [htextTokens]
    exact many_singleton.mpr hextension

/-- A type, and a schema block behind it. -/
def pierText : String := "type Query \x7b a: Int \x7d\nschema \x7b query: Query \x7d"

/-- An extension of a schema block. -/
def annexText : String := "extend schema \x7b query: Other \x7d"

/-- The tokens of the type. -/
def pierType : List Token :=
  [⟨.keyword .type, ⟨0, 4⟩, "type"⟩, ⟨.name, ⟨5, 10⟩, "Query"⟩,
    ⟨.punctuator .braceOpen, ⟨11, 12⟩, "\x7b"⟩, ⟨.name, ⟨13, 14⟩, "a"⟩,
    ⟨.punctuator .colon, ⟨14, 15⟩, ":"⟩, ⟨.name, ⟨16, 19⟩, "Int"⟩,
    ⟨.punctuator .braceClose, ⟨20, 21⟩, "\x7d"⟩]

/-- The tokens of the schema block. -/
def pierBlock : List Token :=
  [⟨.keyword .schema, ⟨22, 28⟩, "schema"⟩, ⟨.punctuator .braceOpen, ⟨29, 30⟩, "\x7b"⟩,
    ⟨.keyword .query, ⟨31, 36⟩, "query"⟩, ⟨.punctuator .colon, ⟨36, 37⟩, ":"⟩,
    ⟨.name, ⟨38, 43⟩, "Query"⟩, ⟨.punctuator .braceClose, ⟨44, 45⟩, "\x7d"⟩]

/-- The tokens of the extension. -/
def annexTokens : List Token :=
  [⟨.keyword .extend, ⟨0, 6⟩, "extend"⟩, ⟨.keyword .schema, ⟨7, 13⟩, "schema"⟩,
    ⟨.punctuator .braceOpen, ⟨14, 15⟩, "\x7b"⟩, ⟨.keyword .query, ⟨16, 21⟩, "query"⟩,
    ⟨.punctuator .colon, ⟨21, 22⟩, ":"⟩, ⟨.name, ⟨23, 28⟩, "Other"⟩,
    ⟨.punctuator .braceClose, ⟨29, 30⟩, "\x7d"⟩]

/-- The extension as it is parsed. -/
def annex : Definition := ⟨7, "schema", [], .schema [(.query, "Other")]⟩

theorem many_pierType : Many ItemPhrase pierType [.definition ⟨0, "Query", [],
    .object [] [⟨⟨"a", 13⟩, [], .named "Int", []⟩]⟩] :=
  (acceptedItems?_eq_some.mp (by decide +kernel)).1

theorem many_pierBlock :
    Many ItemPhrase pierBlock [.definition ⟨22, "schema", [], .schema [(.query, "Query")]⟩] :=
  (acceptedItems?_eq_some.mp (by decide +kernel)).1

theorem itemPhrase_annexTokens : ItemPhrase annexTokens (.extension 0 annex) :=
  many_singleton.mp (acceptedItems?_eq_some.mp (by decide +kernel)).1

theorem cut_annexText :
    Cut annexText annexText.toList [] (annexTokens.map .token) [.endOfInput 30] :=
  ⟨by simp, by decide +kernel, annexText.toList, [], by simp, .nil,
    .inr ⟨_, rfl, by decide +kernel, trivial⟩⟩

theorem exists_read_of_isSome {source : String} (h : (read .skip source).toOption.isSome) :
    ∃ schema, read .skip source = .ok schema := by
  obtain ⟨schema, hschema⟩ := Option.isSome_iff_exists.mp h
  exact ⟨schema, toOption_eq_some.mp hschema⟩

/-- In front of the schema block, the extension may name the operation of that. -/
theorem read_inserted_iff_annexText :
    ∃ schema, read .skip ("type Query \x7b a: Int \x7d\n" ++ annexText ++
      "\nschema \x7b query: Query \x7d") = .ok schema := by
  have hbreak : Trivia false ['\n'] false := .blank rfl .nil
  have hcut : Cut pierText "type Query \x7b a: Int \x7d".toList
      (['\n'] ++ "schema \x7b query: Query \x7d".toList) (pierType.map .token)
      (pierBlock.map .token ++ [.endOfInput 45]) :=
    ⟨by decide +kernel, by decide +kernel, _, [], (List.append_nil _).symm, .nil,
      .inr ⟨_, rfl, by decide +kernel, trivial⟩⟩
  refine (read_inserted_iff (exists_read_of_isSome (by decide +kernel))
    (exists_read_of_isSome (by decide +kernel)) (.intro hcut (hbreak.gap _) many_pierType
      many_pierBlock cut_annexText itemPhrase_annexTokens hbreak (by simp) (hbreak.gap _) (by simp)
      (by decide +kernel))).mpr ?_
  simp [Document.operations, Entry.schemaBlock?]

/-- Behind the schema block, it may not. -/
theorem annexText_refused :
    (∃ schema, read .skip pierText = .ok schema) ∧ (∃ schema, read .skip annexText = .ok schema) ∧
      (∃ items, Insertion pierText annexText (pierText ++ "\n" ++ annexText) items []
        (.extension 0 annex)) ∧
      ¬∃ schema, read .skip (pierText ++ "\n" ++ annexText) = .ok schema := by
  have hbreak : Trivia false ['\n'] false := .blank rfl .nil
  have hnone : Trivia false [] false := .nil
  have hcut : Cut pierText pierText.toList ([] ++ []) ((pierType ++ pierBlock).map .token)
      (([] : List Token).map .token ++ [.endOfInput 45]) :=
    ⟨by simp, by decide +kernel, _, [], (List.append_nil _).symm, .nil,
      .inr ⟨_, rfl, by decide +kernel, trivial⟩⟩
  have hinsertion : ∃ items, Insertion pierText annexText (pierText ++ "\n" ++ annexText) items []
      (.extension 0 annex) :=
    ⟨_, .intro hcut (hnone.gap []) (many_append.mpr ⟨_, _, rfl, many_pierType, many_pierBlock⟩) .nil
      cut_annexText itemPhrase_annexTokens hbreak (by simp) (hnone.gap []) (by simp)
      (by decide +kernel)⟩
  have hrefused : (read .skip (pierText ++ "\n" ++ annexText)).toOption.isSome = false := by
    decide +kernel
  refine ⟨exists_read_of_isSome (by decide +kernel), exists_read_of_isSome (by decide +kernel),
    hinsertion, ?_⟩
  rintro ⟨schema, hread⟩
  rw [hread] at hrefused
  cases hrefused

end SchemaModel.Sdl
