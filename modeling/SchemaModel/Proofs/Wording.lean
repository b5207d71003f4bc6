import SchemaModel.Proofs.Descriptions
import SchemaModel.Proofs.Origins
import SchemaModel.Proofs.Trivia

/-! # Sources of the Same Wording

    Trivia and descriptions carry no meaning.

    * **Same wording**: sources whose tokens are the same up to descriptions and places.
    * **Compiled alike**: such sources are read as schemas that are the same but for their origins, and
      compiled to the same model.
    * **Gaps**: sources that differ in the trivia between two tokens have the same wording. -/

namespace SchemaModel

open Sdl (Feed)
open Sdl.Movable (move)

/-- **Same wording**: the tokens of both sources are the same up to descriptions and places, and both
    have a malformed lexeme behind them or neither. -/
structure SameWording (source other : String) : Prop where
  tokens : Sdl.SameUpToDescriptions (Sdl.unplaced (Feed.ofSource source).tokens)
    (Sdl.unplaced (Feed.ofSource other).tokens)
  fault : (Feed.ofSource source).ending.fault.isSome = (Feed.ofSource other).ending.fault.isSome

theorem SameWording.symm {source other : String} (h : SameWording source other) :
    SameWording other source :=
  ⟨.symm _ _ h.tokens, h.fault.symm⟩

namespace Sdl

/-- A document is read from tokens without their places as it is from the tokens. -/
theorem document_unplaced_eq_ok {feed : Feed} {items : Document} {t : ParserState} :
    document (.start .skip (unplaced feed)) = .ok items t ↔
      ∃ found u, document (.start .skip feed) = .ok found u ∧
        items = unplaced found ∧ t = unplaced u := by
  rw [unplaced, document_moved]
  cases hrun : document (.start .skip feed) with
  | error fault u => simp [move]
  | ok found u =>
    constructor
    · rintro ⟨⟩
      exact ⟨found, u, rfl, rfl, rfl⟩
    · rintro ⟨_, _, ⟨⟩, rfl, rfl⟩
      rfl

end Sdl

theorem SameWording.read_skip {source other : String} (h : SameWording source other)
    {schema : Schema} (hread : Sdl.read .skip source = .ok schema) :
    ∃ found, Sdl.read .skip other = .ok found ∧ SameButOrigins schema found := by
  obtain ⟨items, t, hrun, rfl⟩ := Sdl.read_eq_ok.mp hread
  have hfault : (Feed.ofSource source).ending.fault = none := (Sdl.document_ok hrun).1
  have hother : (Feed.ofSource other).ending.fault = none := by
    simpa [hfault] using h.fault.symm
  have hending : move (fun _ => 0) (Feed.ofSource source).ending =
      move (fun _ => 0) (Feed.ofSource other).ending := by
    show (⟨⟨0, 0⟩, _⟩ : Sdl.Ending) = ⟨⟨0, 0⟩, _⟩
    rw [hfault, hother]
  -- without their places, the tokens of both sources are read as the same items
  have hunplaced := Sdl.document_unplaced_eq_ok.mpr ⟨items, t, hrun, rfl, rfl⟩
  have hsame := h.tokens.document_eq_ok.mp hunplaced
  rw [hending] at hsame
  obtain ⟨found, u, hfound, hitems, hstate⟩ := Sdl.document_unplaced_eq_ok.mp hsame
  exact ⟨_, Sdl.read_eq_ok.mpr ⟨found, u, hfound, rfl⟩,
    Sdl.sameButOrigins_of_unplaced (congrArg Sdl.ParserState.skipped hstate) hitems _ _⟩

/-- What is read from one source is read from another one of the same wording, perhaps in other
    places. -/
theorem SameWording.readSource_eq_ok {source other : String} (h : SameWording source other)
    {policy : Policy} {schema : Schema} (hread : readSource .sdl policy source = .ok schema) :
    ∃ found, readSource .sdl policy other = .ok found ∧ SameButOrigins schema found := by
  cases policy with
  | skip => exact h.read_skip hread
  | reject =>
    obtain ⟨hskip, hnone⟩ := readSource_reject_eq_ok.mp hread
    obtain ⟨found, hfound, hsame⟩ := h.read_skip hskip
    refine ⟨found, readSource_reject_eq_ok.mpr ⟨hfound, ?_⟩, hsame⟩
    -- as much is skipped in the one as in the other
    simpa [hnone, eq_comm] using hsame.skipped

/-- **Compiled alike**: sources of the same wording are compiled alike. -/
theorem SameWording.compile {source other : String} (h : SameWording source other)
    (options : Options) :
    AlikeOutcome (compile options .sdl source) (compile options .sdl other) := by
  unfold SchemaModel.compile
  cases hread : readSource .sdl options.policy source with
  | ok schema =>
    obtain ⟨found, hfound, hsame⟩ := h.readSource_eq_ok hread
    rw [hfound]
    exact compileSchema_of_sameButOrigins hsame options
  | error failure =>
    cases hother : readSource .sdl options.policy other with
    | error _ => trivial
    | ok found =>
      obtain ⟨schema, hschema, -⟩ := h.symm.readSource_eq_ok hother
      exact absurd (hread.symm.trans hschema) (by simp)

/-! ## Gaps -/

/-- Sources with the same lexemes have the same wording. -/
theorem sameWording_of_lexemes {source other : String}
    (h : Sdl.unplaced (Sdl.lexemes source) = Sdl.unplaced (Sdl.lexemes other)) :
    SameWording source other := by
  have hfeed : ∀ text : String, Sdl.unplaced (Feed.ofSource text) =
      Feed.ofLexemes (Sdl.unplaced (Sdl.lexemes text)) := fun text =>
    (Sdl.ofLexemes_map_move (fun _ => 0) 0 text.toList).symm
  have hsame : Sdl.unplaced (Feed.ofSource source) = Sdl.unplaced (Feed.ofSource other) := by
    rw [hfeed, hfeed, h]
  have htokens : Sdl.unplaced (Feed.ofSource source).tokens =
      Sdl.unplaced (Feed.ofSource other).tokens := congrArg Feed.tokens hsame
  have hfault : (Sdl.unplaced (Feed.ofSource source)).ending.fault =
      (Sdl.unplaced (Feed.ofSource other)).ending.fault := by rw [hsame]
  exact ⟨htokens ▸ .refl _, congrArg Option.isSome hfault⟩

/-! ## Main Result -/

/-- **Trivia and descriptions carry no meaning**: sources of the same wording are read as schemas that
    are the same but for their origins, and compiled alike. Other trivia in a gap between two tokens, as
    long as there is some, leaves all lexemes of a source as they are, and with them its wording. -/
theorem trivia_and_descriptions_mean_nothing :
    (∀ (source other : String), SameWording source other → ∀ options : Options,
      AlikeOutcome (compile options .sdl source) (compile options .sdl other) ∧
        ∀ schema found, readSource .sdl options.policy source = .ok schema →
          readSource .sdl options.policy other = .ok found →
            schema.skipped.map Skipped.what = found.skipped.map Skipped.what) ∧
      ∀ (source other : String) (front gap trivia back : List Char) (ls ms : List Sdl.Lexeme),
        Sdl.Cut source front (gap ++ back) ls ms → Sdl.Gap gap back → Sdl.Gap trivia back →
        trivia ≠ [] → other.toList = front ++ (trivia ++ back) →
          Sdl.unplaced (Sdl.lexemes other) = Sdl.unplaced (Sdl.lexemes source) ∧
            SameWording source other := by
  constructor
  · intro source other h options
    refine ⟨h.compile options, fun schema found hschema hfound => ?_⟩
    obtain ⟨also, halso, hsame⟩ := h.readSource_eq_ok hschema
    obtain rfl : found = also := Except.ok.inj (hfound.symm.trans halso)
    exact hsame.skipped
  · intro source other front gap trivia back ls ms hcut hgap htrivia hne hother
    have hlexemes := Sdl.lexemes_of_gaps hcut hgap htrivia hne hother
    exact ⟨hlexemes, sameWording_of_lexemes hlexemes.symm⟩

/-- A text on one line, without descriptions. -/
def plainText : String := "type Query\x7ba:Int\x7d"

/-- The same with descriptions and other trivia. -/
def describedText : String :=
  "\ufeff\"All.\"type Query\n\x7b # fields\r\"\"\"One.\"\"\" a:,\tInt,\n\x7d#"

/-- A token in no place. -/
def Sdl.tokenOf (kind : Sdl.TokenKind) (text : String) : Sdl.Token := ⟨kind, ⟨0, 0⟩, text⟩

theorem sameWording_describedText : SameWording plainText describedText := by
  let ty := Sdl.tokenOf (.keyword .type) "type"
  let query := Sdl.tokenOf .name "Query"
  let brace := Sdl.tokenOf (.punctuator .braceOpen) "\x7b"
  let members := [Sdl.tokenOf .name "a", Sdl.tokenOf (.punctuator .colon) ":",
    Sdl.tokenOf .name "Int", Sdl.tokenOf (.punctuator .braceClose) "\x7d"]
  let one := Sdl.tokenOf .blockString "\"\"\"One.\"\"\""
  let all := Sdl.tokenOf .string "\"All.\""
  have hplain : Sdl.unplaced (Feed.ofSource plainText).tokens = ty :: query :: brace :: members := by
    decide +kernel
  have hdescribed : Sdl.unplaced (Feed.ofSource describedText).tokens =
      all :: ty :: query :: brace :: one :: members := by decide +kernel
  -- in front of the field, inside the braces of the type
  have hfield : Sdl.Place [ty, query, brace] members := by
    have hnone : [ty, query, brace] = [] ++ [ty, query, brace] := rfl
    refine .member hnone .nil ?_ ⟨_, _, rfl, rfl⟩
    exact .type .absent (.fields (.inl rfl) (.intro rfl) .absent .nil
      (.intro ⟨brace, rfl, rfl⟩ .nil (.inl rfl)))
  -- in front of the type, behind nothing
  have htype : Sdl.Place [] (ty :: query :: brace :: one :: members) := .item .nil ⟨_, _, rfl, rfl⟩
  have hall : Sdl.DescriptionPhrase [all] := by
    have hcontents : Sdl.unquote (Sdl.literalBody 1 all.text) = .ok "All.".toList := by decide +kernel
    exact .string rfl hcontents
  refine ⟨?_, by decide +kernel⟩
  rw [hplain, hdescribed]
  exact .trans _ _ _ (.rel _ _ (.intro hfield (.blockString rfl))) (.rel _ _ (.intro htype hall))

/-- A comment between the keyword and the name takes the place of a blank. -/
def commentedText : String := "type#\rQuery\x7ba:Int\x7d"

theorem trivia_and_descriptions_mean_nothing_describedText :
    AlikeOutcome (compile .standard .sdl plainText) (compile .standard .sdl describedText) ∧
      (compile .standard .sdl plainText).toOption.isSome ∧
      Sdl.unplaced (Sdl.lexemes commentedText) = Sdl.unplaced (Sdl.lexemes plainText) ∧
      AlikeOutcome (compile .standard .sdl plainText) (compile .standard .sdl commentedText) := by
  obtain ⟨hwording, hgaps⟩ := trivia_and_descriptions_mean_nothing
  have hblank : Sdl.Trivia false [' '] false := .blank rfl .nil
  have hcomment : Sdl.Trivia false ['#', '\r'] false := .opening (.closing rfl .nil)
  let back := "Query\x7ba:Int\x7d".toList
  have hcut : Sdl.Cut plainText "type".toList ([' '] ++ back)
      [.token ⟨.keyword .type, ⟨0, 4⟩, "type"⟩] (Sdl.lexemes plainText).tail :=
    ⟨rfl, by decide +kernel, "type".toList, [], rfl, .nil, .inr ⟨_, rfl, by decide, trivial⟩⟩
  obtain ⟨hlexemes, hsame⟩ := hgaps plainText commentedText "type".toList [' '] ['#', '\r'] back _ _
    hcut (hblank.gap back) (hcomment.gap back) (by simp) rfl
  exact ⟨(hwording _ _ sameWording_describedText .standard).1, by decide +kernel, hlexemes,
    (hwording _ _ hsame .standard).1⟩

/-- An open string is no token, and takes up blanks that are put in the gap behind it in the place of a
    line end. -/
theorem open_string_takes_up_blanks :
    Sdl.Gap ['\n'] ['"'] ∧ Sdl.Gap [' '] ['"'] ∧
      Sdl.lexemes "\"a\n\"" = [.malformed .unterminatedString ⟨0, 2⟩ "\"a",
        .malformed .unterminatedString ⟨3, 4⟩ "\"", .endOfInput 4] ∧
      Sdl.lexemes "\"a \"" = [.token ⟨.string, ⟨0, 4⟩, "\"a \""⟩, .endOfInput 4] := by
  have hline : Sdl.Trivia false ['\n'] false := .blank rfl .nil
  have hblank : Sdl.Trivia false [' '] false := .blank rfl .nil
  exact ⟨hline.gap _, hblank.gap _, by decide +kernel, by decide +kernel⟩

end SchemaModel
