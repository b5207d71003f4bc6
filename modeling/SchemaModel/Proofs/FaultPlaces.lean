import SchemaModel.Proofs.DocumentCompletions
import SchemaModel.Proofs.Extensions
import SchemaModel.Proofs.Lookahead

/-! # Places of Faults

    A fault points at the first lexeme with which the text cannot go on.

    * **Written tokens**: writable tokens, written down with a blank behind each of them, are read as the
      same ones.
    * **Resumed**: in front of a lexeme, a source can be cut off and go on with anything else, once a comment
      that may be open there is closed.
    * **Viable texts**: texts that some other text makes a source that is read. The text in front of a fault is
      viable, and with the token that the fault points at it is not. -/

namespace SchemaModel.Sdl

open Movable (move)

/-! ## Written Tokens -/

/-- The texts of tokens, with a blank behind each of them. -/
def writtenTokens (ts : List Token) : List Char :=
  ts.flatMap fun token => token.text.toList ++ [' ']

/-- One token is written as one token, up to its place. -/
theorem Written.unplaced_eq {token : Token} {us : List Token} (h : Written token.kind token.text us) :
    unplaced us = unplaced [token] := by
  obtain ⟨other, rfl, hkind, htext⟩ := h
  show [(⟨other.kind, ⟨0, 0⟩, other.text⟩ : Token)] = [⟨token.kind, ⟨0, 0⟩, token.text⟩]
  rw [hkind, htext]

theorem unplaced_append (ts us : List Token) : unplaced (ts ++ us) = unplaced ts ++ unplaced us :=
  List.map_append

/-- **Written**: writable tokens are read back, up to their places. -/
theorem spells_writtenTokens {ts : List Token} (h : Writable ts) :
    Spells Anywhere (writtenTokens ts) fun us => unplaced us = unplaced ts := by
  have heach : ∀ token ∈ ts, Spells Anywhere (token.text.toList ++ [' '])
      fun us => Written token.kind token.text us := by
    intro token htoken
    refine (Spells.lexeme (h token htoken)).append (fun rest _ => apart_cons (by decide) _)
      fun us hus => Spells.blank_cons rfl (.nil (by simpa using hus))
  refine (Spells.flatMap heach).imp
    fun us hus => ?_
  -- one token after the other is read back
  clear heach h
  induction hus with
  | nil => rfl
  | @cons vs ws token ts hfirst _ ih =>
    rw [unplaced_append, hfirst.unplaced_eq, ih]
    rfl

/-! ## Resumed Sources -/

/-- The bytes of a lexeme. -/
def Lexeme.span : Lexeme → Span
  | .token t => t.span
  | .malformed _ span _ => span
  | .endOfInput offset => ⟨offset, offset⟩

/-- A blank and a line feed leave no comment open. -/
theorem Trivia.closed {inside after : Bool} {cs : List Char} (h : Trivia inside cs after) :
    Trivia inside (cs ++ [' ', '\n']) false := by
  induction h with
  | @nil inside =>
    cases inside with
    | false => exact .blank rfl (.blank rfl .nil)
    | true => exact .inside rfl (.closing rfl .nil)
  | blank hc _ ih => exact .blank hc ih
  | opening _ ih => exact .opening ih
  | inside hc _ ih => exact .inside hc ih
  | closing hc _ ih => exact .closing hc ih

/-- In front of the first lexeme there is trivia, be it the end of the input. -/
theorem exists_trivia_in_front {offset : Nat} {cs : List Char} {l : Lexeme} {ms : List Lexeme}
    (h : lexemesFrom offset cs = l :: ms) :
    ∃ gap back after, cs = gap ++ back ∧ Trivia false gap after ∧
      l.span.start = offset + byteLength gap := by
  obtain ⟨⟨after, htrivia, -⟩, hcs⟩ := trivia_splitTrivia false cs
  refine ⟨_, _, after, hcs, htrivia, ?_⟩
  rw [lexemesFrom_of_split offset rfl] at h
  cases hrest : (splitTrivia false cs).2 with
  | nil =>
    rw [hrest] at h
    obtain ⟨rfl, -⟩ := List.cons.inj h
    rfl
  | cons d ds =>
    rw [hrest] at h
    obtain ⟨rfl, -⟩ := List.cons.inj h
    unfold Lexeme.ofScan
    cases (scanLexeme d ds).2.fault <;> rfl

/-- **Resumed**: a text is cut off in front of a lexeme, be it the end of the input, and goes on with
    anything else. The tokens in front stay as they are. -/
theorem lexemesFrom_resumed {cs : List Char} {ts : List Token} {l : Lexeme} {ms : List Lexeme}
    (h : lexemesFrom 0 cs = ts.map .token ++ l :: ms) :
    ∃ front back, cs = front ++ back ∧ l.span.start = byteLength front ∧
      ∃ next, ∀ other, lexemesFrom 0 (front ++ ' ' :: '\n' :: other) =
        ts.map .token ++ lexemesFrom next other := by
  -- the front ends in the trivia behind the last one of the tokens
  obtain ⟨body, rest, hcs, hms, hagain⟩ : ∃ body rest, cs = body ++ rest ∧
      lexemesFrom (byteLength body) rest = l :: ms ∧ ∀ other, Apart other →
        lexemesFrom 0 (body ++ other) = ts.map .token ++ lexemesFrom (byteLength body) other := by
    cases hlast : ts.getLast? with
    | none =>
      obtain rfl : ts = [] := List.getLast?_eq_none_iff.mp hlast
      exact ⟨[], cs, rfl, h, fun _ _ => rfl⟩
    | some token =>
      obtain ⟨init, rfl⟩ := List.getLast?_eq_some_iff.mp hlast
      rw [List.map_append, List.append_assoc] at h
      obtain ⟨body, rest, -, hcs, hstop, hms, hagain⟩ :=
        lexemesFrom_behind (l := .token token) h rfl
      rw [Nat.zero_add] at hstop
      refine ⟨body, rest, hcs, hstop ▸ hms.symm, fun other hother => ?_⟩
      rw [hagain trivial other hother, hstop, List.map_append, List.append_assoc]
      rfl
  obtain ⟨gap, back, after, rfl, htrivia, hstart⟩ := exists_trivia_in_front hms
  refine ⟨body ++ gap, back, by rw [hcs, List.append_assoc], ?_,
    byteLength body + byteLength (gap ++ [' ', '\n']), fun other => ?_⟩
  · rw [hstart, byteLength_append]
  · have hapart : Apart (gap ++ [' ', '\n'] ++ other) := htrivia.closed.apart (by simp) other
    have hgap := lexemesFrom_gap (htrivia.closed.gap other) (byteLength body)
    rw [← hgap, ← hagain _ hapart]
    simp

/-- Behind the tokens of a source there is its first lexeme that is no token. -/
theorem exists_ending (source : String) :
    ∃ l ms, lexemes source = (Feed.ofSource source).tokens.map .token ++ l :: ms ∧
      l.span = (Feed.ofSource source).ending.span ∧ ∀ token, l ≠ .token token := by
  have hfrom : ∀ offset cs, ∃ l ms, lexemesFrom offset cs =
      (Feed.ofLexemes (lexemesFrom offset cs)).tokens.map .token ++ l :: ms ∧
        l.span = (Feed.ofLexemes (lexemesFrom offset cs)).ending.span ∧
          ∀ token, l ≠ .token token := by
    intro offset cs
    fun_induction lexemesFrom offset cs with
    | case1 offset cs start => exact ⟨_, [], rfl, rfl, by simp⟩
    | case2 offset cs start d ds hsplit scan ih =>
      cases hfault : scan.fault with
      | some fault =>
        simp only [Lexeme.ofScan, hfault, Feed.ofLexemes]
        exact ⟨_, _, rfl, rfl, by simp⟩
      | none =>
        obtain ⟨l, ms, hrest, hspan, hnone⟩ := ih
        simp only [Lexeme.ofScan, hfault, Feed.ofLexemes]
        exact ⟨l, ms, congrArg (Lexeme.token _ :: ·) hrest, hspan, hnone⟩
  exact hfrom 0 source.toList

/-! ## Viable Texts -/

/-- **Viable**: some other text, with a blank in front, makes the text a source that is read. -/
def Viable (text : String) : Prop :=
  ∃ (rest : String) (schema : Schema), read .skip (text ++ " " ++ rest) = .ok schema

/-- The text of a source up to a byte offset. -/
def UpTo (source : String) (offset : Nat) (text : String) : Prop :=
  byteLength text.toList = offset ∧ ∃ back, source.toList = text.toList ++ back

/-- Sources are read alike if their tokens are the same up to their places. -/
theorem read_of_unplaced {source : String} {ts : List Token} {items : Document}
    (hfault : (Feed.ofSource source).ending.fault = none)
    (htokens : unplaced (Feed.ofSource source).tokens = unplaced ts) (hitems : Many ItemPhrase ts items)
    (hadmitted : items.Admitted [] false) : ∃ schema, read .skip source = .ok schema := by
  let feed : Feed := ⟨ts, ⟨⟨0, 0⟩, none⟩⟩
  -- the parser gives the same on the tokens without their places
  have hrun : document (.start .skip feed) = .ok items ((ParserState.start .skip feed).behind [] items) :=
    document_eq_ok_iff.mpr ⟨rfl, hitems, hadmitted, rfl⟩
  have hmoved := document_moved feed fun _ => 0
  rw [hrun] at hmoved
  obtain ⟨-, hunplaced, hadmitted, -⟩ := document_eq_ok_iff.mp hmoved
  have hsame : Many ItemPhrase (unplaced (Feed.ofSource source).tokens) (unplaced items) :=
    htokens ▸ hunplaced
  exact (read_moved_iff hsame hfault).mpr hadmitted

/-- A text is viable if its tokens can be completed and it can go on. -/
theorem viable_of_completable {text : String} {ts : List Token} {next : Nat}
    (hresumed : ∀ other, lexemesFrom 0 (text.toList ++ ' ' :: '\n' :: other) =
      ts.map .token ++ lexemesFrom next other)
    (h : Completable (fun us (items : Document) => Many ItemPhrase us items ∧
      items.Admitted [] false) ts) : Viable text := by
  obtain ⟨us, items, hus, hitems, hadmitted⟩ := h
  let rest : String := String.ofList ('\n' :: writtenTokens us)
  obtain ⟨vs, stop, hlex, hvs⟩ := spells_writtenTokens hus next [] trivial
  rw [List.append_nil, lexemesFrom_nil] at hlex
  have hlexemes : lexemes (text ++ " " ++ rest) = (ts ++ vs).map .token ++ [.endOfInput stop] := by
    have htext : (text ++ " " ++ rest).toList =
        text.toList ++ ' ' :: '\n' :: writtenTokens us := by simp [rest]
    rw [lexemes, htext, hresumed, hlex, List.map_append, List.append_assoc]
  have hfeed := feed_of_lexemes hlexemes
  refine ⟨rest, read_of_unplaced (by rw [hfeed]) ?_ hitems hadmitted⟩
  rw [hfeed, unplaced_append, unplaced_append, hvs]

/-- What is malformed in a source is where the parser stops. -/
theorem exists_of_read_eq_error {policy : Policy} {source : String} {fault : PlacedFault}
    (h : read policy source = .error (.malformedText fault)) :
    ∃ found u, document (.start policy (Feed.ofSource source)) = .error found u ∧
      fault = found.placed (LineTable.ofText source.toList) := by
  unfold read at h
  cases hrun : document (.start policy (Feed.ofSource source)) with
  | ok items t =>
    rw [hrun] at h
    cases h
  | error found u =>
    refine ⟨found, u, rfl, ?_⟩
    rw [hrun] at h
    have h := Except.error.inj h
    unfold SourceFault.failure at h
    split at h
    · cases h
    · exact (Failure.malformedText.inj h).symm

/-- Where the parser stops in front of a token, the text up to the end of this token is not viable. -/
theorem not_viable_of_stops {source text : String} {ts rest : List Token} {token : Token}
    {fault : SourceFault} {u : ParserState}
    (hstop : document (.start .skip (Feed.ofSource source)) = .error fault u)
    (htokens : (Feed.ofSource source).tokens = ts ++ token :: rest) (hu : u.tokens = token :: rest)
    (hagain : ∀ other, Apart other → lexemesFrom 0 (text.toList ++ other) =
      (ts.map .token ++ [.token token]) ++ lexemesFrom token.span.stop other) : ¬Viable text := by
  intro hviable
  obtain ⟨more, schema, hread⟩ := hviable
  obtain ⟨items, t, hrun, -⟩ := read_eq_ok.mp hread
  let behind : Feed := .ofLexemes (lexemesFrom token.span.stop (' ' :: more.toList))
  have hfeed : Feed.ofSource (text ++ " " ++ more) = ⟨ts ++ token :: behind.tokens, behind.ending⟩ := by
    have htext : (text ++ " " ++ more).toList = text.toList ++ ' ' :: more.toList := by simp
    have hmap : (ts.map Lexeme.token ++ [.token token]) = (ts ++ [token]).map .token := by simp
    rw [Feed.ofSource, lexemes, htext, hagain _ (apart_cons (by decide) _), hmap, ofLexemes_append]
    simp [behind]
  have hsource : Feed.ofSource source = ⟨ts ++ token :: rest, (Feed.ofSource source).ending⟩ :=
    htokens ▸ rfl
  rw [hsource] at hstop
  obtain ⟨v, hother⟩ := document_stops hu hstop behind
  rw [hfeed, hother] at hrun
  cases hrun

/-! ## Main Result -/

/-- **Places of faults**: if a source is refused in which no operation is named that has a root type
    already, then the fault has the span of one of its lexemes, be it the first malformed one or the end of
    the input, and the position at which this begins. The text in front of it is viable. If it is a token,
    the text up to its end is not viable. -/
theorem fault_is_first_dead_end {source : String} {fault : PlacedFault}
    (hagain : ¬NamesAgain [] (Feed.ofSource source).tokens)
    (h : read .skip source = .error (.malformedText fault)) :
    fault.position = (LineTable.ofText source.toList).position fault.span.start ∧
      ∃ (ts : List Token) (l : Lexeme) (ms : List Lexeme),
        lexemes source = ts.map .token ++ l :: ms ∧ fault.span = l.span ∧
        (∃ front, UpTo source fault.span.start front ∧ Viable front) ∧
        ∀ token, l = .token token → ∃ front, UpTo source fault.span.stop front ∧ ¬Viable front := by
  obtain ⟨found, u, hstop, rfl⟩ := exists_of_read_eq_error h
  obtain ⟨hspan, ts, hsu, hphrase⟩ := document_stopsIn hagain found u hstop
  have htokens : (Feed.ofSource source).tokens = ts ++ u.tokens := hsu.tokens
  obtain ⟨last, others, hlexemes, hlast, hnone⟩ := exists_ending source
  rw [htokens, List.map_append, List.append_assoc] at hlexemes
  -- the lexeme is the token that comes next, or else the first one that is no token
  obtain ⟨l, ms, hnext, hl, hdead⟩ : ∃ l ms, u.tokens.map .token ++ last :: others = l :: ms ∧
      found.span = l.span ∧ ∀ token, l = .token token → ∃ rest, u.tokens = token :: rest := by
    cases hu : u.tokens with
    | nil =>
      refine ⟨last, others, rfl, ?_, fun token htoken => absurd htoken (hnone token)⟩
      rw [hspan, hlast, ParserState.span, hu, hsu.ending]
      rfl
    | cons token rest =>
      refine ⟨.token token, _, rfl, ?_, fun other hother => ⟨rest, ?_⟩⟩
      · rw [hspan, ParserState.span, hu]
        rfl
      · rw [Lexeme.token.inj hother]
  rw [hnext] at hlexemes
  refine ⟨rfl, ts, l, ms, hlexemes, hl, ?_, fun token htoken => ?_⟩
  · -- cut off in front of the lexeme, the source goes on with what its tokens lack
    obtain ⟨front, back, htext, hstart, next, hresumed⟩ := lexemesFrom_resumed hlexemes
    rw [← String.toList_ofList (l := front)] at htext hstart hresumed
    refine ⟨String.ofList front, ⟨?_, back, htext⟩, viable_of_completable hresumed hphrase⟩
    rw [← hstart, ← hl]
    rfl
  · -- cut off behind the token, it is stopped at this token whatever follows
    subst htoken
    obtain ⟨rest, hu⟩ := hdead token rfl
    obtain ⟨front, back, -, htext, hend, -, hagain⟩ := lexemesFrom_behind hlexemes rfl
    rw [Nat.zero_add] at hend
    refine ⟨String.ofList front, ⟨?_, back, ?_⟩,
      not_viable_of_stops hstop (hu ▸ htokens) hu fun other hother => ?_⟩
    · rw [String.toList_ofList, ← hend]
      exact congrArg Span.stop hl.symm
    · rw [String.toList_ofList, htext]
    · rw [String.toList_ofList, hagain trivial other hother, List.append_assoc]
      rfl

/-- The fault of a text that is refused as malformed. -/
def malformed? : Except Failure Schema → Option PlacedFault
  | .error (.malformedText fault) => some fault
  | _ => none

theorem malformed?_eq_some {reading : Except Failure Schema} {fault : PlacedFault} :
    malformed? reading = some fault ↔ reading = .error (.malformedText fault) := by
  constructor
  · intro h
    unfold malformed? at h
    split at h
    · rw [Option.some.inj h]
    · cases h
  · rintro rfl
    rfl

/-- A schema block that lacks the type of its second operation. -/
def openBlockText : String :=
  "schema \x7b\n  query: Query\n  mutation \x7d"

theorem fault_is_first_dead_end_openBlockText :
    ¬NamesAgain [] (Feed.ofSource openBlockText).tokens ∧
      read .skip openBlockText = .error (.malformedText
        ⟨.unexpected (.token (.punctuator .colon)) (some "\x7d"), ⟨35, 36⟩, ⟨3, 12⟩⟩) ∧
      ∃ front, UpTo openBlockText 35 front ∧ Viable front := by
  have hnodup : (operationKeywords (Feed.ofSource openBlockText).tokens).Nodup := by decide +kernel
  have hagain : ¬NamesAgain [] (Feed.ofSource openBlockText).tokens :=
    fun h => h.not_nodup hnodup
  have hread : read .skip openBlockText = .error (.malformedText
      ⟨.unexpected (.token (.punctuator .colon)) (some "\x7d"), ⟨35, 36⟩, ⟨3, 12⟩⟩) :=
    malformed?_eq_some.mp (by decide +kernel)
  obtain ⟨-, ts, l, ms, -, -, hviable, -⟩ := fault_is_first_dead_end hagain hread
  exact ⟨hagain, hread, hviable⟩

end SchemaModel.Sdl
