import SchemaModel.Sdl.Token

/-! # The Lexer of Schema Definition Text

    A source is cut into lexemes from left to right, with blanks, commas, byte order marks and
    comments between them.

    * **Scan**: what one lexeme takes from the front of the input, what it leaves, and the fault
      that stopped it, if any. A scan loses nothing: its text and its rest make up the input.
    * **lexemes**: all lexemes of a source. After a malformed one the scan goes on where it
      stopped.
    * **Feed**: the tokens up to the first fault or the end, which is what a parser is fed.
-/

namespace SchemaModel.Sdl

/-! ## Character Classes -/

/-- Characters that separate lexemes and carry no meaning. -/
def isBlank (c : Char) : Bool :=
  c = ' ' || c = '\t' || c = '\r' || c = '\n' || c = ',' || c = '\ufeff'

/-- Characters that end a comment or a quoted string. -/
def isLineEnd (c : Char) : Bool :=
  c = '\n' || c = '\r'

/-- Characters that begin a name. -/
def isNameStart (c : Char) : Bool :=
  c.isAlpha || c = '_'

/-- Characters that go on with a name. -/
def isNamePart (c : Char) : Bool :=
  c.isAlphanum || c = '_'

/-- Splits off the blanks and comments at the front. A comment runs from `#` up to a line end,
    and `inComment` tells whether the input begins inside one. -/
def splitTrivia (inComment : Bool) : List Char → List Char × List Char
  | [] => ([], [])
  | c :: cs =>
    if isBlank c || inComment || c = '#' then
      let (blank, rest) := splitTrivia ((inComment || c = '#') && !isLineEnd c) cs
      (c :: blank, rest)
    else ([], c :: cs)

/-! ## Scans -/

/-- What a lexeme, or a part of one, takes from the front of the input. -/
structure Scan where
  text : List Char
  rest : List Char
  fault : Option LexicalFault
  deriving Repr, DecidableEq

namespace Scan

/-- Takes `text` and leaves `rest`. -/
def taken (text rest : List Char) : Scan := ⟨text, rest, none⟩

/-- Takes nothing, being at fault. -/
def stuck (fault : LexicalFault) (rest : List Char) : Scan := ⟨[], rest, some fault⟩

/-- The same scan with `front` taken before it. -/
def after (front : List Char) (scan : Scan) : Scan :=
  { scan with text := front ++ scan.text }

/-- Goes on with the next part, unless this one is at fault. -/
def andThen (scan : Scan) (next : List Char → Scan) : Scan :=
  match scan.fault with
  | some _ => scan
  | none => (next scan.rest).after scan.text

/-- Takes the longest run of characters of a class. -/
def run (p : Char → Bool) (cs : List Char) : Scan :=
  taken (cs.takeWhile p) (cs.dropWhile p)

/-- Takes a run of digits, which must not be empty. -/
def digits (missing : LexicalFault) (cs : List Char) : Scan :=
  if (cs.takeWhile Char.isDigit).isEmpty then stuck missing cs else run Char.isDigit cs

/-! ## Numbers -/

/-- An optional minus sign. -/
def minus : List Char → Scan
  | '-' :: cs => taken ['-'] cs
  | cs => taken [] cs

/-- The integer part: a lone zero, or digits that do not begin with one. -/
def integer : List Char → Scan
  | '0' :: c :: cs =>
    if c.isDigit then ⟨['0'], c :: cs, some .leadingZero⟩ else taken ['0'] (c :: cs)
  | cs => digits .missingDigit cs

/-- An optional fraction. -/
def fraction : List Char → Scan
  | '.' :: cs => (digits .missingFraction cs).after ['.']
  | cs => taken [] cs

/-- An optional sign of an exponent. -/
def exponentSign : List Char → Scan
  | '+' :: cs => taken ['+'] cs
  | '-' :: cs => taken ['-'] cs
  | cs => taken [] cs

/-- An optional exponent. -/
def exponent : List Char → Scan
  | c :: cs =>
    if c = 'e' || c = 'E' then
      ((exponentSign cs).andThen (digits .missingExponent)).after [c]
    else taken [] (c :: cs)
  | [] => taken [] []

/-- The place after a number, where no point, underscore or letter may follow. -/
def numberEnd : List Char → Scan
  | c :: cs =>
    if c = '.' || c = '_' || c.isAlpha then stuck .numberRunsOn (c :: cs) else taken [] (c :: cs)
  | [] => taken [] []

/-- A number. -/
def number (cs : List Char) : Scan :=
  (minus cs).andThen integer |>.andThen fraction |>.andThen exponent |>.andThen numberEnd

/-! ## Strings -/

/-- The rest of a quoted string after its opening quote. A backslash takes the next character
    with it, whatever it is. -/
def quoted : List Char → Scan
  | [] => stuck .unterminatedString []
  | ['\\'] => ⟨['\\'], [], some .unterminatedString⟩
  | '\\' :: c :: cs => (quoted cs).after ['\\', c]
  | '"' :: cs => taken ['"'] cs
  | c :: cs =>
    if isLineEnd c then stuck .unterminatedString (c :: cs) else (quoted cs).after [c]

/-- The rest of a block string after its three opening quotes. -/
def block : List Char → Scan
  | '"' :: '"' :: '"' :: cs => taken ['"', '"', '"'] cs
  | '\\' :: '"' :: '"' :: '"' :: cs => (block cs).after ['\\', '"', '"', '"']
  | c :: cs => (block cs).after [c]
  | [] => stuck .unterminatedBlockString []

end Scan

/-! ## Lexemes -/

/-- The kind of a number: a point or an exponent makes it a float. -/
def numberKind (text : List Char) : TokenKind :=
  if text.any fun c => c = '.' || c = 'e' || c = 'E' then .float else .int

/-- The kind of a word. -/
def wordKind (text : List Char) : TokenKind :=
  ((Keyword.ofText? (String.ofList text)).map .keyword).getD .name

/-- Scans one lexeme that begins with `c`, and gives the kind that its text has if it is not at
    fault. -/
def scanLexeme (c : Char) (cs : List Char) : TokenKind × Scan :=
  match Punctuator.ofChar? c with
  | some mark => (.punctuator mark, .taken [c] cs)
  | none =>
    if c = '"' then
      match cs with
      | '"' :: '"' :: body => (.blockString, (Scan.block body).after ['"', '"', '"'])
      | _ => (.string, (Scan.quoted cs).after ['"'])
    else if c = '-' || c.isDigit then
      let scan := Scan.number (c :: cs)
      (numberKind scan.text, scan)
    else if isNameStart c then
      let scan := Scan.run isNamePart (c :: cs)
      (wordKind scan.text, scan)
    else (.name, ⟨[c], cs, some (.unexpectedCharacter c)⟩)

/-- One step of the lexer. -/
inductive Lexeme where
  | token (token : Token)
  /-- Characters that form no token. -/
  | malformed (fault : LexicalFault) (span : Span) (text : String)
  | endOfInput (offset : Nat)
  deriving Repr, DecidableEq

/-- The lexeme that a scan from byte `start` gives. -/
def Lexeme.ofScan (start : Nat) (kind : TokenKind) (scan : Scan) : Lexeme :=
  let span := ⟨start, start + byteLength scan.text⟩
  let text := String.ofList scan.text
  match scan.fault with
  | none => .token ⟨kind, span, text⟩
  | some fault => .malformed fault span text

/-! ## Progress

    Every scan shortens its input, so that the lexer reaches the end of every source. -/

theorem length_splitTrivia_le (inComment : Bool) (cs : List Char) :
    (splitTrivia inComment cs).2.length ≤ cs.length := by
  induction cs generalizing inComment with
  | nil => simp [splitTrivia]
  | cons c cs ih =>
    unfold splitTrivia
    split
    · exact Nat.le_succ_of_le (ih _)
    · simp

namespace Scan

/-- A scan of `cs` that leaves no more than it was given. -/
def Shortens (cs : List Char) (scan : Scan) : Prop := scan.rest.length ≤ cs.length

theorem Shortens.andThen {cs : List Char} {scan : Scan} {next : List Char → Scan}
    (h : scan.Shortens cs) (hnext : ∀ ds, (next ds).Shortens ds) :
    (scan.andThen next).Shortens cs := by
  unfold Scan.andThen
  split
  · exact h
  · exact Nat.le_trans (hnext _) h

theorem shortens_run (p : Char → Bool) (cs : List Char) : (run p cs).Shortens cs := by
  simpa [Shortens, run, taken] using (List.dropWhile_sublist p).length_le

theorem shortens_digits (missing : LexicalFault) (cs : List Char) :
    (digits missing cs).Shortens cs := by
  unfold digits
  split
  · exact Nat.le_refl _
  · exact shortens_run _ _

theorem shortens_integer (cs : List Char) : (integer cs).Shortens cs := by
  unfold integer
  split
  · split <;> simp [Shortens, taken]
  · exact shortens_digits _ _

theorem shortens_fraction (cs : List Char) : (fraction cs).Shortens cs := by
  unfold fraction
  split
  · exact Nat.le_succ_of_le (shortens_digits _ _)
  · exact Nat.le_refl _

theorem shortens_exponentSign (cs : List Char) : (exponentSign cs).Shortens cs := by
  unfold exponentSign
  split <;> simp [Shortens, taken]

theorem shortens_exponent (cs : List Char) : (exponent cs).Shortens cs := by
  unfold exponent
  split
  · split
    · exact Nat.le_succ_of_le
        ((shortens_exponentSign _).andThen fun ds => shortens_digits _ ds)
    · exact Nat.le_refl _
  · exact Nat.le_refl _

theorem shortens_numberEnd (cs : List Char) : (numberEnd cs).Shortens cs := by
  unfold numberEnd
  split
  · split <;> exact Nat.le_refl _
  · exact Nat.le_refl _

theorem shortens_quoted (cs : List Char) : (quoted cs).Shortens cs := by
  fun_induction quoted cs <;> simp_all [Shortens, after, taken, stuck] <;> omega

theorem shortens_block (cs : List Char) : (block cs).Shortens cs := by
  fun_induction block cs <;> simp_all [Shortens, after, taken, stuck] <;> omega

/-- A number that begins with a digit or a minus sign takes at least one character. -/
theorem length_number_lt {c : Char} (cs : List Char) (h : c = '-' ∨ c.isDigit = true) :
    (number (c :: cs)).rest.length < (c :: cs).length := by
  have tail : ∀ scan : Scan, scan.rest.length ≤ cs.length →
      (scan.andThen fraction |>.andThen exponent |>.andThen numberEnd).Shortens cs :=
    fun scan hscan => ((Shortens.andThen hscan shortens_fraction).andThen
      shortens_exponent).andThen shortens_numberEnd
  suffices ((minus (c :: cs)).andThen integer).rest.length ≤ cs.length from
    Nat.lt_succ_of_le (tail _ this)
  by_cases hc : c = '-'
  · subst hc
    exact shortens_integer cs
  · have hd : c.isDigit = true := h.resolve_left hc
    have hm : minus (c :: cs) = taken [] (c :: cs) := by
      unfold minus
      split
      · simp_all
      · rfl
    rw [hm]
    show (integer (c :: cs)).rest.length ≤ cs.length
    unfold integer
    split
    · rename_i heq
      simp only [List.cons.injEq] at heq
      obtain ⟨-, rfl⟩ := heq
      split <;> simp [taken]
    · simpa [digits, run, taken, hd] using (List.dropWhile_sublist Char.isDigit).length_le

end Scan

theorem length_scanLexeme_lt (c : Char) (cs : List Char) :
    (scanLexeme c cs).2.rest.length < (c :: cs).length := by
  unfold scanLexeme
  split
  · exact Nat.lt_succ_self _
  · split
    · split
      · exact Nat.lt_succ_of_le (Nat.le_trans (Scan.shortens_block _) (by simp; omega))
      · exact Nat.lt_succ_of_le (Scan.shortens_quoted _)
    · split
      · rename_i h
        exact Scan.length_number_lt cs (by simpa using h)
      · split
        · rename_i h
          have hp : isNamePart c = true := by
            simp only [isNameStart, isNamePart, Char.isAlphanum, Bool.or_eq_true] at h ⊢
            exact h.imp_left .inl
          simpa [Scan.run, Scan.taken, hp, Nat.lt_succ_iff] using
            (List.dropWhile_sublist isNamePart).length_le
        · exact Nat.lt_succ_self _

/-! ## Sources -/

/-- The lexemes of `cs`, which begins at byte `offset`. The last one is the end of the input. -/
def lexemesFrom (offset : Nat) (cs : List Char) : List Lexeme :=
  let start := offset + byteLength (splitTrivia false cs).1
  match _h : (splitTrivia false cs).2 with
  | [] => [.endOfInput start]
  | d :: ds =>
    let scan := (scanLexeme d ds).2
    .ofScan start (scanLexeme d ds).1 scan :: lexemesFrom (start + byteLength scan.text) scan.rest
termination_by cs.length
decreasing_by
  have hscan := length_scanLexeme_lt d ds
  have htrivia := length_splitTrivia_le false cs
  rw [_h] at htrivia
  exact Nat.lt_of_lt_of_le hscan htrivia

/-- The lexemes of a source. -/
def lexemes (source : String) : List Lexeme :=
  lexemesFrom 0 source.toList

/-- Where a run of tokens ends, and the fault that ended it, if any. -/
structure Ending where
  span : Span
  fault : Option LexicalFault
  deriving Repr, DecidableEq

/-- The tokens of a source up to its end or its first fault. -/
structure Feed where
  tokens : List Token
  ending : Ending
  deriving Repr, DecidableEq

/-- The tokens in front of the first lexeme that is none. -/
def Feed.ofLexemes : List Lexeme → Feed
  | .token token :: rest => { ofLexemes rest with tokens := token :: (ofLexemes rest).tokens }
  | .malformed fault span _ :: _ => ⟨[], span, some fault⟩
  | .endOfInput offset :: _ => ⟨[], ⟨offset, offset⟩, none⟩
  | [] => ⟨[], ⟨0, 0⟩, none⟩

/-- The tokens of a source. -/
def Feed.ofSource (source : String) : Feed :=
  .ofLexemes (lexemes source)

end SchemaModel.Sdl
