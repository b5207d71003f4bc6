import SchemaModel.Sdl.Lexer

/-! # The Lexer over Bytes

    The same lexemes, cut from the UTF-8 form of a source by looking at one byte at a time.

    * **Cursor**: a position of 32 bits that moves over the bytes. A step breaks down if the position
      outgrows its bits, or if a part of the source is asked for that does not begin and end between two
      characters. No step of a loop has to move the cursor, so a loop may also go on for ever.
    * **next**: one call of the lexer, from the position that the last one left behind.

    A byte is given as the character of the same code, so that no byte of a character beyond ASCII is
    taken for one of ASCII. -/

namespace SchemaModel.Sdl

/-- The characters from byte `start` up to byte `stop`, if both lie between two characters. -/
def slice? (text : String) (start stop : Nat) : Option (List Char) := do
  guard (start ≤ stop)
  let before ← charsWithin? start text.toList
  let within ← charsWithin? (stop - start) (text.toList.drop before)
  return (text.toList.drop before).take within

namespace ByteLexer

/-! ## Cursors -/

/-- The number of positions that there are. -/
def positionLimit : Nat := UInt32.size

/-- A step that moves a position. It gives nothing if it breaks down or goes on for ever. -/
abbrev Cursor := ExceptT LexicalFault (StateT Nat Option)

/-- Breaks down. -/
def Cursor.abort {α : Type} : Cursor α := ExceptT.mk fun _ => none

/-- A position that is checked to be one. -/
def checked (pos : Nat) : Cursor Nat :=
  if pos < positionLimit then return pos else Cursor.abort

/-- Moves on by `n` bytes. -/
def advance (n : Nat) : Cursor Unit := do
  set (← checked ((← get) + n))

/-- Takes a step again and again, as long as it tells to go on. -/
def loop (step : Cursor Bool) : Cursor Unit :=
  repeatM (fun _ => do return if ← step then .inl () else .inr ()) ()

variable (source : String)

/-- The bytes of a source. -/
def bytes : List Char :=
  source.toUTF8.data.toList.map Char.ofUInt8

/-- The byte at the cursor. -/
def peek : Cursor (Option Char) := do
  return (bytes source)[← get]?

/-- The byte that lies `n` bytes behind the cursor. -/
def peekAt (n : Nat) : Cursor (Option Char) := do
  return (bytes source)[← checked ((← get) + n)]?

/-- Do these bytes lie `n` bytes behind the cursor? The first other byte settles it. -/
def isAhead (n : Nat) : List Char → Cursor Bool
  | [] => return true
  | c :: cs => do
    if (← peekAt source n) = some c then isAhead (n + 1) cs else return false

/-- The text from byte `start` up to the cursor. -/
def sliceFrom (start : Nat) : Cursor (List Char) := do
  match slice? source start (← get) with
  | some cs => return cs
  | none => Cursor.abort

/-- One step over a byte of a class, if one is next. -/
def skip (p : Char → Bool) : Cursor Bool := do
  if (← peek source).any p then
    advance 1
    return true
  else return false

/-- Moves on over bytes of a class. -/
def skipWhile (p : Char → Bool) : Cursor Unit := loop (skip source p)

/-! ## Trivia -/

/-- Blanks of one byte. -/
def isByteBlank (c : Char) : Bool :=
  c = ' ' || c = '\t' || c = '\r' || c = '\n' || c = ','

/-- Moves on to the next line end, or to the end of the source. -/
def comment : Cursor Unit := do
  match ((bytes source).drop (← get)).findIdx? isLineEnd with
  | some n => advance (n % positionLimit)
  | none => set (source.utf8ByteSize % positionLimit)

/-- One step over a blank, a comma, a byte order mark or a comment, if one is next. -/
def skipTrivia : Cursor Bool := do
  match ← peek source with
  | none => return false
  | some c =>
    if isByteBlank c then
      advance 1
      return true
    else if c = '#' then
      comment source
      return true
    else if c = '\xEF' then
      if ← isAhead source 1 ['\xBB', '\xBF'] then
        advance 3
        return true
      else return false
    else return false

/-- Moves on over blanks, commas, byte order marks and comments. -/
def trivia : Cursor Unit := loop (skipTrivia source)

/-! ## Lexemes -/

/-- A name or a keyword. -/
def word : Cursor TokenKind := do
  let start ← get
  skipWhile source isNamePart
  return wordKind (← sliceFrom source start)

/-- Moves on over digits, of which there must be some. -/
def digits (missing : LexicalFault) : Cursor Unit := do
  let start ← get
  skipWhile source Char.isDigit
  if (← get) - start = 0 then throw missing

/-- An optional minus sign. -/
def minus : Cursor Unit := do
  if (← peek source) = some '-' then advance 1

/-- The integer part of a number. -/
def integer : Cursor Unit := do
  if (← peek source) = some '0' then
    advance 1
    if (← peek source).any Char.isDigit then throw .leadingZero
  else digits source .missingDigit

/-- An optional fraction. Is there one? -/
def fraction : Cursor Bool := do
  if (← peek source) = some '.' then
    advance 1
    digits source .missingFraction
    return true
  else return false

/-- An optional sign of an exponent. -/
def exponentSign : Cursor Unit := do
  if (← peek source).any fun c => c = '+' || c = '-' then advance 1

/-- An optional exponent. Is there one? -/
def exponent : Cursor Bool := do
  if (← peek source).any fun c => c = 'e' || c = 'E' then
    advance 1
    exponentSign source
    digits source .missingExponent
    return true
  else return false

/-- The place behind a number, where no point, underscore or letter may follow. -/
def numberEnd : Cursor Unit := do
  if (← peek source).any fun c => c = '.' || c = '_' || c.isAlpha then throw .numberRunsOn

/-- A number. -/
def number : Cursor TokenKind := do
  minus source
  integer source
  let hasFraction ← fraction source
  let hasExponent ← exponent source
  numberEnd source
  return if hasFraction || hasExponent then .float else .int

/-- Moves on over one byte, if there is one. -/
def escaped : Cursor Unit := do
  if (← peek source).isSome then advance 1

/-- One step in a quoted string. A backslash takes the next byte with it. -/
def skipQuoted : Cursor Bool := do
  match ← peek source with
  | none => throw .unterminatedString
  | some c =>
    if isLineEnd c then throw .unterminatedString
    else if c = '"' then
      advance 1
      return false
    else if c = '\\' then
      advance 1
      escaped source
      return true
    else
      advance 1
      return true

/-- The rest of a quoted string. -/
def quoted : Cursor Unit := loop (skipQuoted source)

/-- One step in a block string. -/
def skipBlock : Cursor Bool := do
  match ← peek source with
  | none => throw .unterminatedBlockString
  | some c =>
    if c = '"' then
      if ← isAhead source 1 ['"', '"'] then
        advance 3
        return false
      else
        advance 1
        return true
    else if c = '\\' then
      advance (if ← isAhead source 1 ['"', '"', '"'] then 4 else 1)
      return true
    else
      advance 1
      return true

/-- The rest of a block string. -/
def block : Cursor Unit := loop (skipBlock source)

/-- A string of either kind. -/
def string : Cursor TokenKind := do
  advance 1
  if ← isAhead source 0 ['"', '"'] then
    advance 2
    block source
    return .blockString
  else
    quoted source
    return .string

/-- A character that begins no lexeme. -/
def unexpected : Cursor TokenKind := do
  match slice? source (← get) source.utf8ByteSize with
  | some cs =>
    let c := cs.headD '?'
    advance c.utf8Size
    throw (.unexpectedCharacter c)
  | none => Cursor.abort

/-- The lexeme that begins with a byte. -/
def lexeme (c : Char) : Cursor TokenKind := do
  match Punctuator.ofChar? c with
  | some mark =>
    advance 1
    return .punctuator mark
  | none =>
    if c = '"' then string source
    else if c = '-' || c.isDigit then number source
    else if isNameStart c then word source
    else unexpected source

/-! ## Calls -/

/-- One call of the lexer from a position. It gives a lexeme and the position behind it. -/
def next (pos : Nat) : Option (Lexeme × Nat) := do
  let (_, start) ← (trivia source).run pos
  match (bytes source)[start]? with
  | none => return (.endOfInput start, start)
  | some c =>
    let (outcome, stop) ← (lexeme source c).run start
    let text := String.ofList (← slice? source start stop)
    match outcome with
    | .ok kind => return (.token ⟨kind, ⟨start, stop⟩, text⟩, stop)
    | .error fault => return (.malformed fault ⟨start, stop⟩ text, stop)

/-- A number of calls, one after the other. -/
def calls : Nat → Nat → Option (List Lexeme)
  | 0, _ => some []
  | n + 1, pos => do
    let (first, stop) ← next source pos
    return first :: (← calls n stop)

end ByteLexer

end SchemaModel.Sdl
