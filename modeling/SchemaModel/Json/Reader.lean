import SchemaModel.Json.Basic
import SchemaModel.Position
import SchemaModel.Text.Hex

/-! # Reading JSON Text

    A strict reader that tells the byte at which a text stops being JSON.

    * **Cursor**: the characters that are left and the number of bytes in front of them.
    * **Misread**: a fault with the number of bytes in front of the place that it is reported at.
      Most faults lie just after the first byte that does not fit.
    * **Numbers**: integers that fit 64 bits are exact. Any other number is a double, computed from
      as many leading digits as fit 64 bits and a power of ten.
    * **Depth**: arrays and objects nest up to a limit.
-/

namespace SchemaModel.Json

/-! ## Faults -/

/-- Why a text is no JSON value. -/
inductive TextFault where
  | endInValue
  | endInList
  | endInObject
  | endInString
  | expectedValue
  | expectedWord
  | expectedColon
  | expectedListEnd
  | expectedObjectEnd
  | keyNotString
  | trailingComma
  | trailingCharacters
  | nestedTooDeep
  | invalidNumber
  | numberOutOfRange
  | controlCharacter
  | invalidEscape
  | loneSurrogate
  | unpairedSurrogate
  deriving Repr, DecidableEq

/-- The wording of a fault in JSON text. -/
def TextFault.message : TextFault → String
  | .endInValue => "EOF while parsing a value"
  | .endInList => "EOF while parsing a list"
  | .endInObject => "EOF while parsing an object"
  | .endInString => "EOF while parsing a string"
  | .expectedValue => "expected value"
  | .expectedWord => "expected ident"
  | .expectedColon => "expected `:`"
  | .expectedListEnd => "expected `,` or `]`"
  | .expectedObjectEnd => "expected `,` or `\x7d`"
  | .keyNotString => "key must be a string"
  | .trailingComma => "trailing comma"
  | .trailingCharacters => "trailing characters"
  | .nestedTooDeep => "recursion limit exceeded"
  | .invalidNumber => "invalid number"
  | .numberOutOfRange => "number out of range"
  | .controlCharacter => "control character (\\u0000-\\u001F) found while parsing a string"
  | .invalidEscape => "invalid escape"
  | .loneSurrogate => "lone leading surrogate in hex escape"
  | .unpairedSurrogate => "unexpected end of hex escape"

/-- A fault, and the number of bytes in front of the place that it is reported at. -/
structure Misread where
  fault : TextFault
  offset : Nat
  deriving Repr, DecidableEq

/-- What is left of a text, and the number of bytes in front of it. -/
structure Cursor where
  offset : Nat
  rest : List Char
  deriving Repr, DecidableEq

/-- A step that takes characters and gives a result, or stops at a fault. -/
abbrev Reader := StateT Cursor (Except Misread)

namespace Reader

variable {α : Type}

/-! ## Single Steps -/

/-- Stops just before the next character. -/
def failHere (fault : TextFault) : Reader α := do
  throw ⟨fault, (← get).offset⟩

/-- Stops just after the first byte of the next character, or at the end of the text. -/
def failNext (fault : TextFault) : Reader α := do
  let cursor ← get
  throw ⟨fault, cursor.offset + (if cursor.rest.isEmpty then 0 else 1)⟩

/-- Steps over the next character. -/
def skip : Reader Unit :=
  modify fun cursor =>
    match cursor.rest with
    | c :: cs => ⟨cursor.offset + c.utf8Size, cs⟩
    | [] => cursor

/-- The next character. -/
def next? : Reader (Option Char) := return (← get).rest.head?

/-- Takes the longest run of characters of a class. -/
def takeRun (p : Char → Bool) : Reader (List Char) := do
  let cursor ← get
  let run := cursor.rest.takeWhile p
  set (⟨cursor.offset + byteLength run, cursor.rest.dropWhile p⟩ : Cursor)
  return run

/-- The characters that may stand between tokens. -/
def isBlank (c : Char) : Bool := c = ' ' || c = '\t' || c = '\n' || c = '\r'

/-- The next character after any blanks. -/
def nextToken? : Reader (Option Char) := do
  let _ ← takeRun isBlank
  next?

/-- Steps over the letters of a word. -/
def word : List Char → Reader Unit
  | [] => return ()
  | letter :: letters => do
    match ← next? with
    | none => failHere .endInValue
    | some c => if c = letter then do skip; word letters else failNext .expectedWord

/-! ## Numbers -/

/-- The largest integer in 64 bits. -/
def maxSignificand : Nat := 0xFFFFFFFFFFFFFFFF

/-- The largest magnitude of a negative integer in 64 bits. -/
def maxNegative : Nat := 0x8000000000000000

/-- The largest exponent that is told from a larger one. -/
def maxExponent : Nat := 0x7FFFFFFF

/-- Appends digits to a number for as long as it stays within a bound, and gives the digits that
    do not fit any more. -/
def appendDigits (bound number : Nat) : List Char → Nat × List Char
  | [] => (number, [])
  | d :: ds =>
    let longer := number * 10 + (d.toNat - '0'.toNat)
    if longer ≤ bound then appendDigits bound longer ds else (number, d :: ds)

/-- A power of ten as a double. -/
def tenTo (exponent : Nat) : Float := Float.ofScientific 1 false exponent

/-- Divides by a power of ten, by at most `10 ^ 308` at a time. -/
def scaleDown (value : Float) (places : Nat) : Float :=
  if places ≤ 308 then value / tenTo places
  else if value == 0 then value
  else scaleDown (value / tenTo 308) (places - 308)
termination_by places

/-- The double nearest to `significand`, scaled by a power of ten. Too large a number has none. -/
def scaled? (significand : Nat) (exponent : Int) : Option Float :=
  let value := significand.toUInt64.toFloat
  if exponent < 0 then some (scaleDown value exponent.natAbs)
  else if exponent ≤ 308 then
    let product := value * tenTo exponent.toNat
    if product.isInf then none else some product
  else if value == 0 then some value
  else none

/-- The number with the given sign. -/
def signed (negative : Bool) (value : Float) : Json :=
  .real (if negative then -value else value)

/-- A scaled number, reported after its last digit if it is too large. -/
def scaledNumber (negative : Bool) (significand : Nat) (exponent : Int) : Reader Json :=
  match scaled? significand exponent with
  | some value => return signed negative value
  | none => failHere .numberOutOfRange

/-- The exponent of a number, after its mark. `scale` is the exponent of the significand so far.
    If the exponent itself is too large, then so is the number, unless it is zero. -/
def exponentPart (negative : Bool) (significand : Nat) (scale : Int) : Reader Json := do
  skip
  let sign ← next?
  if sign = some '+' || sign = some '-' then skip
  let before := (← get).offset
  let digits ← takeRun Char.isDigit
  if digits.isEmpty then
    match ← next? with
    | none => failHere .endInValue
    | some _ => failNext .invalidNumber
  else
    let down := sign = some '-'
    match appendDigits maxExponent 0 digits with
    | (exponent, []) =>
      scaledNumber negative significand (if down then scale - exponent else scale + exponent)
    | (_, excess) =>
      if significand = 0 || down then return signed negative 0
      else throw ⟨.numberOutOfRange, before + (digits.length - excess.length) + 1⟩

/-- What follows the digits of a number: an exponent, or nothing. -/
def exponentOrEnd (negative : Bool) (significand : Nat) (scale : Int) : Reader Json := do
  match ← next? with
  | some 'e' | some 'E' => exponentPart negative significand scale
  | _ => scaledNumber negative significand scale

/-- The fraction of a number, at its point. Digits that do not fit are dropped. -/
def fractionPart (negative : Bool) (significand : Nat) (scale : Int) : Reader Json := do
  skip
  let digits ← takeRun Char.isDigit
  if digits.isEmpty then
    match ← next? with
    | none => failNext .endInValue
    | some _ => failNext .invalidNumber
  else
    let (longer, excess) := appendDigits maxSignificand significand digits
    exponentOrEnd negative longer (scale - (digits.length - excess.length : Nat))

/-- An integer, or the double that stands for it if it does not fit 64 bits. There is no negative
    integer zero. -/
def wholeNumber (negative : Bool) (significand : Nat) : Json :=
  if negative then
    if 0 < significand && significand ≤ maxNegative then .integer (-significand)
    else signed true significand.toUInt64.toFloat
  else .integer significand

/-- A number after its sign. -/
def number (negative : Bool) : Reader Json := do
  match ← next? with
  | none => failHere .endInValue
  | some c =>
    if !c.isDigit then failNext .invalidNumber
    else
      let digits ← if c = '0' then do skip; pure ['0'] else takeRun Char.isDigit
      let after ← next?
      if c = '0' && after.any Char.isDigit then failNext .invalidNumber
      else
        let (significand, excess) := appendDigits maxSignificand 0 digits
        match after with
        | some '.' => fractionPart negative significand excess.length
        | some 'e' | some 'E' => exponentPart negative significand excess.length
        | _ =>
          if excess.isEmpty then return wholeNumber negative significand
          else scaledNumber negative significand excess.length

/-! ## Strings -/

/-- What a backslash with the given character after it stands for. -/
def simpleEscape? : Char → Option Char
  | '"' => some '"'
  | '\\' => some '\\'
  | '/' => some '/'
  | 'b' => some '\x08'
  | 'f' => some '\x0c'
  | 'n' => some '\n'
  | 'r' => some '\r'
  | 't' => some '\t'
  | _ => none

/-- Reads the code at the front of `cs`, which begins at byte `offset`. Its digits are the next
    four bytes. -/
def code (offset : Nat) (cs : List Char) : Except Misread Nat :=
  let digits := cs.take 4
  if byteLength digits < 4 then .error ⟨.endInString, offset + byteLength digits⟩
  else
    match Hex.continue? 0 digits with
    | some n => .ok n
    | none => .error ⟨.invalidEscape, offset + 4⟩

/-- The rest of a string after its opening quote, where `cs` begins at byte `offset`. -/
def stringBody (offset : Nat) (cs : List Char) : Except Misread (List Char × Cursor) :=
  match cs with
  | [] => .error ⟨.endInString, offset⟩
  | '"' :: rest => .ok ([], ⟨offset + 1, rest⟩)
  | '\\' :: 'u' :: rest => do
    let high ← code (offset + 2) rest
    if 0xDC00 ≤ high && high < 0xE000 then throw ⟨.loneSurrogate, offset + 6⟩
    else if 0xD800 ≤ high && high < 0xDC00 then
      match _h : rest.drop 4 with
      | '\\' :: 'u' :: more => do
        let low ← code (offset + 8) more
        if 0xDC00 ≤ low && low < 0xE000 then
          let (contents, cursor) ← stringBody (offset + 12) (more.drop 4)
          return (Char.ofNat (0x10000 + (high - 0xD800) * 1024 + (low - 0xDC00)) :: contents,
            cursor)
        else throw ⟨.loneSurrogate, offset + 12⟩
      | [] => throw ⟨.endInString, offset + 6⟩
      | ['\\'] => throw ⟨.endInString, offset + 7⟩
      | '\\' :: _ => throw ⟨.unpairedSurrogate, offset + 8⟩
      | _ => throw ⟨.unpairedSurrogate, offset + 7⟩
    else
      let (contents, cursor) ← stringBody (offset + 6) (rest.drop 4)
      return (Char.ofNat high :: contents, cursor)
  | ['\\'] => throw ⟨.endInString, offset + 1⟩
  | '\\' :: c :: rest =>
    match simpleEscape? c with
    | some d => do
      let (contents, cursor) ← stringBody (offset + 2) rest
      return (d :: contents, cursor)
    | none => throw ⟨.invalidEscape, offset + 2⟩
  | c :: rest =>
    if c.toNat < 0x20 then throw ⟨.controlCharacter, offset + 1⟩
    else do
      let (contents, cursor) ← stringBody (offset + c.utf8Size) rest
      return (c :: contents, cursor)
termination_by cs.length
decreasing_by
  all_goals simp only [List.length_cons, List.length_drop]
  · have := congrArg List.length _h
    simp only [List.length_cons, List.length_drop] at this
    omega
  all_goals omega

/-- A string, at its opening quote. -/
def string : Reader String := do
  skip
  let cursor ← get
  let (contents, cursor) ← stringBody cursor.offset cursor.rest
  set cursor
  return String.ofList contents

/-! ## Values -/

/-- Has a step from `start` to `cursor` taken anything, without going past byte `size`? -/
def advances (size : Nat) (start cursor : Cursor) : Bool :=
  start.offset < cursor.offset && cursor.offset ≤ size

/-- The items of an array from the first one up to the closing bracket, in a text of `size`
    bytes. -/
def items (size : Nat) (item : Reader Json) : Reader (List Json) := fun start => do
  let (first, cursor) ← item start
  let (token?, cursor) ← nextToken? cursor
  match token? with
  | none => failNext .endInList cursor
  | some ']' => return ([first], (← skip cursor).2)
  | some ',' =>
    let (next?, cursor) ← (do skip; nextToken?) cursor
    match next? with
    | none => failNext .endInValue cursor
    | some ']' => failNext .trailingComma cursor
    | some _ =>
      -- every item takes at least one character
      if _h : advances size start cursor then do
        let (others, cursor) ← items size item cursor
        return (first :: others, cursor)
      else failNext .expectedValue cursor
  | some _ => failNext .expectedListEnd cursor
termination_by start => size - start.offset
decreasing_by
  simp only [advances, Bool.and_eq_true, decide_eq_true_eq] at _h
  omega

/-- A member of an object, at its key. -/
def member (value : Reader Json) : Reader (String × Json) := do
  if (← next?) != some '"' then failNext .keyNotString
  let key ← string
  match ← nextToken? with
  | none => failNext .endInObject
  | some ':' => do skip; return (key, ← value)
  | some _ => failNext .expectedColon

/-- The members of an object from the first one up to the closing brace, in a text of `size`
    bytes. -/
def members (size : Nat) (value : Reader Json) : Reader (List (String × Json)) := fun start => do
  let (first, cursor) ← member value start
  let (token?, cursor) ← nextToken? cursor
  match token? with
  | none => failNext .endInObject cursor
  | some '}' => return ([first], (← skip cursor).2)
  | some ',' =>
    let (next?, cursor) ← (do skip; nextToken?) cursor
    match next? with
    | none => failNext .endInValue cursor
    | some '}' => failNext .trailingComma cursor
    | some _ =>
      -- every member takes at least one character
      if _h : advances size start cursor then do
        let (others, cursor) ← members size value cursor
        return (first :: others, cursor)
      else failNext .keyNotString cursor
  | some _ => failNext .expectedObjectEnd cursor
termination_by start => size - start.offset
decreasing_by
  simp only [advances, Bool.and_eq_true, decide_eq_true_eq] at _h
  omega

/-- An array, at its opening bracket. -/
def array (size : Nat) (value : Reader Json) : Reader Json := do
  skip
  match ← nextToken? with
  | none => failNext .endInList
  | some ']' => do skip; return .array []
  | some _ => return .array (← items size value)

/-- An object, at its opening brace. -/
def object (size : Nat) (value : Reader Json) : Reader Json := do
  skip
  match ← nextToken? with
  | none => failNext .endInObject
  | some '}' => do skip; return ofMembers []
  | some _ => return ofMembers (← members size value)

/-- A value in which up to `levels` arrays and objects may be open at once, in a text of `size`
    bytes. -/
def value (size levels : Nat) : Reader Json := do
  match ← nextToken? with
  | none => failNext .endInValue
  | some c =>
    if c = 'n' then do skip; word ['u', 'l', 'l']; return .null
    else if c = 't' then do skip; word ['r', 'u', 'e']; return .boolean true
    else if c = 'f' then do skip; word ['a', 'l', 's', 'e']; return .boolean false
    else if c = '-' then do skip; number true
    else if c.isDigit then number false
    else if c = '"' then return .string (← string)
    else if c = '[' then
      match levels with
      | 0 => failNext .nestedTooDeep
      | levels + 1 => array size (value size levels)
    else if c = '{' then
      match levels with
      | 0 => failNext .nestedTooDeep
      | levels + 1 => object size (value size levels)
    else failNext .expectedValue

/-- How many arrays and objects may be open at once. -/
def nestingLimit : Nat := 127

/-- A value that makes up a whole text of `size` bytes. -/
def document (size : Nat) : Reader Json := do
  let json ← value size nestingLimit
  match ← nextToken? with
  | none => return json
  | some _ => failNext .trailingCharacters

end Reader

/-! ## Texts -/

/-- The line, counted from 1, and the bytes in front of byte `offset` on it. -/
def linePlace (text : List Char) (offset : Nat) : Nat × Nat :=
  let begun := (LineTable.ofText text).begun offset
  (begun.length, offset - (begun.getLastD ⟨0, []⟩).start)

/-- A fault in JSON text, with its line and the number of bytes in front of it on that line. -/
structure PlacedFault where
  fault : TextFault
  line : Nat
  column : Nat
  deriving Repr, DecidableEq

/-- The wording of a fault with its place. -/
def PlacedFault.message (fault : PlacedFault) : String :=
  s!"{fault.fault.message} at line {fault.line} column {fault.column}"

/-- Reads a JSON text. -/
def read (text : String) : Except PlacedFault Json :=
  let cs := text.toList
  match Reader.document (byteLength cs) ⟨0, cs⟩ with
  | .ok (json, _) => .ok json
  | .error misread =>
    let (line, column) := linePlace cs misread.offset
    .error ⟨misread.fault, line, column⟩

end SchemaModel.Json
