import SchemaModel.Position
import SchemaModel.Text.Hex

/-! # String Literals

    What the two kinds of string literal stand for, given the characters between their quotes.

    * **Quoted strings** hold escapes: a backslash with a letter or mark, or with `u` and four
      hexadecimal digits. A character beyond the basic plane takes two such escapes, a high and a
      low surrogate.
    * **Block strings** are taken as they stand, less their common indentation and the blank lines
      at either end.
-/

namespace SchemaModel.Sdl

/-! ## Escapes -/

/-- Why a quoted string stands for nothing. -/
inductive EscapeFault where
  /-- There are not four characters after `\u`. -/
  | incompleteCode
  /-- The four characters after `\u` are no number. -/
  | invalidCode (digits : String)
  /-- A low surrogate stands alone. -/
  | loneSurrogate (code : Nat)
  /-- A high surrogate has no low one after it. -/
  | unpairedSurrogate
  | unknownEscape (c : Char)
  /-- A backslash stands at the end. -/
  | unterminatedEscape
  deriving Repr, DecidableEq

/-- The wording of an escape fault. -/
def EscapeFault.message : EscapeFault → String
  | .incompleteCode => "incomplete unicode escape"
  | .invalidCode digits => s!"invalid unicode escape `\\u{digits}`"
  | .loneSurrogate code => "invalid unicode escape `\\u" ++ String.ofList (Hex.quad code) ++ "`"
  | .unpairedSurrogate => "unpaired surrogate in unicode escape"
  | .unknownEscape c => s!"invalid escape sequence `\\{c}`"
  | .unterminatedEscape => "unterminated escape sequence"

/-- What a backslash with the given character after it stands for. -/
def simpleEscape? : Char → Option Char
  | '"' => some '"'
  | '\\' => some '\\'
  | '/' => some '/'
  | 'b' => some '\x08'
  | 'f' => some '\x0c'
  | 'n' => some '\n'
  | 'r' => some '\r'
  | 't' => some '\t'
  | _ => none

/-- The number that a character code is written as. A plus sign may stand in front of its
    digits. -/
def codeNumber? : List Char → Option Nat
  | '+' :: d :: ds => Hex.continue? 0 (d :: ds)
  | d :: ds => Hex.continue? 0 (d :: ds)
  | [] => none

/-- Reads the up to four characters of a code, which must fill four bytes. -/
def readCode (digits : List Char) : Except EscapeFault Nat :=
  if byteLength digits = 4 then
    match codeNumber? digits with
    | some code => .ok code
    | none => .error (.invalidCode (String.ofList digits))
  else .error .incompleteCode

/-- Is the code that of a high surrogate, the first half of a pair? -/
def isHighSurrogate (code : Nat) : Bool := 0xD800 ≤ code && code < 0xDC00

/-- Is the code that of a low surrogate, the second half of a pair? -/
def isLowSurrogate (code : Nat) : Bool := 0xDC00 ≤ code && code < 0xE000

/-- The character that a pair of surrogates stands for. -/
def surrogatePair (high low : Nat) : Char :=
  Char.ofNat (0x10000 + (high - 0xD800) * 1024 + (low - 0xDC00))

/-- What the characters between two quotes stand for. -/
def unquote : List Char → Except EscapeFault (List Char)
  | [] => .ok []
  | '\\' :: 'u' :: cs => do
    let code ← readCode (cs.take 4)
    if isHighSurrogate code then
      match _h : cs.drop 4 with
      | '\\' :: 'u' :: ds => do
        let low ← readCode (ds.take 4)
        if isLowSurrogate low then
          return surrogatePair code low :: (← unquote (ds.drop 4))
        else throw .unpairedSurrogate
      | _ => throw .unpairedSurrogate
    else if isLowSurrogate code then throw (.loneSurrogate code)
    else return Char.ofNat code :: (← unquote (cs.drop 4))
  | ['\\'] => throw .unterminatedEscape
  | '\\' :: c :: cs =>
    match simpleEscape? c with
    | some d => do return d :: (← unquote cs)
    | none => throw (.unknownEscape c)
  | c :: cs => do return c :: (← unquote cs)
termination_by cs => cs.length
decreasing_by
  all_goals simp only [List.length_cons, List.length_drop]
  · have := congrArg List.length _h
    simp only [List.length_cons, List.length_drop] at this
    omega
  all_goals omega

/-! ## Block Strings -/

/-- Three quotes inside a block string are written with a backslash in front of them. -/
def restoreQuotes : List Char → List Char
  | '\\' :: '"' :: '"' :: '"' :: cs => '"' :: '"' :: '"' :: restoreQuotes cs
  | c :: cs => c :: restoreQuotes cs
  | [] => []

/-- The lines of a text. A carriage return, a line feed, or both in this order, end a line. -/
def splitLines : List Char → List (List Char)
  | '\r' :: '\n' :: cs => [] :: splitLines cs
  | c :: cs =>
    if c = '\n' || c = '\r' then [] :: splitLines cs
    else (splitLines cs).modifyHead (c :: ·)
  | [] => [[]]

/-- Characters that indent a line. -/
def isIndent (c : Char) : Bool := c = ' ' || c = '\t'

/-- Does a line hold nothing but indentation? -/
def isBlankLine (line : List Char) : Bool := line.all isIndent

/-- The width of the indentation of a line. -/
def indentWidth (line : List Char) : Nat := (line.takeWhile isIndent).length

/-- The indentation that all lines but the first have in common. Blank lines do not count. -/
def commonIndent? (lines : List (List Char)) : Option Nat :=
  (((lines.drop 1).filter fun line => !isBlankLine line).map indentWidth).min?

/-- Takes the common indentation from every line but the first. -/
def dedent (lines : List (List Char)) : List (List Char) :=
  match commonIndent? lines with
  | some width => lines.take 1 ++ (lines.drop 1).map (List.drop width)
  | none => lines

/-- Drops the blank lines at either end. -/
def trimBlankLines (lines : List (List Char)) : List (List Char) :=
  ((lines.dropWhile isBlankLine).reverse.dropWhile isBlankLine).reverse

/-- What the characters between two triple quotes stand for. -/
def blockContents (raw : List Char) : List Char :=
  ['\n'].intercalate (trimBlankLines (dedent (splitLines (restoreQuotes raw))))

end SchemaModel.Sdl
