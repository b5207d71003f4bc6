import SchemaModel.Position

/-! # Tokens of Schema Definition Text

    * **Keyword**: words with a meaning in some places. Each of them is a name everywhere else.
    * **Punctuator**: the single characters with a meaning of their own.
    * **Token**: a lexeme with its kind, the bytes that it spans and its text.
    * **LexicalFault**: why a lexeme is no token.
-/

namespace SchemaModel.Sdl

/-! ## Keywords and Punctuators -/

inductive Keyword where
  | type
  | interface
  | union
  | enum
  | input
  | scalar
  | schema
  | extend
  | implements
  | directive
  | repeatable
  | onLocation
  | query
  | mutation
  | subscription
  | trueValue
  | falseValue
  | nullValue
  deriving Repr, DecidableEq

/-- The spelling of a keyword. -/
def Keyword.text : Keyword → String
  | .type => "type"
  | .interface => "interface"
  | .union => "union"
  | .enum => "enum"
  | .input => "input"
  | .scalar => "scalar"
  | .schema => "schema"
  | .extend => "extend"
  | .implements => "implements"
  | .directive => "directive"
  | .repeatable => "repeatable"
  | .onLocation => "on"
  | .query => "query"
  | .mutation => "mutation"
  | .subscription => "subscription"
  | .trueValue => "true"
  | .falseValue => "false"
  | .nullValue => "null"

/-- Every keyword. -/
def Keyword.all : List Keyword :=
  [.type, .interface, .union, .enum, .input, .scalar, .schema, .extend, .implements, .directive,
   .repeatable, .onLocation, .query, .mutation, .subscription, .trueValue, .falseValue, .nullValue]

/-- The keyword with a given spelling. -/
def Keyword.ofText? (text : String) : Option Keyword :=
  Keyword.all.find? (·.text == text)

inductive Punctuator where
  | braceOpen
  | braceClose
  | parenOpen
  | parenClose
  | bracketOpen
  | bracketClose
  | colon
  | equals
  | pipe
  | ampersand
  | atSign
  | bang
  deriving Repr, DecidableEq

/-- The character of a punctuator. -/
def Punctuator.char : Punctuator → Char
  | .braceOpen => '{'
  | .braceClose => '}'
  | .parenOpen => '('
  | .parenClose => ')'
  | .bracketOpen => '['
  | .bracketClose => ']'
  | .colon => ':'
  | .equals => '='
  | .pipe => '|'
  | .ampersand => '&'
  | .atSign => '@'
  | .bang => '!'

/-- Every punctuator. -/
def Punctuator.all : List Punctuator :=
  [.braceOpen, .braceClose, .parenOpen, .parenClose, .bracketOpen, .bracketClose, .colon, .equals,
   .pipe, .ampersand, .atSign, .bang]

/-- The punctuator with a given character. -/
def Punctuator.ofChar? (c : Char) : Option Punctuator :=
  Punctuator.all.find? (·.char == c)

/-! ## Tokens -/

inductive TokenKind where
  | name
  | int
  | float
  | string
  | blockString
  | keyword (word : Keyword)
  | punctuator (mark : Punctuator)
  deriving Repr, DecidableEq

/-- The designation of a kind: the spelling of a keyword or punctuator, and a description in angle
    brackets of any other. -/
def TokenKind.text : TokenKind → String
  | .name => "<name>"
  | .int => "<int>"
  | .float => "<float>"
  | .string => "<string>"
  | .blockString => "<block-string>"
  | .keyword word => word.text
  | .punctuator mark => mark.char.toString

/-- Can a token of this kind stand where a name is expected? Keywords can. -/
def TokenKind.isName : TokenKind → Bool
  | .name | .keyword _ => true
  | _ => false

/-- A lexeme with its kind, the bytes that it spans and its text. -/
structure Token where
  kind : TokenKind
  span : Span
  text : String
  deriving Repr, DecidableEq

/-! ## Lexical Faults -/

/-- Why a lexeme is no token. -/
inductive LexicalFault where
  | unexpectedCharacter (c : Char)
  /-- A number has a digit after a leading zero. -/
  | leadingZero
  /-- A minus sign has no digit after it. -/
  | missingDigit
  /-- A decimal point has no digit after it. -/
  | missingFraction
  /-- The mark of an exponent has no digit after it. -/
  | missingExponent
  /-- A number runs on into a point, an underscore or a letter. -/
  | numberRunsOn
  | unterminatedString
  | unterminatedBlockString
  deriving Repr, DecidableEq

/-- The wording of a lexical fault. -/
def LexicalFault.message : LexicalFault → String
  | .unexpectedCharacter c => s!"unexpected character `{c}`"
  | .leadingZero => "numbers must not have leading zeros"
  | .missingDigit => "expected digit"
  | .missingFraction => "expected digit after `.`"
  | .missingExponent => "expected digit in exponent"
  | .numberRunsOn => "invalid number"
  | .unterminatedString => "unterminated string"
  | .unterminatedBlockString => "unterminated block string"

end SchemaModel.Sdl
