import SchemaModel.Sdl.Fault
import SchemaModel.Sdl.Lexer

/-! # Parsers over Tokens

    A parser takes tokens from the front of a feed and either answers or stops at a fault. There
    is no way back: the first fault ends the parse.

    * **ParserState**: the tokens that are left, the policy, and what has been skipped so far.
    * **advance**: steps over a token. A malformed lexeme is a fault as soon as it comes next.
    * **meet**: an unsupported construct is skipped, or it ends the parse, as the policy asks.
    * **repeatWhile**: the one loop, from which lists in brackets and lists with separators are
      built.
-/

namespace SchemaModel.Sdl

/-- What a parser works on. -/
structure ParserState where
  tokens : List Token
  ending : Ending
  /-- What happens to unsupported constructs. -/
  policy : Policy
  /-- The unsupported constructs that were skipped, in the order in which they were read. -/
  skipped : List Usage
  /-- The operations that have a root type. -/
  operations : List RootOperation
  /-- Has a schema block been read? -/
  schemaSeen : Bool
  deriving Repr, DecidableEq

/-- A step that takes tokens and gives a result, or stops at a fault. -/
abbrev Parser := EStateM SourceFault ParserState

/-- The state in which a parse begins. -/
def ParserState.start (policy : Policy) (feed : Feed) : ParserState :=
  ⟨feed.tokens, feed.ending, policy, [], [], false⟩

/-- The kind of the next token. There is none at the end of the input. -/
def ParserState.kind? (s : ParserState) : Option TokenKind :=
  s.tokens.head?.map Token.kind

/-- Is the given punctuator next? -/
def ParserState.isAt (s : ParserState) (mark : Punctuator) : Bool :=
  s.kind? == some (.punctuator mark)

/-- The bytes of the next token, or those of the end of the input. -/
def ParserState.span (s : ParserState) : Span :=
  (s.tokens.head?.map Token.span).getD s.ending.span

namespace Parser

variable {α : Type}

/-! ## Single Steps -/

/-- Stops at the given bytes. -/
def failAt (span : Span) (fault : GrammarFault) : Parser α :=
  throw ⟨fault, span⟩

/-- Stops at the next token. -/
def fail (fault : GrammarFault) : Parser α := do
  failAt (← get).span fault

/-- Stops at the next token, in whose place something else is expected. -/
def unexpected (expected : Expected) : Parser α := do
  fail (.unexpected expected ((← get).tokens.head?.map Token.text))

/-- Stops if a malformed lexeme is next. -/
def checkNext : Parser Unit := do
  let s ← get
  match s.tokens, s.ending.fault with
  | [], some fault => failAt s.ending.span (.lexical fault)
  | _, _ => return ()

/-- Steps over the next token. -/
def advance : Parser Unit := do
  modify fun s => { s with tokens := s.tokens.tail }
  checkNext

/-- The kind of the next token. -/
def nextKind : Parser (Option TokenKind) := return (← get).kind?

/-- The byte offset of the next token. -/
def nextOffset : Parser Nat := return (← get).span.start

/-- Steps over a token of the given kind, if one is next. -/
def eat (kind : TokenKind) : Parser Bool := do
  if (← nextKind) == some kind then
    advance
    return true
  else return false

/-- Steps over a given punctuator, if it is next. -/
def eatMark (mark : Punctuator) : Parser Bool := eat (.punctuator mark)

/-- Steps over a token of the given kind, which must be next. -/
def expect (kind : TokenKind) : Parser Unit := do
  if (← nextKind) == some kind then advance else unexpected (.token kind)

/-- Steps over a given punctuator, which must be next. -/
def expectMark (mark : Punctuator) : Parser Unit := expect (.punctuator mark)

/-- Steps over a name. Keywords are names. -/
def name : Parser Name := do
  match (← get).tokens with
  | token :: _ =>
    if token.kind.isName then
      advance
      return ⟨token.text, token.span.start⟩
    else unexpected .name
  | [] => unexpected .name

/-- Skips an unsupported construct, or refuses it. -/
def meet (usage : Usage) : Parser Unit := do
  match (← get).policy with
  | .skip => modify fun s => { s with skipped := s.skipped ++ [usage] }
  | .reject => fail (.refused usage)

/-! ## Repetition -/

/-- Runs `item` as long as `more` holds, and gives all results. Every run of `item` has to take a
    token, or the loop ends there. -/
def repeatWhile (more : ParserState → Bool) (item : Parser α) : Parser (List α) := fun s =>
  if more s then
    match item s with
    | .ok first t =>
      if t.tokens.length < s.tokens.length then
        match repeatWhile more item t with
        | .ok others u => .ok (first :: others) u
        | .error fault u => .error fault u
      else .ok [first] t
    | .error fault t => .error fault t
  else .ok [] s
termination_by s => s.tokens.length

/-- Items up to a closing punctuator, which is stepped over. -/
def itemsUntil (close : Punctuator) (item : Parser α) : Parser (List α) := do
  let items ← repeatWhile (fun s => !s.isAt close) item
  advance
  return items

/-- One or more items with a punctuator between them. -/
def separatedBy (mark : Punctuator) (item : Parser α) : Parser (List α) := do
  let first ← item
  let others ← repeatWhile (·.isAt mark) (do advance; item)
  return first :: others

/-- Items between two punctuators. There are none if the opening one is missing. -/
def optionalItems (openMark closeMark : Punctuator) (item : Parser α) : Parser (List α) := do
  if ← eatMark openMark then itemsUntil closeMark item else return []

end Parser

end SchemaModel.Sdl
