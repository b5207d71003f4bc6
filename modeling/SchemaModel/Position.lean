/-! # Source Positions

    Where things stand in a schema source:

    * **Span**: a half-open range of byte offsets in the UTF-8 form of a text.
    * **LineCol**: a line and a column, both counted from 1. Columns count characters, and only a
      line feed ends a line.
    * **LineTable**: the lines of a text with the offsets at which they begin, and the look-up that
      turns a byte offset into a line and a column.
    * **Origin**: where a declaration was read from, be it a position in schema definition text or
      a path inside an introspection document.
-/

namespace SchemaModel

/-- The number of bytes that the UTF-8 form of `cs` takes. -/
def byteLength : List Char → Nat
  | [] => 0
  | c :: cs => c.utf8Size + byteLength cs

@[simp] theorem byteLength_nil : byteLength [] = 0 := rfl

@[simp] theorem byteLength_cons (c : Char) (cs : List Char) :
    byteLength (c :: cs) = c.utf8Size + byteLength cs := rfl

@[simp] theorem byteLength_append (cs ds : List Char) :
    byteLength (cs ++ ds) = byteLength cs + byteLength ds := by
  induction cs with
  | nil => simp
  | cons c cs ih => simp [ih, Nat.add_assoc]

/-! ## Spans and Positions -/

/-- A range of bytes: `start` belongs to it and `stop` does not. -/
structure Span where
  start : Nat
  stop : Nat
  deriving Repr, DecidableEq, Inhabited

/-- The number of bytes in the span. -/
def Span.size (s : Span) : Nat := s.stop - s.start

/-- A line and a column, both counted from 1. -/
structure LineCol where
  line : Nat
  column : Nat
  deriving Repr, DecidableEq, Inhabited

/-! ## Line Tables -/

/-- A line of a text without the line feed behind it, and the byte offset at which it begins. -/
structure Line where
  start : Nat
  text : List Char
  deriving Repr, DecidableEq

/-- Puts a character in front of the first of a list of lines. -/
def extendFirst (offset : Nat) (c : Char) : List Line → List Line
  | [] => []
  | line :: lines => ⟨offset, c :: line.text⟩ :: lines

/-- The lines of a text that begins at `offset`. There is one more than there are line feeds. -/
def linesFrom (offset : Nat) : List Char → List Line
  | [] => [⟨offset, []⟩]
  | c :: cs =>
    let others := linesFrom (offset + c.utf8Size) cs
    if c = '\n' then ⟨offset, []⟩ :: others else extendFirst offset c others

/-- How many characters of `cs` fill exactly `bytes` bytes, if that many bytes end between two
    characters. -/
def charsWithin? : (bytes : Nat) → (cs : List Char) → Option Nat
  | 0, _ => some 0
  | _ + 1, [] => none
  | n + 1, c :: cs =>
    if c.utf8Size ≤ n + 1 then (charsWithin? (n + 1 - c.utf8Size) cs).map (· + 1) else none

/-- The lines of a text in their order, and the number of bytes in all of it. -/
structure LineTable where
  lines : List Line
  size : Nat
  deriving Repr, DecidableEq

namespace LineTable

/-- The table of a text. -/
def ofText (text : List Char) : LineTable :=
  ⟨linesFrom 0 text, byteLength text⟩

/-- The lines that begin at a byte offset or in front of it. -/
def begun (table : LineTable) (offset : Nat) : List Line :=
  table.lines.takeWhile (·.start ≤ offset)

/-- The position of a byte offset. An offset past the end counts as the end, and one inside a
    character counts as the first column of its line. -/
def position (table : LineTable) (offset : Nat) : LineCol :=
  let offset := min offset table.size
  let begun := table.begun offset
  let line := begun.getLastD ⟨0, []⟩
  ⟨begun.length, (charsWithin? (offset - line.start) line.text).getD 0 + 1⟩

end LineTable

/-! ## Origins -/

/-- The input that a finding is attributed to. -/
inductive SourceKind where
  /-- Schema definition text. -/
  | sdl
  /-- An introspection document. -/
  | introspection
  /-- The settings of the compilation, such as scalar overrides. -/
  | config
  deriving Repr, DecidableEq

/-- The name under which a kind of input is reported. -/
def SourceKind.text : SourceKind → String
  | .sdl => "SDL"
  | .introspection => "introspection"
  | .config => "config"

/-- Where a declaration, a field, an argument or an unsupported construct was read from. -/
inductive Origin where
  /-- A position in schema definition text. -/
  | sdl (position : LineCol)
  /-- A path inside an introspection document. -/
  | introspection (path : String)
  deriving Repr, DecidableEq, Inhabited

/-- The kind of input that an origin lies in. -/
def Origin.source : Origin → SourceKind
  | .sdl _ => .sdl
  | .introspection _ => .introspection

/-- The wording of an origin in messages. -/
def Origin.text : Origin → String
  | .sdl position => s!"line {position.line}, column {position.column}"
  | .introspection path => s!"JSON path `{path}`"

end SchemaModel
