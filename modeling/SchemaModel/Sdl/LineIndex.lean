import SchemaModel.Sdl.ByteLexer

/-! # The Line Index

    The same positions, looked up among the bytes of a source.

    * **LineIndex**: a source with the byte offsets at which its lines begin.
    * **next?**: one more. Offsets, lines and columns are numbers of 32 bits, and the last of these has
      no next one.
    * **search**: a binary search for an offset. It comes upon the entry that is the offset, or upon the
      place at which the offset would have to be put in.
    * **position?**: the position of a byte offset. There is none if the search leads out of the index,
      or if the line or the column takes more than 32 bits. -/

namespace SchemaModel.Sdl

open ByteLexer (bytes positionLimit)

/-- A source with the offsets at which its lines begin. -/
structure LineIndex where
  source : String
  starts : Array Nat

namespace LineIndex

/-- One more than a number that is cut down to 32 bits, if that is one of 32 bits again. -/
def next? (n : Nat) : Option Nat :=
  let next := n % positionLimit + 1
  if next < positionLimit then some next else none

/-- The offsets of the line feeds among some bytes that begin at `start`. -/
def feeds (start : Nat) (bs : List Char) : List Nat :=
  (bs.zipIdx start).filterMap fun (b, offset) => if b = '\n' then some offset else none

/-- The index of a source. A line begins at the front and behind every line feed. -/
def ofSource? (source : String) : Option LineIndex := do
  let behind ← (feeds 0 (bytes source)).mapM next?
  return ⟨source, (0 :: behind).toArray⟩

/-- Halves a range of `size` entries until one is left. The upper half is kept unless it begins beyond
    the offset. -/
def narrow (starts : Array Nat) (offset base size : Nat) : Nat :=
  if size ≤ 1 then base
  else
    let half := size / 2
    let mid := base + half
    narrow starts offset (if starts[mid]?.any (offset < ·) then base else mid) (size - half)
termination_by size
decreasing_by omega

/-- The entry that is the offset, or else the place at which the offset would have to be put in. -/
def search (starts : Array Nat) (offset : Nat) : Except Nat Nat :=
  let base := narrow starts offset 0 starts.size
  match starts[base]? with
  | some start =>
    if start = offset then .ok base
    else .error (if start < offset then base + 1 else base)
  | none => .error base

/-- The line that an offset lies on, counted from 0: the one that begins there, or the one in front of
    the place at which the offset would have to be put in. -/
def lineAt? (starts : Array Nat) (offset : Nat) : Option Nat :=
  match search starts offset with
  | .ok line => some line
  | .error 0 => none
  | .error (next + 1) => some next

/-- The position of a byte offset. An offset past the end counts as the end, and one inside a
    character as the first column of its line. -/
def position? (index : LineIndex) (offset : Nat) : Option LineCol := do
  let offset := min offset (index.source.utf8ByteSize % positionLimit)
  let line ← lineAt? index.starts offset
  let start ← index.starts[line]?
  let column := ((slice? index.source start offset).map List.length).getD 0
  return ⟨← next? line, ← next? column⟩

end LineIndex

end SchemaModel.Sdl
