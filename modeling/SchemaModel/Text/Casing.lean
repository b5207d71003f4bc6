import SchemaModel.Text.CasingTable

/-! # Letter Case

    * **upper** and **lower**: a character in upper or lower case. Some letters become two or
      three characters, and a character without a partner stays as it is.
-/

namespace SchemaModel.Casing

/-- The partner of a code according to a table of runs. -/
def partner? (runs : List Run) (code : Nat) : Option Nat :=
  (runs.find? fun run =>
    run.first ≤ code && code ≤ run.last && (code - run.first) % run.step == 0).map
      fun run => (Int.ofNat code + run.shift).toNat

/-- A character beyond ASCII in the case that two tables describe. -/
def convert (expansions : List (Nat × List Nat)) (runs : List Run)
    (c : Char) : List Char :=
  match expansions.lookup c.toNat with
  | some codes => codes.map Char.ofNat
  | none => [((partner? runs c.toNat).map Char.ofNat).getD c]

/-- A character in upper case. -/
def upper (c : Char) : List Char :=
  if c.toNat < 128 then [c.toUpper] else convert upperExpansions upperRuns c

/-- A character in lower case. -/
def lower (c : Char) : List Char :=
  if c.toNat < 128 then [c.toLower] else convert lowerExpansions lowerRuns c

end SchemaModel.Casing
