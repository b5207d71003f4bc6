/-! # Shortest Decimals

    The fewest decimal digits that still name one double-precision number and no other.

    * **Binary**: a positive double as `mantissa * 2 ^ exponent`. All numbers that round to it
      fill an interval, whose ends lie halfway to the neighbours and belong to it if the mantissa
      is even.
    * **Scientific**: digits and an exponent of ten.
    * **shortest**: for 1, 2, … 17 digits, the two decimals next to the number are tested against
      the interval. The first length with a hit wins. Of two hits the nearer one does, and of two
      equally near ones the even one.
-/

namespace SchemaModel.Decimal

/-- A positive number `mantissa * 2 ^ exponent`. Just above a power of two, the neighbour below
    is only half as far away as the one above. -/
structure Binary where
  mantissa : Nat
  exponent : Int
  narrowBelow : Bool
  deriving Repr, DecidableEq

/-- The number of values that the fraction of a double can have: it has 52 bits. -/
def fractionSize : Nat := 0x10000000000000

/-- The number of values that the exponent of a double can have: it has 11 bits. -/
def exponentSize : Nat := 0x800

/-- The first of the bits that stand for a negative double. -/
def signBit : Nat := 0x8000000000000000

/-- The magnitude of the double with the given bits, unless it is zero. The number has to be
    finite. -/
def Binary.ofBits? (bits : UInt64) : Option Binary :=
  let fraction := bits.toNat % fractionSize
  let field := bits.toNat / fractionSize % exponentSize
  if field = 0 then
    if fraction = 0 then none else some ⟨fraction, -1074, false⟩
  else some ⟨fractionSize + fraction, Int.ofNat field - 1075, fraction = 0 && field ≠ 1⟩

/-- A number `digits * 10 ^ exponent`. -/
structure Scientific where
  digits : Nat
  exponent : Int
  deriving Repr, DecidableEq

/-- The power of a base, as a numerator and a denominator. -/
def power (base : Nat) (exponent : Int) : Nat × Nat :=
  (base.pow exponent.toNat, base.pow (-exponent).toNat)

/-- Compares `a * 10 ^ i` with `b * 2 ^ j`. -/
def compareScaled (a : Nat) (i : Int) (b : Nat) (j : Int) : Ordering :=
  let (tenUp, tenDown) := power 10 i
  let (twoUp, twoDown) := power 2 j
  compare (a * tenUp * twoDown) (b * twoUp * tenDown)

namespace Binary

/-- Does the decimal lie among the numbers that round to `x`? -/
def contains (x : Binary) (d : Scientific) : Bool :=
  let low := 4 * x.mantissa - (if x.narrowBelow then 1 else 2)
  let aboveLow := compareScaled d.digits d.exponent low (x.exponent - 2)
  let belowHigh := compareScaled d.digits d.exponent (4 * x.mantissa + 2) (x.exponent - 2)
  let even := x.mantissa % 2 == 0
  (aboveLow = .gt || (even && aboveLow = .eq)) && (belowHigh = .lt || (even && belowHigh = .eq))

/-- The exponent of ten of the leading digit of `x`. -/
def leadingExponent (x : Binary) : Int :=
  let (up, down) := power 2 x.exponent
  let whole := x.mantissa * up / down
  if whole = 0 then
    -- the first power of ten that brings the number up to 1 or more
    let places := (Nat.toDigits 10 (down / (x.mantissa * up))).length - 1
    if down ≤ x.mantissa * up * Nat.pow 10 places then -(places : Int) else -(places : Int) - 1
  else (Nat.toDigits 10 whole).length - 1

/-- The largest multiple of `10 ^ exponent` that is not above `x`. -/
def floorAt (x : Binary) (exponent : Int) : Nat :=
  let (twoUp, twoDown) := power 2 x.exponent
  let (tenUp, tenDown) := power 10 exponent
  x.mantissa * twoUp * tenDown / (twoDown * tenUp)

/-- Of two neighbouring decimals around `x`, the nearer one, or the even one of two equally near
    ones. Twice `x` is compared with their sum. -/
def nearer (x : Binary) (below above : Scientific) : Scientific :=
  match compareScaled (below.digits + above.digits) below.exponent x.mantissa (x.exponent + 1) with
  | .lt => above
  | .gt => below
  | .eq => if below.digits % 2 = 0 then below else above

/-- The decimal of the given length that names `x`, if there is one. -/
def withDigits? (x : Binary) (length : Nat) : Option Scientific :=
  let exponent := x.leadingExponent - length + 1
  let floor := x.floorAt exponent
  let below : Scientific := ⟨floor, exponent⟩
  let above : Scientific := ⟨floor + 1, exponent⟩
  match x.contains below, x.contains above with
  | true, true => some (x.nearer below above)
  | true, false => some below
  | false, true => some above
  | false, false => none

/-- The shortest decimal that names `x`. Seventeen digits are always enough. -/
def shortest (x : Binary) : Scientific :=
  (((List.range 16).map (· + 1)).findSome? x.withDigits?).getD
    ((x.withDigits? 17).getD ⟨0, 0⟩)

end Binary

/-! ## Text -/

/-- Drops the zeros at the end of a run of digits. -/
def dropTrailingZeros (digits : List Char) : List Char :=
  (digits.reverse.dropWhile (· = '0')).reverse

/-- The exponents of the leading digit at which a number is written out without a power of ten. -/
def isWrittenOut (exponent : Int) : Bool := -5 ≤ exponent && exponent ≤ 15

/-- The digits of a number with its point or its power of ten. Digits are given without trailing
    zeros, and `exponent` is that of the leading one. -/
def layout (digits : List Char) (exponent : Int) : List Char :=
  if isWrittenOut exponent then
    if exponent < 0 then
      ['0', '.'] ++ List.replicate (-exponent - 1).toNat '0' ++ digits
    else
      let whole := exponent.toNat + 1
      let fraction := digits.drop whole
      (digits.take whole).rightpad whole '0' ++ ['.'] ++
        (if fraction.isEmpty then ['0'] else fraction)
  else
    let tail := digits.drop 1
    let sign := if exponent < 0 then '-' else '+'
    digits.take 1 ++ (if tail.isEmpty then [] else '.' :: tail) ++ ['e', sign] ++
      Nat.toDigits 10 exponent.natAbs

/-- The text of a positive number. -/
def Binary.text (x : Binary) : List Char :=
  let decimal := x.shortest
  let digits := Nat.toDigits 10 decimal.digits
  layout (dropTrailingZeros digits) (decimal.exponent + digits.length - 1)

/-- The text of a finite double: its shortest digits, with a point among those that are written
    out. -/
def floatText (value : Float) : String :=
  let bits := value.toBits
  let magnitude := ((Binary.ofBits? bits).map Binary.text).getD ['0', '.', '0']
  String.ofList (if bits.toNat < signBit then magnitude else '-' :: magnitude)

end SchemaModel.Decimal
