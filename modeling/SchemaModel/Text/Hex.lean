/-! # Hexadecimal Digits

    Numbers and hexadecimal digits, for escapes that name a character by its code:

    * **Reading** takes digits of either case.
    * **Writing** gives four upper-case digits, or as few lower-case digits as the number needs.
-/

namespace SchemaModel.Hex

/-- The value of a hexadecimal digit of either case. -/
def digit? (c : Char) : Option Nat :=
  if '0' ≤ c ∧ c ≤ '9' then some (c.toNat - '0'.toNat)
  else if 'a' ≤ c ∧ c ≤ 'f' then some (c.toNat - 'a'.toNat + 10)
  else if 'A' ≤ c ∧ c ≤ 'F' then some (c.toNat - 'A'.toNat + 10)
  else none

/-- The number that a run of digits stands for, read on from the number `high` before it. -/
def continue? (high : Nat) : List Char → Option Nat
  | [] => some high
  | c :: cs => (digit? c).bind fun d => continue? (high * 16 + d) cs

/-- The upper-case digit of a number below 16. -/
def upperDigit (n : Nat) : Char :=
  if n < 10 then Char.ofNat ('0'.toNat + n) else Char.ofNat ('A'.toNat + (n - 10))

/-- The four upper-case digits of a number below 65536. -/
def quad (n : Nat) : List Char :=
  [n / 4096 % 16, n / 256 % 16, n / 16 % 16, n % 16].map upperDigit

/-- As few lower-case digits as `n` needs. -/
def lower (n : Nat) : List Char :=
  Nat.toDigits 16 n

end SchemaModel.Hex
