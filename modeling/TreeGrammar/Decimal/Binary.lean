/-
# Floating-point numbers as exact fractions

A finite binary floating-point number is a whole number times a power of two.  `Binary.ofFloat`
reads sign, whole number and exponent off the 64 bits of the number.
-/

namespace TreeGrammar.Decimal

/-- What the 64 bits of a floating-point number say. -/
inductive Binary where
  | nan
  | infinity (negative : Bool)
  /-- The number `mantissa * 2 ^ exponent`, with a sign. -/
  | finite (negative : Bool) (mantissa : Nat) (exponent : Int)
deriving DecidableEq

/-- Reads the bits: one of sign, eleven of exponent, fifty-two of fraction. -/
def Binary.ofFloat (x : Float) : Binary :=
  let bits := x.toBits.toNat
  let negative := bits / Nat.pow 2 63 == 1
  let exponent : Nat := bits / Nat.pow 2 52 % Nat.pow 2 11
  let fraction : Nat := bits % Nat.pow 2 52
  if exponent == 2047 then
    if fraction == 0 then .infinity negative else .nan
  else if exponent == 0 then .finite negative fraction (-1074)
  else .finite negative (Nat.pow 2 52 + fraction) ((exponent : Int) - 1075)

/-- The quotient of two whole numbers, rounded to the nearest; a half goes to the even
neighbour. -/
def roundDiv (n d : Nat) : Nat :=
  let q := n / d
  let r := n % d
  if 2 * r < d then q
  else if 2 * r > d then q + 1
  else q + q % 2

end TreeGrammar.Decimal
