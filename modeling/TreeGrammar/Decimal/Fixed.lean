/-
# Numbers with a fixed number of decimals

A floating-point number is written in positional notation with a given number of decimals,
rounded to the nearest from its exact value, a half to the even neighbour.
-/
import TreeGrammar.Decimal.Binary

namespace TreeGrammar.Decimal

/-- A whole number of units of `10 ^ -places`, with the point put in. -/
def placePoint (places n : Nat) : String :=
  let unit := Nat.pow 10 places
  let whole := toString (n / unit)
  if places = 0 then whole
  else
    let rest := toString (n % unit)
    whole ++ "." ++ "".pushn '0' (places - rest.length) ++ rest

/-- The number with `places` decimals.  What rounds to zero is written without a sign. -/
def fixed (places : Nat) (x : Float) : String :=
  match Binary.ofFloat x with
  | .nan => "nan"
  | .infinity negative => if negative then "-inf" else "inf"
  | .finite negative m e =>
    let n := roundDiv (m * Nat.pow 2 e.toNat * Nat.pow 10 places) (Nat.pow 2 (-e).toNat)
    (if negative && n != 0 then "-" else "") ++ placePoint places n

end TreeGrammar.Decimal
