/-
# Reading decimal numbers

A decimal number is a sign, digits, digits after a point and a power of ten, all but the
first digits being optional.  It is read as the nearest floating-point number.
-/

namespace TreeGrammar.Decimal

/-- The value of a run of decimal digits. -/
def digitsValue (cs : List Char) : Nat :=
  cs.foldl (fun n c => 10 * n + (c.toNat - '0'.toNat)) 0

/-- The digits at the start of a text, and the rest of it. -/
def spanDigits (cs : List Char) : List Char × List Char := cs.span Char.isDigit

/-- A sign at the start of a text: whether it is a minus, and the rest of the text. -/
def splitSign : List Char → Bool × List Char
  | '-' :: cs => (true, cs)
  | '+' :: cs => (false, cs)
  | cs => (false, cs)

/-- The floating-point number nearest to `m * 10 ^ e`.  Far beyond the range of such numbers
it is infinity or zero, and the power is not computed. -/
def nearest (m : Nat) (e : Int) : Float :=
  let places : Int := (toString m).length
  if m = 0 then 0
  else if places + e > 400 then 1 / 0
  else if places + e < -400 then 0
  else Float.ofScientific m (decide (e < 0)) e.natAbs

/-- Reads a power of ten, `e-12`, or nothing. -/
def readExponent? : List Char → Option Int
  | [] => some 0
  | c :: cs =>
    if c = 'e' || c = 'E' then
      let (negative, cs) := splitSign cs
      let (digits, rest) := spanDigits cs
      if digits.isEmpty || !rest.isEmpty then none
      else some (if negative then -(digitsValue digits : Int) else digitsValue digits)
    else none

/-- Reads a decimal number. -/
def read? (s : String) : Option Float :=
  let (negative, cs) := splitSign s.toList
  let (whole, cs) := spanDigits cs
  let (parts, cs) := match cs with
    | '.' :: cs => spanDigits cs
    | cs => ([], cs)
  if whole.isEmpty then none
  else
    (readExponent? cs).map fun e =>
      let x := nearest (digitsValue (whole ++ parts)) (e - parts.length)
      if negative then -x else x

end TreeGrammar.Decimal
