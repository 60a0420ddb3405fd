/-
# The shortest decimal that reads back

A floating-point number stands for an interval of numbers that are all read as it.  The
shortest decimal in this interval, and of several such the nearest to the number, is the one
that is written.

For one digit, two digits and so on, the multiples of a power of ten next to the number, one
below and one above, are tried; the first grid with a hit ends the search.
-/
import TreeGrammar.Decimal.Binary

namespace TreeGrammar.Decimal

/-- The numbers that are read as one floating-point number, as fractions with a common
denominator. -/
structure Interval where
  /-- The number itself. -/
  center : Nat
  low : Nat
  high : Nat
  denominator : Nat
  /-- Whether the ends belong to the interval. -/
  closed : Bool

/-- The interval of `mantissa * 2 ^ exponent`.  Below a power of two floating-point numbers
are twice as dense as above it. -/
def Interval.of (mantissa : Nat) (exponent : Int) : Interval :=
  let dense := mantissa = Nat.pow 2 52 ∧ -1074 < exponent
  let scale := Nat.pow 2 (exponent - 2).toNat
  { center := 4 * mantissa * scale
    low := (4 * mantissa - if dense then 1 else 2) * scale
    high := (4 * mantissa + 2) * scale
    denominator := Nat.pow 2 (2 - exponent).toNat
    closed := mantissa % 2 == 0 }

/-- Whether `digits * 10 ^ place` is in the interval. -/
def Interval.holds (i : Interval) (digits : Nat) (place : Int) : Bool :=
  let x := digits * Nat.pow 10 place.toNat * i.denominator
  let unit := Nat.pow 10 (-place).toNat
  if i.closed then decide (i.low * unit ≤ x) && decide (x ≤ i.high * unit)
  else decide (i.low * unit < x) && decide (x < i.high * unit)

/-- The multiple of `10 ^ place` in the interval that is nearest to the number; of two that
are equally near, the greater. -/
def Interval.onGrid? (i : Interval) (place : Int) : Option Nat :=
  let unit := Nat.pow 10 place.toNat * i.denominator
  let x := i.center * Nat.pow 10 (-place).toNat
  let below := x / unit
  match i.holds below place, i.holds (below + 1) place with
  | true, true => some (if 2 * (x % unit) < unit then below else below + 1)
  | true, false => some below
  | false, true => some (below + 1)
  | false, false => none

/-- The power of ten of the leading digit of the number. -/
def Interval.magnitude (i : Interval) : Int :=
  ((toString (i.center * Nat.pow 10 400 / i.denominator)).length : Int) - 401

/-- Digits and a power of ten: the hit on the coarsest grid that has one, from `place`
downwards. -/
def Interval.search (i : Interval) : Nat → Int → Nat × Int
  | 0, place =>
    let unit := Nat.pow 10 place.toNat * i.denominator
    (i.center * Nat.pow 10 (-place).toNat / unit, place)
  | n + 1, place =>
    match i.onGrid? place with
    | some d => if d % 10 = 0 then (d / 10, place + 1) else (d, place)
    | none => i.search n (place - 1)

/-- The number `digits * 10 ^ place` in positional notation, with at least one decimal. -/
def positional (digits : Nat) (place : Int) : String :=
  let text := toString digits
  if 0 ≤ place then text ++ "".pushn '0' place.toNat ++ ".0"
  else
    let decimals := (-place).toNat
    let padded := "".pushn '0' (decimals + 1 - text.length) ++ text
    let cs := padded.toList
    String.ofList (cs.take (cs.length - decimals)) ++ "." ++
      String.ofList (cs.drop (cs.length - decimals))

/-- The shortest decimal that is read as the number. -/
def shortest (x : Float) : String :=
  match Binary.ofFloat x with
  | .nan => "NaN"
  | .infinity negative => if negative then "-inf" else "inf"
  | .finite negative m e =>
    let sign := if negative then "-" else ""
    if m = 0 then sign ++ "0.0"
    else
      let i := Interval.of m e
      let (digits, place) := i.search 17 i.magnitude
      sign ++ positional digits place

end TreeGrammar.Decimal
