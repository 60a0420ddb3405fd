/-
# Sums of numbers given by their logarithms

Probabilities of large trees are kept as logarithms.  To add numbers that are given in this
way, all logarithms are first lowered by the greatest one: then no power is above one, the
greatest is one, and the sum neither overflows nor vanishes.

The computation is stated for any scale that has the operations it needs.  The floating-point
scales to the bases two and e are the ones that are run.
-/

namespace TreeGrammar

/-- The operations of logarithmic arithmetic on `V`. -/
structure LogScale (V : Type) where
  /-- The logarithm of zero. -/
  bottom : V
  /-- The number zero, with which sums begin. -/
  zero : V
  add : V → V → V
  sub : V → V → V
  max : V → V → V
  isInfinite : V → Bool
  /-- The power of the base with the given exponent. -/
  exp : V → V
  /-- The logarithm. -/
  log : V → V

/-- The logarithm of the sum of the numbers whose logarithms are given.  If the greatest of
the logarithms is infinite it is the answer. -/
def LogScale.sumExp {V : Type} (L : LogScale V) (xs : List V) : V :=
  let m := xs.foldl L.max L.bottom
  if L.isInfinite m then m
  else L.add m (L.log ((xs.map fun x => L.exp (L.sub x m)).foldl L.add L.zero))

/-- The greater of two numbers.  What is not a number is passed over. -/
def maxNumber (x y : Float) : Float :=
  if x.isNaN then y else if y.isNaN then x else if x < y then y else x

/-- A floating-point scale with the given power and logarithm. -/
def LogScale.ofFloat (exp log : Float → Float) : LogScale Float where
  bottom := -1 / 0
  zero := 0
  add := (· + ·)
  sub := (· - ·)
  max := maxNumber
  isInfinite := Float.isInf
  exp := exp
  log := log

/-- Logarithms to the base two. -/
def LogScale.base2 : LogScale Float := .ofFloat Float.exp2 Float.log2

/-- Natural logarithms. -/
def LogScale.natural : LogScale Float := .ofFloat Float.exp Float.log

end TreeGrammar
