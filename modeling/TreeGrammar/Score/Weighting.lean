/-
# Weights of derivations

Scores are computed with weights of any kind that can be multiplied along a derivation and
summed over alternatives.  Base-two logarithms in floating point are the kind that is run.
-/
import TreeGrammar.Score.LogScale

namespace TreeGrammar

/-- The operations on weights. -/
structure Weighting (W : Type) where
  /-- The weight of what is certain. -/
  one : W
  /-- The weight of two things together. -/
  mul : W → W → W
  /-- The weight of `n` occurrences out of `total`. -/
  share : (n total : Nat) → W
  /-- The weight of either of several alternatives. -/
  sum : List W → W

/-- Weights that may be undefined.  What comes of an undefined weight is undefined. -/
def Weighting.orUndefined {W : Type} (w : Weighting W) : Weighting (Option W) where
  one := some w.one
  mul x? y? := do return w.mul (← x?) (← y?)
  share n total := some (w.share n total)
  sum xs? := (xs?.mapM id).map w.sum

/-- The whole number as a floating-point number, rounded to the nearest. -/
def countToFloat (n : Nat) : Float := Float.ofScientific n false 0

/-- Weights as base-two logarithms. -/
def Weighting.log2 : Weighting Float where
  one := 0
  mul := (· + ·)
  share n total := (countToFloat n).log2 - (countToFloat total).log2
  sum := LogScale.base2.sumExp

end TreeGrammar
