/-
# Sets of characters

A large set of characters is written down as the ascending list of the code points at which
one passes into the set or out of it, beginning outside.
-/

namespace TreeGrammar

/-- Whether a character is in the set whose borders are at the given code points. -/
def inRuns (borders : List Nat) (c : Char) : Bool := borders.countP (· ≤ c.toNat) % 2 == 1

end TreeGrammar
