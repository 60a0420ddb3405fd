/-
# Text in a field of fixed width

A text that is shorter than its field is filled up with blanks; a longer one is left as it
is.
-/

namespace TreeGrammar

/-- Where a text stands in its field. -/
inductive Alignment where
  | left
  | right
  /-- In the middle; where the blanks cannot be halved the odd one goes to the right. -/
  | center
deriving DecidableEq

/-- The greatest width of a field. -/
def maxFieldWidth : Nat := 65535

/-- The text in a field of `width` characters. -/
def Alignment.pad (a : Alignment) (width : Nat) (s : String) : String :=
  let free := width - s.length
  let before := match a with
    | left => 0
    | right => free
    | center => free / 2
  "".pushn ' ' before ++ s ++ "".pushn ' ' (free - before)

/-- The first `width` characters of a text. -/
def truncate (width : Nat) (s : String) : String := String.ofList (s.toList.take width)

end TreeGrammar
