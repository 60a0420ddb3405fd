/-
# Paths to settings

A path leads from the table of all settings to one of them.  It begins with the name of a
field, and each further step goes to a field of a table, `.name`, or to a member of an array,
`[2]`.  Members are counted from 0, and from the end if the number is negative.
-/
import TreeGrammar.Decimal.Reading

namespace TreeGrammar.Settings

/-- A step of a path. -/
inductive Step where
  | field (name : String)
  | member (place : Int)
deriving DecidableEq

/-- Whether a character may stand in a name of a path. -/
def isNameChar (c : Char) : Bool := c.isAlphanum || c = '_' || c = ' ' || c = '-'

/-- Reads a name. -/
def readName? (cs : List Char) : Option (String × List Char) :=
  let (name, rest) := cs.span isNameChar
  if name.isEmpty then none else some (String.ofList name, rest)

/-- Reads the place of a member behind the bracket, in the range of 64-bit numbers.  Blanks
may stand around it. -/
def readPlace? (cs : List Char) : Option (Int × List Char) :=
  let skip (cs : List Char) : List Char := cs.dropWhile fun c => c = ' ' || c = '\t'
  let cs := skip cs
  let negative := cs.head? = some '-'
  let (digits, rest) := Decimal.spanDigits (if negative then cs.tail else cs)
  let n : Int := Decimal.digitsValue digits
  let n := if negative then -n else n
  match skip rest with
  | ']' :: rest =>
    if digits.isEmpty || n < -9223372036854775808 || 9223372036854775807 < n then none
    else some (n, rest)
  | _ => none

/-- Reads at most `n` further steps. -/
def readSteps? : (n : Nat) → List Char → Option (List Step)
  | _, [] => some []
  | 0, _ => none
  | n + 1, c :: cs =>
    if c = '.' then do
      let (name, cs) ← readName? cs
      some (.field name :: (← readSteps? n cs))
    else if c = '[' then do
      let (place, cs) ← readPlace? cs
      some (.member place :: (← readSteps? n cs))
    else none

/-- Reads a path. -/
def readPath? (s : String) : Option (List Step) := do
  let (name, cs) ← readName? s.toList
  some (.field name :: (← readSteps? cs.length cs))

end TreeGrammar.Settings
