/-
# Values in configuration files

Files and overrides give settings as values of a few kinds.  Tables are laid over one
another field by field: a field of the upper table hides that of the lower one, unless both
are tables, which are laid over one another in turn.  The names of fields are stored in
lower case.
-/
import TreeGrammar.Settings.Path
import TreeGrammar.Text.Lowercase

namespace TreeGrammar.Settings

/-- A value of a setting. -/
inductive Value where
  | nil
  | bool (b : Bool)
  | int (n : Int)
  | float (x : Float)
  | str (s : String)
  | array (xs : List Value)
  | table (fields : List (String × Value))

namespace Value

/-- The fields of a table; other values have none. -/
def fields : Value → List (String × Value)
  | table fs => fs
  | _ => []

/-- The field with a name. -/
def field? (v : Value) (name : String) : Option Value :=
  (v.fields.find? fun f => f.1 == name).map (·.2)

/-- The table with a field set.  What was no table becomes one. -/
def put (v : Value) (name : String) (x : Value) : Value :=
  if v.fields.any fun f => f.1 == name then
    table (v.fields.map fun f => if f.1 == name then (name, x) else f)
  else table (v.fields ++ [(name, x)])

mutual

/-- A value laid over what was there before, if anything was. -/
def layOn : Value → Option Value → Value
  | table fs, old => layFields fs (old.getD (table []))
  | v, _ => v

/-- Fields laid over a value, one after the other. -/
def layFields : List (String × Value) → Value → Value
  | [], old => old
  | (name, v) :: fs, old =>
    let name := lowercase name
    layFields fs (old.put name (layOn v (old.field? name)))

end

/-- The members of an array; other values have none. -/
def members : Value → List Value
  | array xs => xs
  | _ => []

/-- An array has fewer members than this. -/
def maxMembers : Nat := 4294967296

/-- The place in an array of `size` members that a number stands for: at or behind the end, or
counted from the end if the number is negative. -/
def place? (size : Nat) (n : Int) : Option Nat :=
  if n < 0 then if n.natAbs ≤ size then some (size - n.natAbs) else none
  else if n < maxMembers then some n.toNat
  else none

/-- Lays `v` over what the path leads to.  What is in the way of the path becomes a table or
an array, and an array is filled up with nil.  A member of an array is replaced as a whole.
There is no answer if a step leads to no place of an array. -/
def setAt (root : Value) (path : List Step) (v : Value) : Option Value :=
  match path with
  | [] => some root
  | [.field name] =>
    let name := lowercase name
    some (root.put name (layOn v (root.field? name)))
  | .field name :: step :: path => do
    let name := lowercase name
    some (root.put name (← ((root.field? name).getD nil).setAt (step :: path) v))
  | [.member n] => do
    let k ← place? root.members.length n
    some (array ((root.members.rightpad (k + 1) nil).set k v))
  | .member n :: step :: path => do
    let k ← place? root.members.length n
    let x ← (root.members.getD k nil).setAt (step :: path) v
    some (array ((root.members.rightpad (k + 1) nil).set k x))

end Value

end TreeGrammar.Settings
