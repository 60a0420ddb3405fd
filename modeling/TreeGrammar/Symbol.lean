/-
# Grammar symbols

A symbol is a name with a tag.  Which symbols stand for one another is up to the user of a
grammar, who chooses a `Comparison`; some of them look at the name alone, and some are not
symmetric.
-/

namespace TreeGrammar

/-- A name with a tag; the tag of a plain symbol is 0. -/
structure Symbol where
  name : String
  tag : Int
deriving DecidableEq, Hashable

/-- The name, followed by `#` and the tag unless the tag is 0. -/
def Symbol.text (a : Symbol) : String :=
  if a.tag = 0 then a.name else a.name ++ "#" ++ toString a.tag

/-- A way to compare symbols, the first one being that of the rule or of the stored key. -/
inductive Comparison where
  /-- The same symbol. -/
  | identical
  /-- The same name, with any tag. -/
  | sameName
  /-- The same name up to the case of ASCII letters, with any tag. -/
  | sameNameAnyCase
  /-- The second name begins with the first. -/
  | extendsName
  /-- The same name, the first tag being at most the second. -/
  | tagAtMost
  /-- Every two symbols. -/
  | always
  /-- No two symbols. -/
  | never
deriving DecidableEq

/-- Whether the comparison accepts `a` and `b`, in this order. -/
def Comparison.accepts : Comparison → Symbol → Symbol → Bool
  | identical, a, b => a == b
  | sameName, a, b => a.name == b.name
  | sameNameAnyCase, a, b => a.name.map Char.toLower == b.name.map Char.toLower
  | extendsName, a, b => a.name.toList.isPrefixOf b.name.toList
  | tagAtMost, a, b => a.name == b.name && decide (a.tag ≤ b.tag)
  | always, _, _ => true
  | never, _, _ => false

end TreeGrammar
