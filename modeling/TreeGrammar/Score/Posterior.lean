/-
# Ready-made weights for rules

Weights that a scorer may use in place of shares: constant, in proportion to the size of the
rule, by the tag of its root, or listed rule by rule.
-/
import TreeGrammar.Score.Weighting
import TreeGrammar.Symbol
import TreeGrammar.Tree.Equality

namespace TreeGrammar

/-- A way to weigh rules, in base-two logarithms. -/
inductive Posterior where
  /-- The same weight for every rule. -/
  | constant (x : Float)
  /-- A weight for each node. -/
  | perNode (x : Float)
  /-- A weight for each leaf. -/
  | perLeaf (x : Float)
  /-- The weight whose place in the list is the tag of the root, or the place in the list
  that is nearest to it. -/
  | byRootTag (xs : List Float)
  /-- The weight of the first equal tree in the list, or else `default`. -/
  | listed (rules : List (Tree Symbol × Float)) (default : Float)

/-- The weight of a rule.  An empty list of weights by tag gives none. -/
def Posterior.weight? : Posterior → Tree Symbol → Option Float
  | constant x, _ => some x
  | perNode x, t => some (x * countToFloat t.size)
  | perLeaf x, t => some (x * countToFloat (t.leafCount Tree.root))
  | byRootTag xs, t => xs[min t.rootLabel.tag.toNat (xs.length - 1)]?
  | listed rules default, t =>
    some (((rules.find? fun r => r.1 == t).map (·.2)).getD default)

end TreeGrammar
