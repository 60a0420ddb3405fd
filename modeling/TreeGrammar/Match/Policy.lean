/-
# Arity policies

A rule that is laid over a tree need not name every child of the tree's nodes.  The policy
says, slot by slot, how many children of the rule may face how many of the tree.
-/

namespace TreeGrammar

/-- How the numbers of children in a slot of a rule and of a tree have to agree. -/
inductive ArityPolicy where
  /-- The rule has all the children. -/
  | exact
  /-- The rule has the first few of them. -/
  | atMost
deriving DecidableEq

namespace ArityPolicy

/-- The policy that does or does not ask for all children. -/
def ofRequireAll (all : Bool) : ArityPolicy := if all then exact else atMost

/-- Whether the policy asks for all children. -/
def requiresAll : ArityPolicy → Bool
  | exact => true
  | atMost => false

/-- Whether `ruleCount` children in a slot of the rule may face `treeCount` of the tree. -/
def accepts : ArityPolicy → (ruleCount treeCount : Nat) → Bool
  | exact, ruleCount, treeCount => ruleCount == treeCount
  | atMost, ruleCount, treeCount => decide (ruleCount ≤ treeCount)

/-- No policy lets a rule have more children than the tree. -/
theorem le_of_accepts {policy : ArityPolicy} {ruleCount treeCount : Nat}
    (h : policy.accepts ruleCount treeCount = true) : ruleCount ≤ treeCount := by
  cases policy with
  | exact => exact Nat.le_of_eq (by simpa [accepts] using h)
  | atMost => simpa [accepts] using h

/-- The name of the policy. -/
def text : ArityPolicy → String
  | exact => "exact"
  | atMost => "partial"

end ArityPolicy

end TreeGrammar
