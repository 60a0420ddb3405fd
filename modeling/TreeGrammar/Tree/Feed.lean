/-
# The tokens a tree feeds to a digest

A tree is written as a sequence of tokens, in preorder: the label of a node, the number of
its slots up to the last one that holds a child, and how many children each of those holds.
Empty slots at the end of a node are left out, because equality of trees does not see them.
-/
import TreeGrammar.Tree.Equality

namespace TreeGrammar

/-- A label, or a number of slots or children. -/
inductive Token (α : Type) where
  | label (a : α)
  | count (n : Nat)
deriving BEq, DecidableEq, Hashable

/-- The list without the empty members at its end. -/
def dropTrailingEmpty {β : Type} (xs : List (List β)) : List (List β) :=
  (xs.reverse.dropWhile List.isEmpty).reverse

namespace Tree

variable {α : Type}

/-- The tokens of a single node. -/
def nodeFeed (t : Tree α) (v : Nat) : List (Token α) :=
  let used := dropTrailingEmpty (t.slots v)
  .label (t.label v) :: .count used.length :: used.map fun cs => .count cs.length

/-- The tokens of a tree. -/
def feed (t : Tree α) : List (Token α) := t.plan.flatMap t.nodeFeed

/-- Whether two trees feed the same tokens. -/
def sameFeed [BEq α] (t u : Tree α) : Bool := t.feed == u.feed

end Tree

/-- Mixes a sequence of tokens into one word. -/
def Token.digest {α : Type} [Hashable α] (ts : List (Token α)) : UInt64 :=
  ts.foldl (fun h k => mixHash h (hash k)) 7

end TreeGrammar
