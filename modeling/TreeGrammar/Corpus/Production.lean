/-
# Productions

The production of a node is its label over the labels of its children, slot by slot.  Unlike
trees, productions with different numbers of slots are different, even where the slots in
question are empty.
-/
import TreeGrammar.Tree.Basic

namespace TreeGrammar

/-- A label over slots of labels. -/
structure Production (α : Type) where
  /-- The label of the parent. -/
  label : α
  /-- The labels of the children, one list for each slot. -/
  slots : List (List α)
deriving BEq, ReflBEq, LawfulBEq, Hashable

/-- The production that expands node `v`. -/
def Tree.production {α : Type} (t : Tree α) (v : Nat) : Production α :=
  ⟨t.label v, (t.slots v).map fun cs => cs.map t.label⟩

end TreeGrammar
