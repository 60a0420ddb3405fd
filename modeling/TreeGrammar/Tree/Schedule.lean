/-
# The order in which nodes are scored

A score is made of scores further down, so the nodes of a tree are listed in advance, each
before all that is below it, and the list is read from its end.  The list has a loop of its
own: a node is taken off the stack and goes behind the others, and its children go on the
stack slot by slot.
-/
import TreeGrammar.Tree.Walk

namespace TreeGrammar

/-- The stack with the children in the given slots on top, the last one of the last slot
uppermost. -/
def pushSlots (slots : List (List Nat)) (todo : List Nat) : List Nat :=
  slots.foldl (fun todo cs => cs.reverse ++ todo) todo

theorem pushSlots_eq (slots : List (List Nat)) (todo : List Nat) :
    pushSlots slots todo = slots.flatten.reverse ++ todo := by
  induction slots generalizing todo with
  | nil => rfl
  | cons cs slots ih =>
    rw [List.flatten_cons, List.reverse_append, List.append_assoc]
    exact ih (cs.reverse ++ todo)

namespace Tree

variable {α : Type}

theorem pushSlots_slots (t : Tree α) (v : Nat) (todo : List Nat) :
    pushSlots (t.slots v) todo = (t.children v).reverse ++ todo := pushSlots_eq _ _

theorem forestWeight_pushSlots_lt (t : Tree α) (v : Nat) (todo : List Nat) :
    t.forestWeight (pushSlots (t.slots v) todo) < t.forestWeight (v :: todo) := by
  have := t.weight_eq v
  rw [pushSlots_slots]
  simp
  omega

/-- Puts the nodes at and below those on the stack `todo` behind `ordered`. -/
def scheduleFrom (t : Tree α) : List Nat → Array Nat → Array Nat
  | [], ordered => ordered
  | v :: todo, ordered => t.scheduleFrom (pushSlots (t.slots v) todo) (ordered.push v)
termination_by todo => t.forestWeight todo
decreasing_by exact t.forestWeight_pushSlots_lt v todo

/-- All nodes, every one before its descendants. -/
def schedule (t : Tree α) : List Nat := (t.scheduleFrom [root] #[]).toList

end Tree

end TreeGrammar
