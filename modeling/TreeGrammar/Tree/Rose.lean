/-
# Trees as values

A rose tree is what is left of a tree when the positions of its nodes are forgotten: labels,
slots and the order of children.  The text of a tree is a function of its rose tree: a
leaf is its label, any other node its label and its slots in parentheses.
-/
import TreeGrammar.Tree.Walk

namespace TreeGrammar

/-- A label over slots of subtrees. -/
inductive Rose (α : Type) where
  | node (label : α) (slots : List (List (Rose α)))

namespace Rose

variable {α : Type}

mutual

/-- The text of a rose tree: `A(B, C | D)`, the children of a slot separated by commas and
the slots by bars. -/
def text (write : α → String) : Rose α → String
  | .node a slots =>
    if slots.all List.isEmpty then write a
    else write a ++ "(" ++ " | ".intercalate (slotTexts write slots) ++ ")"

/-- The texts of the slots of a node. -/
def slotTexts (write : α → String) : List (List (Rose α)) → List String
  | [] => []
  | rs :: slots => ", ".intercalate (texts write rs) :: slotTexts write slots

/-- The texts of the children in a slot. -/
def texts (write : α → String) : List (Rose α) → List String
  | [] => []
  | r :: rs => text write r :: texts write rs

end

end Rose

namespace Tree

variable {α : Type}

/-- The rose tree at and below a node. -/
def rose (t : Tree α) (v : Nat) : Rose α :=
  .node (t.label v) <|
    (t.slots v).attach.map fun cs => cs.1.attach.map fun c => t.rose c.1
termination_by t.size - v
decreasing_by
  have hc : c.1 ∈ t.children v := by
    rw [t.children_eq_flatten]
    exact List.mem_flatten.2 ⟨cs.1, cs.2, c.2⟩
  have := t.lt_of_mem_children hc
  have := t.child_lt_size hc
  omega

theorem rose_eq (t : Tree α) (v : Nat) :
    t.rose v = .node (t.label v) ((t.slots v).map fun cs => cs.map t.rose) := by
  rw [rose]
  simp

/-- The text of a tree, its labels written by `write`. -/
def text (write : α → String) (t : Tree α) : String := (t.rose root).text write

end Tree

end TreeGrammar
