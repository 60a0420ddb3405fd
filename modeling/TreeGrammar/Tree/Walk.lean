/-
# Walking a tree

The nodes below a node are visited parents first, with an explicit stack: a node is taken
off, and its children are put on, the first child lowest.  So the last child of the last
slot comes next, and every node comes before all that hangs below it.
-/
import TreeGrammar.Tree.Basic

namespace TreeGrammar.Tree

variable {α : Type}

/-- Number of nodes at and below a node, by recursion on the tree. -/
def weight (t : Tree α) (v : Nat) : Nat :=
  1 + (t.children v).attach.foldr (fun c n => t.weight c.1 + n) 0
termination_by t.size - v
decreasing_by
  have := t.lt_of_mem_children c.2
  have := t.child_lt_size c.2
  omega

/-- The number of nodes below a list of nodes that are taken one by one. -/
def forestWeight (t : Tree α) (vs : List Nat) : Nat := vs.foldr (fun v n => t.weight v + n) 0

theorem weight_eq (t : Tree α) (v : Nat) : t.weight v = 1 + t.forestWeight (t.children v) := by
  rw [weight, forestWeight]
  exact congrArg (1 + ·)
    (List.foldr_attach (l := t.children v) (f := fun c n => t.weight c + n) (b := 0))

@[simp] theorem forestWeight_nil (t : Tree α) : t.forestWeight [] = 0 := rfl

@[simp] theorem forestWeight_cons (t : Tree α) (v : Nat) (vs : List Nat) :
    t.forestWeight (v :: vs) = t.weight v + t.forestWeight vs := rfl

@[simp] theorem forestWeight_append (t : Tree α) (vs ws : List Nat) :
    t.forestWeight (vs ++ ws) = t.forestWeight vs + t.forestWeight ws := by
  induction vs with
  | nil => simp
  | cons v vs ih => simp [ih, Nat.add_assoc]

@[simp] theorem forestWeight_reverse (t : Tree α) (vs : List Nat) :
    t.forestWeight vs.reverse = t.forestWeight vs := by
  induction vs with
  | nil => rfl
  | cons v vs ih => simp [ih, Nat.add_comm]

/-- Visits the nodes at and below those on the stack `todo`.  The answer has the visited
nodes, the last one first, in front of `seen`. -/
def walk (t : Tree α) : List Nat → List Nat → List Nat
  | [], seen => seen
  | v :: todo, seen => t.walk ((t.children v).reverse ++ todo) (v :: seen)
termination_by todo => t.forestWeight todo
decreasing_by
  have := t.weight_eq v
  simp
  omega

/-- The nodes at and below `v`, every node before its descendants and a last child before
the children to its left. -/
def preorder (t : Tree α) (v : Nat) : List Nat := (t.walk [v] []).reverse

/-- All nodes in preorder.  Read backwards, it visits every node after its descendants. -/
def plan (t : Tree α) : List Nat := t.preorder root

/-- Number of nodes at and below `v`. -/
def subtreeSize (t : Tree α) (v : Nat) : Nat := (t.preorder v).length

/-- Number of leaves at and below `v`. -/
def leafCount (t : Tree α) (v : Nat) : Nat := (t.preorder v).countP t.isLeaf

end TreeGrammar.Tree
