/-
# Copying parts of a tree

A part of a tree is copied parents first: the children of one node are hung under its copy,
all at once and in order, and are then visited from the last to the first.  Nodes at which
the copy is to stop stay childless, with their slots in place, and what hung below them is
handed back.
-/
import TreeGrammar.Tree.Walk

namespace TreeGrammar.Tree

variable {α : Type}

/-- The tree `copy` with the children of node `src` of `t` hung under its node `dst`, each in
its slot and childless. -/
def attachChildren (t : Tree α) (src : Nat) (copy : Tree α) (dst : Nat) : Tree α :=
  (t.slots src).zipIdx.foldl
    (fun copy (cs, s) =>
      cs.foldl (fun copy c => copy.attach dst s (single (t.label c) (t.slotCount c))) copy)
    copy

/-- Copies below the pairs on the stack `todo`, each a node of `t` and its copy.  The answer
has the grown copy and, last one first, the nodes cut off, in front of `cut`. -/
def copyUntil (t : Tree α) (stop : Nat → Bool) :
    List (Nat × Nat) → Tree α → List Nat → Tree α × List Nat
  | [], copy, cut => (copy, cut)
  | (src, dst) :: todo, copy, cut =>
    if stop src then t.copyUntil stop todo copy ((t.children src).reverse ++ cut)
    else
      let children := (t.children src).zipIdx copy.size
      t.copyUntil stop (children.reverse ++ todo) (t.attachChildren src copy dst) cut
termination_by todo => t.forestWeight (todo.map (·.1))
decreasing_by
  all_goals
    have := t.weight_eq src
    simp
    omega

/-- A copy of what is at and below `v`, childless at the nodes in `stop`, together with the
children cut off there. -/
def prune (t : Tree α) (stop : Nat → Bool) (v : Nat) : Tree α × List Nat :=
  let (copy, cut) := t.copyUntil stop [(v, root)] (single (t.label v) (t.slotCount v)) []
  (copy, cut.reverse)

/-- The tree at and below `v`, on its own. -/
def subtree (t : Tree α) (v : Nat) : Tree α := (t.prune (fun _ => false) v).1

/-- The node `v` over its children, all of them childless and with their slots in place. -/
def oneLevel (t : Tree α) (v : Nat) : Tree α :=
  t.attachChildren v (single (t.label v) (t.slotCount v)) root

end TreeGrammar.Tree
