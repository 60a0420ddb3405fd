/-
# Treebanks and their well-supported pieces

A treebank collects trees and counts the productions of their inner nodes.  A node is rare
when it is inner and its production was seen fewer times than a limit.  The trees are cut
apart at their rare nodes: a rare node stays in its piece, but loses its children, and each
of them becomes the root of a piece of its own.  A piece of a single node is dropped.
-/
import Std.Data.HashMap
import TreeGrammar.Corpus.Production
import TreeGrammar.Tree.Copy

namespace TreeGrammar

namespace Tree

variable {α : Type}

theorem forestWeight_copyUntil_le (t : Tree α) (stop : Nat → Bool) (todo : List (Nat × Nat))
    (copy : Tree α) (cut : List Nat) :
    t.forestWeight (t.copyUntil stop todo copy cut).2 + todo.length ≤
      t.forestWeight (todo.map (·.1)) + t.forestWeight cut := by
  induction todo, copy, cut using copyUntil.induct t stop with
  | case1 copy cut => simp [copyUntil]
  | case2 src dst todo copy cut h ih =>
    have := t.weight_eq src
    rw [copyUntil, if_pos h]
    simp at ih ⊢
    omega
  | case3 src dst todo copy cut h children ih =>
    have := t.weight_eq src
    rw [copyUntil, if_neg h]
    simp [children] at ih ⊢
    omega

/-- The nodes cut off below `v` weigh less than `v`. -/
theorem forestWeight_prune_lt (t : Tree α) (stop : Nat → Bool) (v : Nat) :
    t.forestWeight (t.prune stop v).2 < t.weight v := by
  have := t.forestWeight_copyUntil_le stop [(v, root)] (single (t.label v) (t.slotCount v)) []
  simp [prune] at this ⊢
  omega

/-- Cuts the tree apart below the nodes in the queue, at the nodes in `stop`.  The pieces
come in the order in which their roots were cut off, behind those in `out`, which has the
last one first. -/
def splitFrom (t : Tree α) (stop : Nat → Bool) : List Nat → List (Tree α) → List (Tree α)
  | [], out => out.reverse
  | v :: queue, out =>
    let p := t.prune stop v
    t.splitFrom stop (queue ++ p.2) (if p.1.isLeaf root then out else p.1 :: out)
termination_by queue => t.forestWeight queue
decreasing_by
  have := t.forestWeight_prune_lt stop v
  simp
  omega

/-- The pieces of the tree, cut apart at the nodes in `stop`. -/
def split (t : Tree α) (stop : Nat → Bool) : List (Tree α) := t.splitFrom stop [root] []

end Tree

/-- Trees, and how often each production occurs in them. -/
structure Treebank (α : Type) [BEq α] [Hashable α] where
  counts : Std.HashMap (Production α) Nat
  /-- The trees in the order in which they were added. -/
  trees : Array (Tree α)

namespace Treebank

variable {α : Type} [BEq α] [Hashable α]

/-- No trees. -/
def empty : Treebank α := ⟨∅, #[]⟩

/-- The limit below which a production is rare where no other is given. -/
def standardLimit : Nat := 2

/-- Number of trees. -/
def size (b : Treebank α) : Nat := b.trees.size

/-- Whether there are no trees. -/
def isEmpty (b : Treebank α) : Bool := b.trees.isEmpty

/-- Counts the productions of the inner nodes of a tree. -/
def countTree (counts : Std.HashMap (Production α) Nat) (t : Tree α) :
    Std.HashMap (Production α) Nat :=
  (t.plan.filter fun v => !t.isLeaf v).foldl
    (fun counts v =>
      let p := t.production v
      counts.insert p (counts.getD p 0 + 1))
    counts

/-- Adds a tree. -/
def add (b : Treebank α) (t : Tree α) : Treebank α :=
  ⟨countTree b.counts t, b.trees.push t⟩

/-- The treebank of a list of trees. -/
def ofList (ts : List (Tree α)) : Treebank α := ts.foldl add empty

/-- How often the production of a node occurs in the treebank. -/
def count (b : Treebank α) (t : Tree α) (v : Nat) : Nat := b.counts.getD (t.production v) 0

/-- Whether a node is inner and its production occurs fewer than `limit` times. -/
def isRare (b : Treebank α) (limit : Nat) (t : Tree α) (v : Nat) : Bool :=
  !t.isLeaf v && decide (b.count t v < limit)

/-- The pieces of all trees, tree after tree, cut apart at the rare nodes. -/
def pieces (b : Treebank α) (limit : Nat) : List (Tree α) :=
  b.trees.toList.flatMap fun t => t.split (b.isRare limit t)

end Treebank

end TreeGrammar
