/-
# Copies are canonical

A copy is numbered by the loop that makes it, and the loop asks for labels, slots and the order of
the children only.  So it can run over a rose tree as well (`Rose.layOut`), and the copy of a
subtree is what comes of its rose tree (`Tree.subtree_eq_layOut`): subtrees with one rose tree
have one copy, down to the numbers of the nodes.

What was taken apart can be put together again.  A root over the copies of its subtrees is
numbered in another way than the tree was, but has the same rose tree (`Tree.subtree_copies`).
-/
import TreeGrammar.Proofs.Tree.Change

namespace TreeGrammar

variable {α : Type}

namespace Rose

/-! ### Laying out rose trees -/

/-- The label of the root. -/
def label : Rose α → α
  | .node a _ => a

/-- The slots of the root. -/
def slots : Rose α → List (List (Rose α))
  | .node _ slots => slots

/-- The children of all slots, slot after slot. -/
def children (r : Rose α) : List (Rose α) := r.slots.flatten

lemma sum_sizeOf_le (rs : List (Rose α)) : (rs.map sizeOf).sum ≤ sizeOf rs := by
  induction rs with
  | nil => exact Nat.zero_le _
  | cons r rs ih =>
    rw [List.map_cons, List.sum_cons, List.cons.sizeOf_spec]
    omega

lemma sum_sizeOf_flatten_le (slots : List (List (Rose α))) :
    (slots.flatten.map sizeOf).sum ≤ sizeOf slots := by
  induction slots with
  | nil => exact Nat.zero_le _
  | cons rs slots ih =>
    have := sum_sizeOf_le rs
    rw [List.flatten_cons, List.map_append, List.sum_append, List.cons.sizeOf_spec]
    omega

/-- The children of a node weigh less than the node. -/
lemma sum_sizeOf_children_lt (r : Rose α) : (r.children.map sizeOf).sum < sizeOf r := by
  cases r with
  | node a slots =>
    have hle := sum_sizeOf_flatten_le slots
    rw [node.sizeOf_spec]
    exact Nat.lt_of_le_of_lt hle (by omega)

/-- `copy` with a childless node for every child of `r` hung under its node `dst`, each in its
slot. -/
def hangChildren (r : Rose α) (copy : Tree α) (dst : Nat) : Tree α :=
  (placed r.slots).foldl
    (fun copy e => copy.attach dst e.1 (.single e.2.label e.2.slots.length)) copy

/-- Grows `copy` below the pairs on the stack, each a rose tree and the node laid out for its
root. -/
def layOutFrom : List (Rose α × Nat) → Tree α → Tree α
  | [], copy => copy
  | (r, dst) :: todo, copy =>
    layOutFrom ((r.children.zipIdx copy.size).reverse ++ todo) (r.hangChildren copy dst)
termination_by todo => (todo.map fun e => sizeOf e.1).sum
decreasing_by
  have hlt := r.sum_sizeOf_children_lt
  have hchildren : ((r.children.zipIdx copy.size).map fun e => sizeOf e.1) =
      r.children.map sizeOf := by
    rw [← List.zipIdx_map_fst copy.size r.children, List.map_map, List.zipIdx_map_fst]
    rfl
  simp only [List.map_append, List.map_reverse, hchildren, List.sum_append, List.sum_reverse,
    List.map_cons, List.sum_cons]
  omega

/-- The rose tree in an array, numbered in the order in which trees are copied. -/
def layOut (r : Rose α) : Tree α := layOutFrom [(r, Tree.root)] (.single r.label r.slots.length)

end Rose

namespace Tree

variable {R : α → α → Prop} {t u : Tree α} {v w : Nat}

lemma label_rose (t : Tree α) (v : Nat) : (t.rose v).label = t.label v := by
  rw [rose_eq_node, Rose.label]

lemma slots_rose (t : Tree α) (v : Nat) : (t.rose v).slots = t.roses v := by
  rw [rose_eq_node, Rose.slots]

lemma length_slots_rose (t : Tree α) (v : Nat) : (t.rose v).slots.length = t.slotCount v := by
  rw [slots_rose, roses, List.length_map]
  rfl

lemma children_rose (t : Tree α) (v : Nat) : (t.rose v).children = (t.children v).map t.rose := by
  rw [Rose.children, slots_rose, roses, children_eq_flatten, List.map_flatten]

lemma attachChildren_eq_hangChildren (t : Tree α) (v : Nat) (copy : Tree α) (dst : Nat) :
    t.attachChildren v copy dst = (t.rose v).hangChildren copy dst := by
  rw [attachChildren_eq, Rose.hangChildren, slots_rose, roses, placed_map, List.foldl_map]
  simp only [Prod.map_fst, Prod.map_snd, id_eq, label_rose, length_slots_rose]
  rfl

/-- The copying loop looks at rose trees only. -/
theorem copyUntil_eq_layOutFrom (t : Tree α) (todo : List (Nat × Nat)) (copy : Tree α)
    (cut : List Nat) :
    (t.copyUntil (fun _ => false) todo copy cut).1 =
      Rose.layOutFrom (todo.map (Prod.map t.rose id)) copy := by
  fun_induction copyUntil t (fun _ => false) todo copy cut with
  | case1 copy cut => rw [List.map_nil, Rose.layOutFrom]
  | case2 src dst todo copy cut hstop =>
    -- nothing is cut off
    cases hstop
  | case3 src dst todo copy cut _ children ih =>
    rw [ih, List.map_append, List.map_reverse, List.map_zipIdx, List.map_cons, Prod.map_apply,
      Rose.layOutFrom, children_rose, ← attachChildren_eq_hangChildren]
    rfl

/-- A subtree on its own is the layout of its rose tree. -/
theorem subtree_eq_layOut (t : Tree α) (v : Nat) : t.subtree v = (t.rose v).layOut := by
  rw [Rose.layOut, label_rose, length_slots_rose]
  exact t.copyUntil_eq_layOutFrom [(v, root)] _ []

/-! ### Sizes -/

/-- There are equally many nodes below nodes that are alike. -/
lemma Alike.subtreeSize_eq (h : Alike R t u v w) : t.subtreeSize v = u.subtreeSize w := by
  induction h with
  | @node v w _ hsizes _ ih =>
    rw [Tree.subtreeSize_eq, Tree.subtreeSize_eq, children_eq_flatten, children_eq_flatten,
      ← hsizes.map_fst, ← hsizes.map_snd, List.map_map, List.map_map]
    exact congrArg (1 + ·.sum) (List.map_congr_left ih)

lemma size_eq_subtreeSize_of_rose_eq (h : t.rose root = u.rose v) : t.size = u.subtreeSize v := by
  rw [← t.subtreeSize_root]
  exact (Alike.of_rose_eq h).subtreeSize_eq

/-! ### Taking apart and putting together -/

/-- The subtrees below the root, each on its own. -/
def parts (t : Tree α) : List (List (Tree α)) := (t.slots root).map (List.map t.subtree)

/-- A root over the parts of a tree has the rose tree of the tree. -/
lemma rose_ofSubtrees_parts (t : Tree α) :
    (ofSubtrees t.rootLabel t.parts).rose root = t.rose root := by
  rw [rose_ofSubtrees, parts, List.map_map, rose_eq t, label_root]
  simp only [Function.comp_def, List.map_map, rose_subtree]

/-- Copies of the subtrees of `t`, and what is put together from them. -/
structure Copies (t : Tree α) : Prop where
  size_subtree : ∀ v, (t.subtree v).size = t.subtreeSize v
  rose_subtree : ∀ v, (t.subtree v).rose root = t.rose v
  /-- Whatever trees they are copied from, subtrees with one rose tree have one copy. -/
  subtree_eq : ∀ (u : Tree α) (v w : Nat), t.rose v = u.rose w → t.subtree v = u.subtree w
  subtree_subtree : ∀ v, (t.subtree v).subtree root = t.subtree v
  /-- The copying loop runs in the arena without looking for a node that is not there. -/
  arena_subtree : ∀ v < t.size, Arena.subtree t.nodes v = some (t.subtree v).nodes
  /-- A root over copies of the subtrees below the root has the rose tree of the whole. -/
  rose_ofSubtrees : (ofSubtrees t.rootLabel t.parts).rose root = t.rose root
  size_ofSubtrees : (ofSubtrees t.rootLabel t.parts).size =
    1 + ((t.children root).map t.subtreeSize).sum
  /-- The root is put over the copies unless the positions end before. -/
  change_ofSubtrees : ∀ last, t.size ≤ last →
    Change.ofSubtrees last t.rootLabel (t.parts.map (List.map nodes)) =
      some (ofSubtrees t.rootLabel t.parts).nodes

/-- Copies are faithful, and depend on what is copied only. -/
theorem subtree_copies (t : Tree α) : t.Copies where
  size_subtree v := size_eq_subtreeSize_of_rose_eq (t.rose_subtree v)
  rose_subtree := t.rose_subtree
  subtree_eq u v w h := by rw [subtree_eq_layOut, subtree_eq_layOut, h]
  subtree_subtree v := by rw [subtree_eq_layOut, rose_subtree, ← subtree_eq_layOut]
  arena_subtree v hv := by rw [Arena.subtree_nodes, if_pos (by simpa [contains] using hv)]
  rose_ofSubtrees := t.rose_ofSubtrees_parts
  size_ofSubtrees := by
    rw [size_eq_subtreeSize_of_rose_eq t.rose_ofSubtrees_parts, subtreeSize_eq]
  change_ofSubtrees last h := by
    refine Change.ofSubtrees_nodes ?_
    rw [size_eq_subtreeSize_of_rose_eq t.rose_ofSubtrees_parts, subtreeSize_root]
    exact h

end Tree

end TreeGrammar
