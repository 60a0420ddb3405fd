/-
# Structural equality

Two subtrees are equal up to a comparison of labels when they have the same shape and the
comparison accepts every two labels in the same place.  The numbering of the nodes does not
count, and a slot that a node lacks counts as empty.
-/
import TreeGrammar.Tree.Walk

namespace TreeGrammar

/-- The slots of two nodes side by side, a slot that one of them lacks being empty. -/
def pairSlots (xs ys : List (List Nat)) : List (List Nat × List Nat) :=
  let n := max xs.length ys.length
  (xs.rightpad n []).zip (ys.rightpad n [])

/-- The children of two nodes in pairs, slot after slot.  In a slot with unequal numbers of
children the surplus is left out. -/
def pairChildren (xs ys : List (List Nat)) : List (Nat × Nat) :=
  (pairSlots xs ys).flatMap fun p => p.1.zip p.2

theorem pairSlots_map_fst (xs ys : List (List Nat)) :
    (pairSlots xs ys).map (·.1) = xs.rightpad (max xs.length ys.length) [] := by
  rw [pairSlots, List.map_fst_zip]
  simp only [List.rightpad, List.length_append, List.length_replicate]
  omega

theorem flatten_rightpad_nil {β : Type} (xs : List (List β)) (n : Nat) :
    (xs.rightpad n []).flatten = xs.flatten := by
  simp [List.rightpad]

theorem left_mem_of_mem_pairChildren {xs ys : List (List Nat)} {p : Nat × Nat}
    (h : p ∈ pairChildren xs ys) : p.1 ∈ xs.flatten := by
  obtain ⟨sides, hs, hp⟩ := List.mem_flatMap.1 h
  have hx : sides.1 ∈ xs.rightpad (max xs.length ys.length) [] :=
    (List.of_mem_zip (show (sides.1, sides.2) ∈ _ from hs)).1
  rw [← flatten_rightpad_nil xs (max xs.length ys.length)]
  exact List.mem_flatten.2 ⟨_, hx, (List.of_mem_zip (show (p.1, p.2) ∈ _ from hp)).1⟩

theorem right_mem_of_mem_pairChildren {xs ys : List (List Nat)} {p : Nat × Nat}
    (h : p ∈ pairChildren xs ys) : p.2 ∈ ys.flatten := by
  obtain ⟨sides, hs, hp⟩ := List.mem_flatMap.1 h
  have hy : sides.2 ∈ ys.rightpad (max xs.length ys.length) [] :=
    (List.of_mem_zip (show (sides.1, sides.2) ∈ _ from hs)).2
  rw [← flatten_rightpad_nil ys (max xs.length ys.length)]
  exact List.mem_flatten.2 ⟨_, hy, (List.of_mem_zip (show (p.1, p.2) ∈ _ from hp)).2⟩

theorem map_snd_zip_eq_take {β γ : Type} (xs : List β) (ys : List γ) :
    (xs.zip ys).map (·.2) = ys.take xs.length := by
  induction xs generalizing ys with
  | nil => simp
  | cons x xs ih =>
    cases ys with
    | nil => simp
    | cons y ys => simp [ih]

/-- Where no slot of the left has more children than the one beside it, all of them are in
pairs. -/
theorem flatMap_fst_eq {xs ys : List (List Nat)}
    (h : ∀ p ∈ pairSlots xs ys, p.1.length ≤ p.2.length) :
    (pairSlots xs ys).flatMap (·.1) = (pairChildren xs ys).map (·.1) := by
  rw [pairChildren, List.map_flatMap, List.flatMap_def, List.flatMap_def]
  exact congrArg List.flatten
    (List.map_congr_left fun p hp => (List.map_fst_zip (h p hp)).symm)

theorem flatMap_take_eq (xs ys : List (List Nat)) :
    ((pairSlots xs ys).flatMap fun p => p.2.take p.1.length) =
      (pairChildren xs ys).map (·.2) := by
  simp only [pairChildren, List.map_flatMap, map_snd_zip_eq_take]

theorem flatMap_fst_pairSlots (xs ys : List (List Nat)) :
    (pairSlots xs ys).flatMap (·.1) = xs.flatten := by
  rw [List.flatMap_def, pairSlots_map_fst, flatten_rightpad_nil]

namespace Tree

variable {α : Type}

theorem forestWeight_zip_le (t : Tree α) (xs ys : List Nat) :
    t.forestWeight ((xs.zip ys).map (·.1)) ≤ t.forestWeight xs := by
  induction xs generalizing ys with
  | nil => simp
  | cons x xs ih =>
    cases ys with
    | nil => simp
    | cons y ys => simpa using ih ys

theorem forestWeight_flatMap_zip_le (t : Tree α) (ps : List (List Nat × List Nat)) :
    t.forestWeight ((ps.flatMap fun p => p.1.zip p.2).map (·.1)) ≤
      t.forestWeight (ps.map (·.1)).flatten := by
  induction ps with
  | nil => simp
  | cons p ps ih =>
    simp only [List.flatMap_cons, List.map_append, forestWeight_append, List.map_cons,
      List.flatten_cons]
    exact Nat.add_le_add (t.forestWeight_zip_le _ _) ih

/-- The children of `v` that are in a pair weigh no more than all its children. -/
theorem forestWeight_pairChildren_le (t : Tree α) (v : Nat) (ys : List (List Nat)) :
    t.forestWeight ((pairChildren (t.slots v) ys).map (·.1)) ≤
      t.forestWeight (t.children v) := by
  refine Nat.le_trans (t.forestWeight_flatMap_zip_le _) (Nat.le_of_eq ?_)
  rw [pairSlots_map_fst, flatten_rightpad_nil, children_eq_flatten]

/-- Whether the subtrees of `t` and `u` at every pair on the stack are equal up to `eq`. -/
def agree (eq : α → α → Bool) (t u : Tree α) : List (Nat × Nat) → Bool
  | [] => true
  | (v, w) :: todo =>
    if eq (t.label v) (u.label w) &&
        (pairSlots (t.slots v) (u.slots w)).all fun p => p.1.length == p.2.length then
      agree eq t u ((pairChildren (t.slots v) (u.slots w)).reverse ++ todo)
    else false
termination_by todo => t.forestWeight (todo.map (·.1))
decreasing_by
  have := t.weight_eq v
  have := t.forestWeight_pairChildren_le v (u.slots w)
  simp
  omega

/-- Whether the subtree of `t` at `v` and that of `u` at `w` are equal up to `eq`, which gets
the label from `t` first. -/
def structEq (eq : α → α → Bool) (t : Tree α) (v : Nat) (u : Tree α) (w : Nat) : Bool :=
  agree eq t u [(v, w)]

instance [BEq α] : BEq (Tree α) := ⟨fun t u => structEq (· == ·) t root u root⟩

end Tree

end TreeGrammar
