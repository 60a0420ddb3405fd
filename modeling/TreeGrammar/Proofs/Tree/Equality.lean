/-
# Structural equality, node by node

The loop that compares two trees takes pairs of nodes off a stack.  Every pair on the stack is
compared on its own (`agree_eq_all`), so that two subtrees are equal up to a comparison when it
accepts their labels, their slots have the same sizes and the children that stand in one place
are equal (`structEq_iff`).
-/
import TreeGrammar.Proofs.Tree.Below
import TreeGrammar.Proofs.Tree.Slots

namespace TreeGrammar.Tree

variable {α : Type} {eq : α → α → Bool} {t u : Tree α}

lemma agree_append (eq : α → α → Bool) (t u : Tree α) (ps qs : List (Nat × Nat)) :
    agree eq t u (ps ++ qs) = (agree eq t u ps && agree eq t u qs) := by
  induction ps using agree.induct eq t u with
  | case1 => simp [agree]
  | case2 v w todo hc ih =>
    rw [List.cons_append, agree, agree, if_pos hc, if_pos hc, ← List.append_assoc]
    exact ih
  | case3 v w todo hc =>
    rw [List.cons_append, agree, agree, if_neg hc, if_neg hc, Bool.false_and]

/-- The pairs on the stack are compared one after the other. -/
theorem agree_eq_all (eq : α → α → Bool) (t u : Tree α) (ps : List (Nat × Nat)) :
    agree eq t u ps = ps.all fun p => structEq eq t p.1 u p.2 := by
  induction ps with
  | nil => simp [agree]
  | cons p ps ih =>
    have hsplit := agree_append eq t u [p] ps
    rw [List.singleton_append, ih] at hsplit
    exact hsplit

/-- Subtrees are equal up to a comparison that accepts the labels at their roots, if the
slots have the same sizes and the children in one place are equal. -/
theorem structEq_iff {v w : Nat} :
    structEq eq t v u w = true ↔
      eq (t.label v) (u.label w) = true ∧ SameSizes (t.slots v) (u.slots w) ∧
        ∀ p ∈ pairChildren (t.slots v) (u.slots w), structEq eq t p.1 u p.2 = true := by
  have hsizes : ((pairSlots (t.slots v) (u.slots w)).all fun p => p.1.length == p.2.length) =
      true ↔ SameSizes (t.slots v) (u.slots w) := by
    simp only [sameSizes_iff, List.all_eq_true, beq_iff_eq]
  rw [structEq, agree, List.append_nil, agree_eq_all, List.all_reverse, ← hsizes, ← and_assoc,
    ← Bool.and_eq_true, ← List.all_eq_true]
  split
  case isTrue hc => simp only [hc, true_and]
  case isFalse hc => simp only [hc, false_and, Bool.false_eq_true]

end TreeGrammar.Tree
