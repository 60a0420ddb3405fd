/-
# Relative frequencies

Without a posterior a rule weighs its share of the additions to its entry.  The shares of an
entry add up to one, unless nothing was added (`RuleSet.Grown.sum_share_le_one`).  Where no score
below a node exceeds one, a rule contributes no more than its share, whatever it leaves uncovered,
and the score of the node is at most the sum of the shares of those rules that can be applied,
however many these are and however they overlap.  So by induction up the tree no score exceeds
one (`score_le_one`).
-/
import TreeGrammar.Proofs.Score.Alternatives

namespace TreeGrammar

variable {α : Type}

/-- The shares of all rules add up to at most one. -/
theorem RuleSet.Grown.sum_share_le_one [BEq α] {rules : RuleSet α} (h : rules.Grown) :
    (rules.toList.map fun e => Weighting.exact.share e.2 rules.total).sum ≤ 1 := by
  have hcounts : (rules.toList.map fun e => (e.2 : ℚ≥0)).sum = rules.total := by
    rw [h.total_eq_sum, Nat.cast_list_sum, List.map_map]
    rfl
  calc (rules.toList.map fun e => Weighting.exact.share e.2 rules.total).sum
      = (rules.toList.map fun e => (e.2 : ℚ≥0) * (rules.total : ℚ≥0)⁻¹).sum := by
        simp only [Weighting.exact, div_eq_mul_inv]
    _ = rules.total * (rules.total : ℚ≥0)⁻¹ := by rw [List.sum_map_mul_right, hcounts]
    _ ≤ 1 := mul_inv_le_one

namespace Scorer

variable {m : Matcher α} {t : Tree α} {f : Nat → ℚ≥0} {v : Nat}

lemma prod_map_le_one {vs : List Nat} (h : ∀ w ∈ vs, f w ≤ 1) : (vs.map f).prod ≤ 1 := by
  have hone : (vs.map fun _ => (1 : ℚ≥0)).prod = 1 := by simp
  exact (prod_map_mono h).trans_eq hone

/-- A rule contributes at most its weight if no score below exceeds one. -/
lemma ruleTerm_le (h : ∀ w, t.Below v w → w ≠ v → f w ≤ 1) (x : ℚ≥0) (rule : Tree α) :
    ruleTerm m t f v x rule ≤ x := by
  rw [ruleTerm]
  split
  case isTrue happlies =>
    refine mul_le_of_le_one_right' (prod_map_le_one fun w hw => ?_)
    obtain ⟨hvw, hne⟩ := Matcher.below_of_mem_leafSides happlies hw
    exact h w hvw hne
  case isFalse => exact zero_le

variable [BEq α] {source : RuleSource α}

/-- No score exceeds one if the weights are shares of what was added. -/
theorem score_le_one (hgrown : ∀ a rules, source m.eq a = some rules → rules.Grown)
    (t : Tree α) (v : Nat) : (exact source m false none).score t v ≤ 1 := by
  induction v using induction_entry t (source m.eq) with
  | leaf v hleaf => rw [score_of_isLeaf rfl hleaf]
  | noEntry v hleaf hentry hchildren =>
    rw [score_of_source_none rfl hleaf hentry]
    exact prod_map_le_one hchildren
  | entry v rules hleaf hentry _ hbelow =>
    have hproduction : (exact source m false none).productionTerm t
        ((exact source m false none).score t) v rules = 0 := rfl
    rw [score_of_source_some rfl hleaf hentry, hproduction, add_zero]
    refine le_trans (List.sum_le_sum fun e _ => ?_) (hgrown _ rules hentry).sum_share_le_one
    exact ruleTerm_le hbelow (Weighting.exact.share e.2 rules.total) e.1

/-- With relative frequencies a tree gets a sub-probability at every node, whatever the
comparison and the policy, if less than 2^64 was added to each rule set. -/
theorem scores_le_one {source : RuleSource α UInt64}
    (hgrown : ∀ a rules, source m.eq a = some rules → ∃ n < UInt64.size, rules.GrownBy n)
    (t : Tree α) :
    ∃ table, (exact source.read m false none).scores t = .ok table ∧
      ∀ v < t.size, ∃ x, table.get? v = some x ∧ 0 ≤ x ∧ x ≤ 1 :=
  ⟨_, scores_eq _ t, fun v hv => ⟨_, get?_filled_plan _ t hv, zero_le,
    score_le_one (RuleSource.grown_read hgrown) t v⟩⟩

/-- Two rules of one entry can be applied at the root, one of which leaves a child uncovered; labels
are compared by what is not symmetric. -/
theorem scores_le_one_overlapping_rules :
    ∃ table,
      (exact (RuleSource.read (((Grammar.empty : Grammar Nat UInt64).addCount
          (.ofSubtrees 1 [[.leaf 3]]) 2).addCount
          (.ofSubtrees 1 [[.leaf 3, .leaf 3]]) 5).productionsFor)
        ⟨fun a b => decide (a ≤ b), .atMost⟩ false none).scores
          (.ofSubtrees 2 [[.leaf 4, .ofSubtrees 5 [[.leaf 3]]]]) = .ok table ∧
      ∀ v < (Tree.ofSubtrees 2 [[Tree.leaf 4, .ofSubtrees 5 [[.leaf 3]]]]).size,
        ∃ x, table.get? v = some x ∧ 0 ≤ x ∧ x ≤ 1 :=
  scores_le_one (fun _ _ hrules =>
    ((Grammar.grownWithin_empty.addCount _ 2).addCount _ 5).productionsFor (by decide) hrules) _

/-- If the total of an entry runs over, it may be less than one of the counts. -/
theorem scores_above_one_of_small_total :
    ∃ table,
      (exact (RuleSource.read ((Grammar.empty : Grammar Nat UInt64).addAll
          [(.ofSubtrees 1 [[.leaf 2]], 18446744073709551615),
            (.ofSubtrees 1 [[.leaf 3]], 2)]).productionsFor)
        ⟨(· == ·), .exact⟩ false none).scores (.ofSubtrees 1 [[.leaf 2]]) = .ok table ∧
      table.get? 0 = some 18446744073709551615 := by
  refine ⟨_, scores_eq _ _, (get?_filled_plan _ _ (by decide +kernel)).trans (congrArg some ?_)⟩
  exact (score_of_above_leaves_words (by decide +kernel) (by decide +kernel) (by decide)
    (by decide +kernel) .exact false).trans (by decide +kernel)

end Scorer

end TreeGrammar
