/-
# More permissive settings

A policy that lets a rule have fewer children than the tree takes no alternative away, and no more
does a fallback that is switched on: a rule that could be applied still can be, and leads to the
same nodes; whether the production of a node stands in for a missing rule depends on what the
grammar holds, not on the policy (`Permits`).  What is new at a node counts for zero or more, and
an old alternative for no less than before if no score below got lower.  So by induction no score
gets lower (`Permits.score_le`).
-/
import TreeGrammar.Proofs.Score.Alternatives

namespace TreeGrammar.Scorer

variable {α : Type}

/-- The second scorer weighs the same rules in the same way, and has every alternative that the
first one has. -/
structure Permits (s s' : Scorer α ℚ≥0) : Prop where
  weighting : s.weighting = .exact
  weighting' : s'.weighting = .exact
  source : s.source = s'.source
  eq : s.matcher.eq = s'.matcher.eq
  posterior : s.posterior = s'.posterior
  applies : ∀ rule t v, s.matcher.applies rule t v = true → s'.matcher.applies rule t v = true
  fallback : s.fallback = true → s'.fallback = true

lemma permits_atMost (source : RuleSource α) (eq : α → α → Bool) (fallback : Bool)
    (posterior : Option (Tree α → ℚ≥0)) :
    Permits (exact source ⟨eq, .exact⟩ fallback posterior)
      (exact source ⟨eq, .atMost⟩ fallback posterior) :=
  ⟨rfl, rfl, rfl, rfl, rfl, fun _ _ _ h => Matcher.applies_of_exact h .atMost, id⟩

lemma permits_fallback (source : RuleSource α) (m : Matcher α)
    (posterior : Option (Tree α → ℚ≥0)) :
    Permits (exact source m false posterior) (exact source m true posterior) :=
  ⟨rfl, rfl, rfl, rfl, rfl, fun _ _ _ => id, fun _ => rfl⟩

namespace Permits

variable {s s' : Scorer α ℚ≥0} (h : Permits s s')

include h

lemma ruleWeight_eq (rules : RuleSet α) (rule : Tree α) (n : Nat) :
    s.ruleWeight rules rule n = s'.ruleWeight rules rule n := by
  rw [ruleWeight, ruleWeight, h.posterior, h.weighting, h.weighting']

lemma productionTerm_le {t : Tree α} {f g : Nat → ℚ≥0} {v : Nat}
    (hchildren : ∀ w ∈ t.children v, f w ≤ g w) (rules : RuleSet α) :
    s.productionTerm t f v rules ≤ s'.productionTerm t g v rules := by
  rw [productionTerm]
  split
  case isTrue hstands =>
    obtain ⟨hfallback, hnew⟩ := Bool.and_eq_true_iff.1 hstands
    have hweight : s.productionWeight t v = s'.productionWeight t v := by
      rw [productionWeight, productionWeight, h.posterior, h.weighting, h.weighting']
    rw [productionTerm, ← h.eq, hnew, h.fallback hfallback, ← hweight]
    exact mul_le_mul_right (prod_map_mono hchildren) _
  case isFalse => exact zero_le

/-- No node has a lower score under the second scorer. -/
theorem score_le (t : Tree α) (v : Nat) : s.score t v ≤ s'.score t v := by
  have hsource : s.source s.matcher.eq = s'.source s'.matcher.eq := by rw [h.source, h.eq]
  induction v using induction_entry t (s.source s.matcher.eq) with
  | leaf v hleaf => rw [score_of_isLeaf h.weighting hleaf, score_of_isLeaf h.weighting' hleaf]
  | noEntry v hleaf hentry hchildren =>
    rw [score_of_source_none h.weighting hleaf hentry,
      score_of_source_none h.weighting' hleaf (hsource ▸ hentry)]
    exact prod_map_mono hchildren
  | entry v rules hleaf hentry hchildren hbelow =>
    rw [score_of_source_some h.weighting hleaf hentry,
      score_of_source_some h.weighting' hleaf (hsource ▸ hentry)]
    refine add_le_add (List.sum_le_sum fun e _ => ?_) (h.productionTerm_le hchildren rules)
    rw [h.ruleWeight_eq]
    exact ruleTerm_mono (h.applies e.1 t v) hbelow _

end Permits

/-- Both scorers give every node of the tree a score, and the second one none that is lower. -/
def ScoresAtMost (s s' : Scorer α ℚ≥0) (t : Tree α) : Prop :=
  ∃ table table', s.scores t = .ok table ∧ s'.scores t = .ok table' ∧
    ∀ v < t.size, ∃ x y, table.get? v = some x ∧ table'.get? v = some y ∧ x ≤ y

lemma Permits.scoresAtMost {s s' : Scorer α ℚ≥0} (h : Permits s s') (t : Tree α) :
    s.ScoresAtMost s' t :=
  ⟨_, _, scores_eq s t, scores_eq s' t, fun _ hv =>
    ⟨_, _, get?_filled_plan s t hv, get?_filled_plan s' t hv, h.score_le t _⟩⟩

/-- No score gets lower if a rule need not have all children, or if the fallback is switched on. -/
theorem scores_mono_settings (source : RuleSource α) (eq : α → α → Bool)
    (posterior : Option (Tree α → ℚ≥0)) (t : Tree α) :
    (∀ fallback, (exact source ⟨eq, .exact⟩ fallback posterior).ScoresAtMost
      (exact source ⟨eq, .atMost⟩ fallback posterior) t) ∧
    ∀ policy, (exact source ⟨eq, policy⟩ false posterior).ScoresAtMost
      (exact source ⟨eq, policy⟩ true posterior) t :=
  ⟨fun fallback => (permits_atMost source eq fallback posterior).scoresAtMost t,
    fun policy => (permits_fallback source ⟨eq, policy⟩ posterior).scoresAtMost t⟩

end TreeGrammar.Scorer
