/-
# More rules under a posterior

A posterior weighs a rule by what it is and not by how often it was added.  So a rule that is
added to an entry changes nothing if it was there before; otherwise it is one more alternative
wherever it can be applied.  There is one exception, where the rule is equal to the production of
a node that stood in for a missing rule, and does so no longer.  But there the rule contributes
what the production did: it has the same weight and leads to the same nodes
(`alternatives_le_append`).  Scores only grow with the scores below (`alternatives_mono`), so by
induction no score gets lower.
-/
import TreeGrammar.Proofs.Grammar.Entries
import TreeGrammar.Proofs.Match.Shallow
import TreeGrammar.Proofs.Score.Alternatives

namespace TreeGrammar.Scorer

variable {α : Type}

/-! ### The alternatives at a node -/

/-- What the rules of an entry and the production of `v` contribute, if a posterior gives the
weights. -/
def alternatives (m : Matcher α) (fallback : Bool) (weigh : Tree α → ℚ≥0) (t : Tree α)
    (f : Nat → ℚ≥0) (v : Nat) (rules : List (Tree α)) : ℚ≥0 :=
  (rules.map fun r => ruleTerm m t f v (weigh r) r).sum +
    if fallback &&
        !rules.any (fun r => Tree.structEq m.eq r Tree.root (t.oneLevel v) Tree.root) then
      weigh (t.oneLevel v) * ((t.children v).map f).prod
    else 0

section

variable {m : Matcher α} {fallback : Bool} {weigh : Tree α → ℚ≥0} {t : Tree α}
  {f g : Nat → ℚ≥0} {v : Nat}

lemma score_eq_alternatives {source : RuleSource α} {rules : RuleSet α}
    (hleaf : t.isLeaf v = false) (hsome : source m.eq (t.label v) = some rules) :
    (exact source m fallback (some weigh)).score t v =
      alternatives m fallback weigh t ((exact source m fallback (some weigh)).score t) v
        rules.rules := by
  have hknown : rules.containsBy m.eq (t.oneLevel v) =
      rules.rules.any fun r => Tree.structEq m.eq r Tree.root (t.oneLevel v) Tree.root := by
    rw [RuleSet.containsBy, ← Array.any_toList, RuleSet.rules, List.any_map]
    rfl
  rw [score_of_source_some rfl hleaf hsome, alternatives, RuleSet.rules, List.map_map,
    ← RuleSet.rules, ← hknown]
  rfl

/-- The alternatives grow with the scores below. -/
theorem alternatives_mono (h : ∀ w, t.Below v w → w ≠ v → f w ≤ g w)
    (rules : List (Tree α)) :
    alternatives m fallback weigh t f v rules ≤ alternatives m fallback weigh t g v rules := by
  refine add_le_add (List.sum_le_sum fun r _ => ruleTerm_mono id h (weigh r)) ?_
  split
  · refine mul_le_mul_right (prod_map_mono fun w hw => ?_) _
    exact h w (.child hw) (Tree.ne_of_mem_children hw)
  · exact le_rfl

/-- No alternative gets lost with a further rule. -/
theorem alternatives_le_append (hleaf : t.isLeaf v = false)
    (hweigh : ∀ a b, Tree.structEq m.eq a Tree.root b Tree.root = true → weigh a = weigh b)
    (rules : List (Tree α)) (rule : Tree α) :
    alternatives m fallback weigh t f v rules ≤
      alternatives m fallback weigh t f v (rules ++ [rule]) := by
  rw [alternatives, alternatives, List.map_append, List.sum_append, List.map_singleton,
    List.sum_singleton, List.any_append, List.any_cons, List.any_nil, Bool.or_false, add_assoc]
  refine add_le_add_right ?_ _
  cases hknown : rules.any fun r =>
      Tree.structEq m.eq r Tree.root (t.oneLevel v) Tree.root with
  | true => simp
  | false =>
    cases hrule : Tree.structEq m.eq rule Tree.root (t.oneLevel v) Tree.root with
    | false => exact le_add_self
    | true =>
      -- the rule takes the place of the production
      rw [ruleTerm_of_structEq hleaf hrule, hweigh _ _ hrule]
      cases fallback with
      | true => simp
      | false => simp

end

/-! ### One more rule -/

section

variable [BEq α] [Hashable α] {g : Grammar α} {m : Matcher α} {fallback : Bool}
  {weigh : Tree α → ℚ≥0}

/-- If an entry gets a further rule no score gets lower. -/
theorem score_le_addAt
    (hweigh : ∀ a b, Tree.structEq m.eq a Tree.root b Tree.root = true → weigh a = weigh b)
    (i : Nat) (rule : Tree α) (n : Nat) (t : Tree α) (v : Nat) :
    (exact g.productionsFor m fallback (some weigh)).score t v ≤
      (exact (g.addAt i rule n).productionsFor m fallback (some weigh)).score t v := by
  have hadd := g.productionsFor_addAt i rule n m.eq
  induction v using induction_entry t (g.productionsFor m.eq) with
  | leaf v hleaf => rw [score_of_isLeaf rfl hleaf, score_of_isLeaf rfl hleaf]
  | noEntry v hleaf hentry hchildren =>
    have hafter := hadd (t.label v)
    rw [hentry] at hafter
    rw [score_of_source_none rfl hleaf hentry, score_of_source_none rfl hleaf hafter]
    exact prod_map_mono hchildren
  | entry v rules hleaf hentry _ hbelow =>
    have hafter := hadd (t.label v)
    rw [hentry] at hafter
    rw [score_eq_alternatives hleaf hentry, score_eq_alternatives hleaf hafter]
    refine (alternatives_mono hbelow rules.rules).trans ?_
    -- the entry of this node need not be the one with the addition
    split
    · rcases rules.rules_addCount rule n with hrules | hrules
      · rw [hrules]
      · rw [hrules]
        exact alternatives_le_append hleaf hweigh rules.rules rule
    · exact le_rfl

/-- A rule that is added to an entry lowers no score, if a posterior gives the weights. -/
theorem scores_le_addCountBy
    (hweigh : ∀ a b, Tree.structEq m.eq a Tree.root b Tree.root = true → weigh a = weigh b)
    {rule : Tree α} (hentry : (g.productionsFor m.eq rule.rootLabel).isSome = true)
    (t : Tree α) :
    ∃ before after, (exact g.productionsFor m fallback (some weigh)).scores t = .ok before ∧
      (exact (g.addCountBy m.eq rule 1).productionsFor m fallback (some weigh)).scores t =
        .ok after ∧
      ∀ v < t.size, ∃ x y, before.get? v = some x ∧ after.get? v = some y ∧ x ≤ y := by
  obtain ⟨rules, hrules⟩ := Option.isSome_iff_exists.1 hentry
  obtain ⟨i, hi, -⟩ := Option.bind_eq_some_iff.1 hrules
  have hadd : g.addCountBy m.eq rule 1 = g.addAt i rule 1 := by rw [Grammar.addCountBy, hi]
  rw [hadd]
  refine ⟨_, _, scores_eq _ t, scores_eq _ t, fun v hv => ?_⟩
  exact ⟨_, _, get?_filled_plan _ t hv, get?_filled_plan _ t hv,
    score_le_addAt hweigh i rule 1 t v⟩

/-- An entry without rules gets one that takes the place of the production. -/
theorem scores_le_addCountBy_empty_entry :
    (∀ a b : Tree Nat, Tree.structEq (fun i j => decide (i ≤ j)) a Tree.root b Tree.root = true →
      (if a.isLeaf Tree.root then 0 else 1 / 2 : ℚ≥0) = if b.isLeaf Tree.root then 0 else 1 / 2) ∧
    (((Grammar.empty : Grammar Nat).openEntry 2).productionsFor (fun i j => decide (i ≤ j))
      (Tree.ofSubtrees 2 [[Tree.leaf 3]]).rootLabel).isSome = true ∧
    ∃ before after,
      (exact ((Grammar.empty : Grammar Nat).openEntry 2).productionsFor
        ⟨fun i j => decide (i ≤ j), .atMost⟩ true
        (some fun r => if r.isLeaf Tree.root then 0 else 1 / 2)).scores
          (.ofSubtrees 2 [[.leaf 4]]) = .ok before ∧
      (exact (((Grammar.empty : Grammar Nat).openEntry 2).addCountBy (fun i j => decide (i ≤ j))
          (.ofSubtrees 2 [[.leaf 3]]) 1).productionsFor
        ⟨fun i j => decide (i ≤ j), .atMost⟩ true
        (some fun r => if r.isLeaf Tree.root then 0 else 1 / 2)).scores
          (.ofSubtrees 2 [[.leaf 4]]) = .ok after ∧
      ∀ v < (Tree.ofSubtrees 2 [[Tree.leaf 4]]).size, ∃ x y,
        before.get? v = some x ∧ after.get? v = some y ∧ x ≤ y := by
  have hweigh : ∀ a b : Tree Nat,
      Tree.structEq (fun i j => decide (i ≤ j)) a Tree.root b Tree.root = true →
      (if a.isLeaf Tree.root then 0 else 1 / 2 : ℚ≥0) =
        if b.isLeaf Tree.root then 0 else 1 / 2 := by
    intro a b h
    rw [(Tree.structEq_iff_alike.1 h).isLeaf_eq]
  have hentry : (((Grammar.empty : Grammar Nat).openEntry 2).productionsFor
      (fun i j => decide (i ≤ j)) (Tree.ofSubtrees 2 [[Tree.leaf 3]]).rootLabel).isSome = true := by
    have hroot : (Tree.ofSubtrees 2 [[Tree.leaf 3]]).rootLabel = 2 := by decide +kernel
    rw [hroot]
    simp [Grammar.productionsFor, Grammar.find?, Grammar.openEntry, Grammar.empty]
  exact ⟨hweigh, hentry, scores_le_addCountBy hweigh hentry _⟩

end

end TreeGrammar.Scorer
