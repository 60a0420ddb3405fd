/-
# Grammars of one level

With exact arity and labels compared for equality, a shallow rule can be applied at an inner node
exactly if it is equal to the production of the node, and it leads to the children.  An entry
has at most one such rule, since equal rules are one, and the fallback is on hand where it has
none.  So a node gets what its production is worth times the scores of its children
(`score_eq_worth_mul`), and the score of a tree is the product of what the productions of its
inner nodes are worth, as in a context-free grammar (`score_eq_prod_worth`).
-/
import TreeGrammar.Proofs.Grammar.Entries
import TreeGrammar.Proofs.Score.Congruence

namespace TreeGrammar

variable {α : Type} [BEq α]

/-- What a production is worth with these rules for its label: its share of the additions if it is
among them, and otherwise all or nothing as the fallback says. -/
def RuleSet.worth (rules : RuleSet α) (fallback : Bool) (production : Tree α) : ℚ≥0 :=
  if 0 < rules.count production then (rules.count production : ℚ≥0) / rules.total
  else if fallback then 1 else 0

/-- What the production of a node is worth; a label without entry costs nothing. -/
def Grammar.worth [Hashable α] (g : Grammar α) (fallback : Bool) (t : Tree α) (v : Nat) : ℚ≥0 :=
  match g.productions (t.label v) with
  | some rules => rules.worth fallback (t.oneLevel v)
  | none => 1

/-- What a production is worth can be read off the words. -/
lemma Grammar.worth_read_addAll [EquivBEq α] [Hashable α] [LawfulHashable α]
    {calls : List (Tree α × UInt64)} {t : Tree α} {v : Nat} (hcalls : calls ≠ [])
    (hlabels : ∀ c ∈ calls, (c.1.rootLabel == t.label v) = true) (fallback : Bool) :
    ((empty : Grammar α UInt64).addAll calls).read.worth fallback t v =
      if 0 < RuleSet.added (RuleSet.inNumbers calls) (t.oneLevel v) % UInt64.size then
        ((RuleSet.added (RuleSet.inNumbers calls) (t.oneLevel v) % UInt64.size : ℕ) : ℚ≥0) /
          (RuleSet.amount calls % UInt64.size : ℕ)
      else if fallback then 1 else 0 := by
  have hzero : UInt64.toNat 0 = 0 := rfl
  have hcount : (RuleSet.empty.addAll calls).read.count (t.oneLevel v) =
      RuleSet.added (RuleSet.inNumbers calls) (t.oneLevel v) % UInt64.size := by
    rw [RuleSet.read, RuleSet.count_mapCounts hzero, RuleSet.empty,
      RuleSet.toNat_count_addAll Token.respects_digest]
  have hentry : ((empty : Grammar α UInt64).addAll calls).read.productions (t.label v) =
      some (RuleSet.empty.addAll calls).read := by
    rw [read, productions_mapCounts, productions_addAll_of_label hcalls hlabels]
    rfl
  simp only [worth, hentry, RuleSet.worth, hcount, ← RuleSet.toNat_total_addAll Token.digest]
  rfl

namespace Scorer

/-- Scores by shares, with equal labels and exact arity. -/
abbrev byShares (source : RuleSource α) (fallback : Bool) : Scorer α ℚ≥0 :=
  exact source ⟨(· == ·), .exact⟩ fallback none

variable {t : Tree α} {f : Nat → ℚ≥0} {v : Nat}

/-- A shallow rule is either the production of the node or of no use there. -/
lemma ruleTerm_of_shallow (hleaf : t.isLeaf v = false) {rule : Tree α} (h : rule.Shallow)
    (x : ℚ≥0) :
    ruleTerm ⟨(· == ·), .exact⟩ t f v x rule =
      if rule == t.oneLevel v then x * ((t.children v).map f).prod else 0 := by
  cases hrule : rule == t.oneLevel v with
  | true => exact ruleTerm_of_structEq hleaf hrule x
  | false =>
    refine if_neg fun happlies => ?_
    have heq : (rule == t.oneLevel v) = true :=
      (Matcher.structEq_oneLevel_iff hleaf).2 ⟨h, happlies⟩
    rw [hrule] at heq
    cases heq

variable [EquivBEq α] [Hashable α] [LawfulHashable α] {calls : List (Tree α × Nat)}
  {fallback : Bool}

/-- The rules of an entry contribute what the one contributes that is the production. -/
lemma sum_ruleTerm_of_shallow (hshallow : ∀ c ∈ calls, c.1.Shallow) (hleaf : t.isLeaf v = false)
    (f : Nat → ℚ≥0) :
    ((RuleSet.empty.addAll calls).toList.map fun e =>
        ruleTerm ⟨(· == ·), .exact⟩ t f v
          (Weighting.exact.share e.2 (RuleSet.empty.addAll calls).total) e.1).sum =
      (RuleSet.empty.addAll calls).count (t.oneLevel v) / (RuleSet.empty.addAll calls).total *
        ((t.children v).map f).prod := by
  set rules : RuleSet α := RuleSet.empty.addAll calls
  have hs : rules.WellIndexed :=
    RuleSet.wellIndexed_addAll (RuleSet.wellIndexed_emptyWith Token.respects_digest) calls
  have hterm : ∀ e ∈ rules.toList,
      ruleTerm ⟨(· == ·), .exact⟩ t f v (Weighting.exact.share e.2 rules.total) e.1 =
        if e.1 == t.oneLevel v then
          (e.2 : ℚ≥0) * ((rules.total : ℚ≥0)⁻¹ * ((t.children v).map f).prod) else 0 := by
    intro e he
    obtain ⟨c, hc, -, hce⟩ := RuleSet.exists_call_of_mem_toList Token.respects_digest he
    rw [ruleTerm_of_shallow hleaf (hce ▸ hshallow c hc), ← mul_assoc, ← div_eq_mul_inv]
    rfl
  rw [List.map_congr_left hterm, ← sum_map_filter fun e : Tree α × Nat => e.1 == t.oneLevel v,
    List.sum_map_mul_right, ← hs.sum_filter_beq, Nat.cast_list_sum, List.map_map, div_eq_mul_inv,
    mul_assoc]
  rfl

/-- A node with an entry gets what its production is worth there times the scores of its
children. -/
lemma score_eq_worth_mul_of_some {source : RuleSource α}
    (hshallow : ∀ c ∈ calls, c.1.Shallow) (hleaf : t.isLeaf v = false)
    (hentry : source (· == ·) (t.label v) = some (RuleSet.empty.addAll calls)) :
    (byShares source fallback).score t v =
      (RuleSet.empty.addAll calls).worth fallback (t.oneLevel v) *
        ((t.children v).map ((byShares source fallback).score t)).prod := by
  have hknown : (RuleSet.empty.addAll calls).containsBy (· == ·) (t.oneLevel v) =
      decide (0 < (RuleSet.empty.addAll calls).count (t.oneLevel v)) := by
    rw [Bool.eq_iff_iff, decide_eq_true_iff, RuleSet.empty,
      RuleSet.containsBy_addAll_iff Token.respects_digest,
      RuleSet.count_addAll Token.respects_digest]
  have hproduction : (byShares source fallback).productionTerm t
      ((byShares source fallback).score t) v (RuleSet.empty.addAll calls) =
      if fallback && !decide (0 < (RuleSet.empty.addAll calls).count (t.oneLevel v)) then
        1 * ((t.children v).map ((byShares source fallback).score t)).prod else 0 := by
    rw [← hknown]
    rfl
  rw [score_of_source_some rfl hleaf hentry]
  refine (congrArg₂ (· + ·) (sum_ruleTerm_of_shallow hshallow hleaf _) hproduction).trans ?_
  rw [RuleSet.worth]
  by_cases hpos : 0 < (RuleSet.empty.addAll calls).count (t.oneLevel v)
  · simp [hpos]
  · -- no rule is the production, so it stands in if it may
    rw [if_neg hpos, Nat.eq_zero_of_not_pos hpos]
    cases fallback with
    | true => simp
    | false => simp

/-- A node gets what its production is worth times the scores of its children. -/
theorem score_eq_worth_mul (hshallow : ∀ c ∈ calls, c.1.Shallow) (hleaf : t.isLeaf v = false) :
    (byShares (Grammar.empty.addAll calls).productionsFor fallback).score t v =
      (Grammar.empty.addAll calls).worth fallback t v * ((t.children v).map
        ((byShares (Grammar.empty.addAll calls).productionsFor fallback).score t)).prod := by
  obtain ⟨hg, hproductions⟩ := Grammar.productions_addAll calls
  have hlookup := hg.productionsFor_beq (t.label v)
  rw [Grammar.worth]
  split
  case h_1 rules hentry =>
    have hrules := hproductions (t.label v)
    rw [hentry] at hrules
    split at hrules
    case isTrue =>
      obtain rfl := Option.some.inj hrules
      refine score_eq_worth_mul_of_some (fun c hc => ?_) hleaf (hlookup.trans hentry)
      exact hshallow c (List.mem_filter.1 hc).1
    case isFalse => cases hrules
  case h_2 hentry => rw [score_of_source_none rfl hleaf (hlookup.trans hentry), one_mul]

/-- The score of a node is the product over the inner nodes at and below it. -/
theorem score_eq_prod_worth (hshallow : ∀ c ∈ calls, c.1.Shallow) (t : Tree α) (v : Nat) :
    (byShares (Grammar.empty.addAll calls).productionsFor fallback).score t v =
      (((t.preorder v).filter fun w => !t.isLeaf w).map
        ((Grammar.empty.addAll calls).worth fallback t)).prod := by
  induction v using t.induction_children with
  | node v ih =>
    rw [Tree.preorder_eq]
    cases hleaf : t.isLeaf v with
    | true =>
      have hnone : t.children v = [] := (t.isLeaf_iff v).1 hleaf
      rw [score_of_isLeaf rfl hleaf, hnone]
      simp [hleaf]
    | false =>
      rw [score_eq_worth_mul hshallow hleaf, List.map_congr_left ih,
        List.filter_cons_of_pos (by simp [hleaf]), List.map_cons, List.prod_cons,
        List.filter_flatMap, List.map_flatMap, List.flatMap_def, List.prod_flatten, List.map_map,
        List.map_reverse, List.prod_reverse]
      rfl

/-- A grammar of shallow rules gives a tree the product of what the productions of its inner
nodes are worth, if less than 2^64 was added for each root label. -/
theorem treeScore_eq_prod_worth {calls : List (Tree α × UInt64)}
    (hshallow : ∀ c ∈ calls, c.1.Shallow)
    (hamount : ∀ a, RuleSet.amount (calls.filter fun c => c.1.rootLabel == a) < UInt64.size)
    (fallback : Bool) (t : Tree α) :
    (exact (RuleSource.read ((Grammar.empty : Grammar α UInt64).addAll calls).productionsFor)
        ⟨(· == ·), .exact⟩ fallback none).treeScore t =
      .ok ((t.ids.filter fun v => !t.isLeaf v).map
        (((Grammar.empty : Grammar α UInt64).addAll calls).read.worth fallback t)).prod := by
  have hshallow' : ∀ c ∈ RuleSet.inNumbers calls, c.1.Shallow :=
    List.forall_mem_map.2 hshallow
  rw [Grammar.read_productionsFor, Grammar.read_addAll hamount, treeScore_eq,
    score_eq_prod_worth hshallow']
  exact congrArg _ ((t.plan_perm_ids.filter _).map _).prod_eq

/-- The one rule covers the root, and the other, which was added zero times, leaves the node below
to the fallback. -/
theorem treeScore_eq_prod_worth_unseen :
    (∀ c ∈ [((.ofSubtrees 1 [[.leaf 2, .leaf 3]] : Tree Nat), (2 : UInt64)),
      (.ofSubtrees 2 [[.leaf 4]], 0)], c.1.Shallow) ∧
    (∀ a, RuleSet.amount ([((.ofSubtrees 1 [[.leaf 2, .leaf 3]] : Tree Nat), (2 : UInt64)),
      (.ofSubtrees 2 [[.leaf 4]], 0)].filter fun c => c.1.rootLabel == a) < UInt64.size) ∧
    (exact (RuleSource.read ((Grammar.empty : Grammar Nat UInt64).addAll
          [(.ofSubtrees 1 [[.leaf 2, .leaf 3]], 2), (.ofSubtrees 2 [[.leaf 4]], 0)]).productionsFor)
        ⟨(· == ·), .exact⟩ true none).treeScore
          (.ofSubtrees 1 [[.ofSubtrees 2 [[.leaf 4]], .leaf 3]]) =
      .ok (((Tree.ofSubtrees 1 [[.ofSubtrees 2 [[.leaf 4]], .leaf 3]]).ids.filter fun v =>
          !(Tree.ofSubtrees 1 [[.ofSubtrees 2 [[.leaf 4]], .leaf 3]]).isLeaf v).map
        (((Grammar.empty : Grammar Nat UInt64).addAll [(.ofSubtrees 1 [[.leaf 2, .leaf 3]], 2),
            (.ofSubtrees 2 [[.leaf 4]], 0)]).read.worth true
          (.ofSubtrees 1 [[.ofSubtrees 2 [[.leaf 4]], .leaf 3]]))).prod := by
  have hshallow : ∀ c ∈ [((.ofSubtrees 1 [[.leaf 2, .leaf 3]] : Tree Nat), (2 : UInt64)),
      (.ofSubtrees 2 [[.leaf 4]], 0)], c.1.Shallow := by decide +kernel
  have hamount : ∀ a, RuleSet.amount
      ([((.ofSubtrees 1 [[.leaf 2, .leaf 3]] : Tree Nat), (2 : UInt64)),
        (.ofSubtrees 2 [[.leaf 4]], 0)].filter fun c => c.1.rootLabel == a) < UInt64.size := by
    intro a
    refine (RuleSet.amount_filter_le _ _).trans_lt ?_
    decide
  exact ⟨hshallow, hamount, treeScore_eq_prod_worth hshallow hamount true _⟩

/-- A rule whose count ran over and is 0 again has no weight, and yet the production of the node
does not stand in for it. -/
theorem treeScore_ne_prod_worth_of_zero_count :
    (∀ c ∈ [((.ofSubtrees 1 [[.leaf 2]] : Tree Nat), (9223372036854775808 : UInt64)),
        (.ofSubtrees 1 [[.leaf 2]], 9223372036854775808), (.ofSubtrees 1 [[.leaf 3]], 1)],
      c.1.Shallow) ∧
    (exact (RuleSource.read ((Grammar.empty : Grammar Nat UInt64).addAll
          [(.ofSubtrees 1 [[.leaf 2]], 9223372036854775808),
            (.ofSubtrees 1 [[.leaf 2]], 9223372036854775808),
            (.ofSubtrees 1 [[.leaf 3]], 1)]).productionsFor)
        ⟨(· == ·), .exact⟩ true none).treeScore (.ofSubtrees 1 [[.leaf 2]]) = .ok 0 ∧
    (((Tree.ofSubtrees 1 [[.leaf 2]]).ids.filter fun v =>
          !(Tree.ofSubtrees 1 [[.leaf 2]]).isLeaf v).map
        (((Grammar.empty : Grammar Nat UInt64).addAll
          [(.ofSubtrees 1 [[.leaf 2]], 9223372036854775808),
            (.ofSubtrees 1 [[.leaf 2]], 9223372036854775808),
            (.ofSubtrees 1 [[.leaf 3]], 1)]).read.worth true (.ofSubtrees 1 [[.leaf 2]]))).prod =
      1 := by
  refine ⟨by decide +kernel, ?_, ?_⟩
  · refine (treeScore_eq _ _).trans (congrArg _ ?_)
    exact (score_of_above_leaves_words (by decide +kernel) (by decide +kernel) (by decide)
      (by decide +kernel) .exact true).trans (by decide +kernel)
  · have hinner : ((Tree.ofSubtrees 1 [[.leaf 2]]).ids.filter fun v =>
        !(Tree.ofSubtrees 1 [[.leaf (2 : Nat)]]).isLeaf v) = [0] := by decide +kernel
    have hworth : (((Grammar.empty : Grammar Nat UInt64).addAll
        [(.ofSubtrees 1 [[.leaf 2]], 9223372036854775808),
          (.ofSubtrees 1 [[.leaf 2]], 9223372036854775808),
          (.ofSubtrees 1 [[.leaf 3]], 1)]).read.worth true (.ofSubtrees 1 [[.leaf 2]])) 0 = 1 := by
      refine (Grammar.worth_read_addAll (by decide) (by decide +kernel) true).trans ?_
      decide +kernel
    rw [hinner, List.map_singleton, List.prod_singleton, hworth]

end Scorer

end TreeGrammar
