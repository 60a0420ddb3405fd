/-
# What does not show in a score

With exact weights scores depend on trees and grammars as values only.  Equal trees have one
score, whatever the order of their nodes and the number of empty slots at the end.  The score of a
node is that of its subtree.  And under equality of labels it is enough that two grammars have the
same rules up to equality, with the same counts (`score_congr_source`).  So the order in which a
grammar was filled does not show: equal rules are one rule, whichever of them came first and
stands for the others.
-/
import TreeGrammar.Proofs.Grammar.Entries
import TreeGrammar.Proofs.Score.Congruence

namespace TreeGrammar

variable {α : Type} [BEq α] [EquivBEq α]

/-! ### Rules up to equality -/

namespace RuleSet

/-- The rule sets have the same rules up to equality, and the same counts. -/
structure SameKinds (s s' : RuleSet α) : Prop where
  total_eq : s.total = s'.total
  kindCounts_perm : s.kindCounts.Perm s'.kindCounts

lemma containsBy_iff_kindCounts {s : RuleSet α} {rule : Tree α} :
    s.containsBy (· == ·) rule = true ↔
      ∃ k ∈ s.kindCounts, k.1 = Quotient.mk (kinds α) rule := by
  rw [containsBy, ← Array.any_toList, List.any_eq_true]
  constructor
  · rintro ⟨e, he, hrule⟩
    exact ⟨_, List.mem_map_of_mem he, Quotient.sound hrule⟩
  · rintro ⟨_, hk, hkind⟩
    obtain ⟨e, he, rfl⟩ := List.mem_map.1 hk
    exact ⟨e, he, Quotient.exact hkind⟩

lemma SameKinds.containsBy_eq {s s' : RuleSet α} (h : SameKinds s s') (rule : Tree α) :
    s.containsBy (· == ·) rule = s'.containsBy (· == ·) rule := by
  rw [Bool.eq_iff_iff, containsBy_iff_kindCounts, containsBy_iff_kindCounts]
  simp only [h.kindCounts_perm.mem_iff]

/-- The order of the additions does not change the rules and their counts. -/
lemma sameKinds_addAll {digest : List (Token α) → UInt64} (hdigest : Token.Respects digest)
    {calls calls' : List (Tree α × Nat)} (h : calls.Perm calls') :
    SameKinds ((emptyWith digest).addAll calls) ((emptyWith digest).addAll calls') where
  total_eq := by
    rw [(total_addAll hdigest calls).1, (total_addAll hdigest calls').1]
    exact (h.map _).sum_eq
  kindCounts_perm := by
    have hs := wellIndexed_addAll (wellIndexed_emptyWith hdigest) calls
    have hs' := wellIndexed_addAll (wellIndexed_emptyWith hdigest) calls'
    refine (List.perm_ext_iff_of_nodup (nodup_kindCounts hs) (nodup_kindCounts hs')).2 ?_
    rintro ⟨⟨rule⟩, n⟩
    exact (mem_kindCounts_iff hdigest).trans
      ((added_perm h rule).symm ▸ (mem_kindCounts_iff hdigest).symm)

end RuleSet

/-- The order of the additions does not change what a look-up by equality finds. -/
lemma Grammar.productionsFor_addAll_perm [Hashable α] [LawfulHashable α]
    {calls calls' : List (Tree α × Nat)} (h : calls.Perm calls') (a : α) :
    Option.Rel RuleSet.SameKinds ((empty.addAll calls).productionsFor (· == ·) a)
      ((empty.addAll calls').productionsFor (· == ·) a) := by
  obtain ⟨hg, hproductions⟩ := productions_addAll calls
  obtain ⟨hg', hproductions'⟩ := productions_addAll calls'
  rw [hg.productionsFor_beq, hg'.productionsFor_beq, hproductions, hproductions', ← h.any_eq]
  split
  · exact .some (RuleSet.sameKinds_addAll Token.respects_digest (h.filter _))
  · exact .none

namespace Scorer

/-! ### Grammars with the same rules -/

/-- The weight of a rule with `n` out of `total` occurrences. -/
def exactWeight (posterior : Option (Tree α → ℚ≥0)) (total : Nat) (rule : Tree α) (n : Nat) :
    ℚ≥0 :=
  match posterior with
  | some weigh => weigh rule
  | none => n / total

section

variable {source source' : RuleSource α} {policy : ArityPolicy} {fallback : Bool}
  {posterior : Option (Tree α → ℚ≥0)} {t : Tree α} {f g : Nat → ℚ≥0} {v : Nat}
  {rules rules' : RuleSet α}

omit [BEq α] [EquivBEq α] in
lemma ruleWeight_exact (m : Matcher α) (rule : Tree α) (n : Nat) :
    (exact source m fallback posterior).ruleWeight rules rule n =
      exactWeight posterior rules.total rule n := by
  cases posterior with
  | some weigh => rfl
  | none => rfl

/-- Under equality of labels, what a rule contributes depends on what it is equal to. -/
lemma ruleTerm_exactWeight_congr (hweigh : Respects posterior)
    (hfg : ∀ x, t.Below v x → x ≠ v → ∀ y, Tree.Alike Eq t t x y → f x = g y)
    {rule rule' : Tree α} (h : (rule == rule') = true) (total n : Nat) :
    ruleTerm ⟨(· == ·), policy⟩ t f v (exactWeight posterior total rule n) rule =
      ruleTerm ⟨(· == ·), policy⟩ t g v (exactWeight posterior total rule' n) rule' := by
  have hweight : exactWeight posterior total rule n = exactWeight posterior total rule' n := by
    cases posterior with
    | some weigh => exact hweigh weigh rfl rule rule' h
    | none => rfl
  rw [hweight]
  refine ruleTerm_congr ?_ (Tree.beq_iff_alike.1 h) (Tree.Alike.refl Eq.refl t v) hfg _
  rintro a a' b _ haa' rfl
  exact BEq.congr_left haa'

/-- Rules that are the same up to equality contribute the same in sum. -/
lemma sum_ruleTerms_congr (hweigh : Respects posterior)
    (hfg : ∀ x, t.Below v x → x ≠ v → ∀ y, Tree.Alike Eq t t x y → f x = g y)
    (hg : ∀ x y, Tree.Alike Eq t t x y → g x = g y) (h : rules.SameKinds rules') :
    (rules.toList.map fun e => ruleTerm ⟨(· == ·), policy⟩ t f v
        (exactWeight posterior rules.total e.1 e.2) e.1).sum =
      (rules'.toList.map fun e => ruleTerm ⟨(· == ·), policy⟩ t g v
        (exactWeight posterior rules'.total e.1 e.2) e.1).sum := by
  let term : Quotient (RuleSet.kinds α) × Nat → ℚ≥0 := fun k =>
    Quotient.lift (fun rule => ruleTerm ⟨(· == ·), policy⟩ t g v
        (exactWeight posterior rules.total rule k.2) rule)
      (fun _ _ hkind => ruleTerm_exactWeight_congr hweigh (fun x _ _ y hxy => hg x y hxy) hkind
        rules.total k.2) k.1
  have hbefore : (rules.toList.map fun e => ruleTerm ⟨(· == ·), policy⟩ t f v
      (exactWeight posterior rules.total e.1 e.2) e.1) = rules.kindCounts.map term := by
    rw [RuleSet.kindCounts, List.map_map]
    exact List.map_congr_left fun e _ =>
      ruleTerm_exactWeight_congr hweigh hfg BEq.rfl rules.total e.2
  have hafter : (rules'.toList.map fun e => ruleTerm ⟨(· == ·), policy⟩ t g v
      (exactWeight posterior rules'.total e.1 e.2) e.1) = rules'.kindCounts.map term := by
    rw [RuleSet.kindCounts, List.map_map, ← h.total_eq]
    rfl
  rw [hbefore, hafter, (h.kindCounts_perm.map term).sum_eq]

/-- Under equality of labels, grammars with the same rules up to equality give the same
scores. -/
theorem score_congr_source (hweigh : Respects posterior)
    (hsource : ∀ a, Option.Rel RuleSet.SameKinds (source (· == ·) a) (source' (· == ·) a))
    (t : Tree α) (v : Nat) :
    (exact source ⟨(· == ·), policy⟩ fallback posterior).score t v =
      (exact source' ⟨(· == ·), policy⟩ fallback posterior).score t v := by
  have hconfuses : (exact source' ⟨(· == ·), policy⟩ fallback posterior).Confuses Eq :=
    confuses_eq hweigh _ _ _
  induction v using induction_entry t (source (· == ·)) with
  | leaf v hleaf => rw [score_of_isLeaf rfl hleaf, score_of_isLeaf rfl hleaf]
  | noEntry v hleaf hentry ih =>
    have hfound := hsource (t.label v)
    rw [hentry] at hfound
    generalize hafter : source' (· == ·) (t.label v) = found' at hfound
    cases hfound with
    | none =>
      rw [score_of_source_none rfl hleaf hentry, score_of_source_none rfl hleaf hafter,
        List.map_congr_left ih]
  | entry v rules hleaf hentry ih hbelow =>
    have hfound := hsource (t.label v)
    rw [hentry] at hfound
    generalize hafter : source' (· == ·) (t.label v) = found' at hfound
    cases hfound with
    | @some rules rules' hsame =>
      have hchildren := List.map_congr_left ih
      rw [score_of_source_some rfl hleaf hentry, score_of_source_some rfl hleaf hafter]
      simp only [ruleWeight_exact]
      congr 1
      · refine sum_ruleTerms_congr hweigh (fun x hvx hne y hxy => ?_)
          (fun x y hxy => score_congr rfl hconfuses hxy) hsame
        exact (hbelow x hvx hne).trans (score_congr rfl hconfuses hxy)
      · have hknown := hsame.containsBy_eq (t.oneLevel v)
        simp only [productionTerm, exact, hknown] at hchildren ⊢
        rw [hchildren]
        rfl

end

/-! ### Equal trees and equal grammars -/

omit [BEq α] [EquivBEq α] in
/-- The table holds the scores and nothing else. -/
lemma scores_congr {W : Type} {s s' : Scorer α W} {t : Tree α}
    (h : ∀ v, s.score t v = s'.score t v) : s.scores t = s'.scores t := by
  rw [scores_eq, scores_eq, filled_plan, filled_plan]
  simp only [h]

/-- What scores under a posterior do not depend on. -/
structure IgnoresRepresentation [Hashable α] (fallback : Bool)
    (posterior : Option (Tree α → ℚ≥0)) : Prop where
  /-- Where equal labels are the same, equal trees have one score. -/
  of_lawfulBEq : LawfulBEq α → ∀ (source : RuleSource α) (m : Matcher α) (t u : Tree α),
    (t == u) = true → ∃ x, (exact source m fallback posterior).treeScore t = .ok x ∧
      (exact source m fallback posterior).treeScore u = .ok x
  /-- So they have where no comparison tells equal labels apart. -/
  of_beq : ∀ (g : Grammar α) (m : Matcher α),
    (∀ a b c, (b == c) = true → m.eq a b = m.eq a c) → ∀ t u : Tree α, (t == u) = true →
    ∃ x, (exact g.productionsFor m fallback posterior).treeScore t = .ok x ∧
      (exact g.productionsFor m fallback posterior).treeScore u = .ok x
  /-- The table has for every node the score of the subtree on its own. -/
  subtree : ∀ (source : RuleSource α) (m : Matcher α) (t : Tree α),
    ∃ table, (exact source m fallback posterior).scores t = .ok table ∧
      ∀ v < t.size, ∃ x, table.get? v = some x ∧
        (exact source m fallback posterior).treeScore (t.subtree v) = .ok x
  /-- Under equality of labels the order of the additions does not show in the table. -/
  perm : ∀ (policy : ArityPolicy) (calls calls' : List (Tree α × Nat)), calls.Perm calls' →
    ∀ t : Tree α, ∃ table,
      (exact (Grammar.empty.addAll calls).productionsFor ⟨(· == ·), policy⟩ fallback
        posterior).scores t = .ok table ∧
      (exact (Grammar.empty.addAll calls').productionsFor ⟨(· == ·), policy⟩ fallback
        posterior).scores t = .ok table

/-- Scores depend on trees and grammars as values only. -/
theorem scores_ignore_representation [Hashable α] [LawfulHashable α] (fallback : Bool)
    {posterior : Option (Tree α → ℚ≥0)} (hweigh : Respects posterior) :
    IgnoresRepresentation fallback posterior where
  of_lawfulBEq := by
    intro hlawful source m t u htu
    refine ⟨_, treeScore_eq _ t, ?_⟩
    have halike := (Tree.beq_iff_alike.1 htu).imp fun _ _ hab => eq_of_beq hab
    rw [treeScore_eq, score_congr rfl (confuses_eq hweigh source m fallback) halike]
  of_beq := by
    intro g m heq t u htu
    have hconfuses : (exact g.productionsFor m fallback posterior).Confuses
        (fun a b => (a == b) = true) := by
      refine ⟨fun a b hab => ?_, heq, fun weigh hsome r r' hr => ?_⟩
      · exact g.productionsFor_congr (fun c => heq c a b hab) hab
      · exact hweigh weigh hsome r r' (Tree.beq_iff_alike.2 hr)
    refine ⟨_, treeScore_eq _ t, ?_⟩
    rw [treeScore_eq, score_congr rfl hconfuses (Tree.beq_iff_alike.1 htu)]
  subtree := by
    intro source m t
    refine ⟨_, scores_eq _ t, fun v hv => ⟨_, get?_filled_plan _ t hv, ?_⟩⟩
    exact treeScore_subtree rfl (confuses_eq hweigh source m fallback) t v
  perm := by
    intro policy calls calls' h t
    refine ⟨_, scores_eq _ t, (scores_congr fun v => ?_).trans (scores_eq _ t)⟩
    exact (score_congr_source hweigh (Grammar.productionsFor_addAll_perm h) t v).symm

/-- A posterior that singles out one rule and those equal to it. -/
theorem scores_ignore_representation_listed :
    Respects (some fun r : Tree Nat => if r == .ofSubtrees 1 [[.leaf 2]] then 3 / 4 else 1 / 2) ∧
      IgnoresRepresentation true
        (some fun r : Tree Nat => if r == .ofSubtrees 1 [[.leaf 2]] then 3 / 4 else 1 / 2) := by
  have hweigh : Respects
      (some fun r : Tree Nat => if r == .ofSubtrees 1 [[.leaf 2]] then 3 / 4 else 1 / 2) := by
    intro weigh hsome r r' h
    cases hsome
    simp only [BEq.congr_left h]
  exact ⟨hweigh, scores_ignore_representation true hweigh⟩

end Scorer

end TreeGrammar
