/-
# Scores of alike trees

A scorer sees of a tree its shape and, through look-ups and comparisons, its labels.  Where these
do not tell related labels apart (`Scorer.Confuses`), alike nodes have the same score
(`score_congr`): the rules that can be applied at the one can be applied at the other and lead to
alike nodes, and the productions are alike.  Labels that are the same are never told apart, so
the score of a node is that of the subtree on its own (`treeScore_subtree`).
-/
import TreeGrammar.Proofs.Match.Interchange
import TreeGrammar.Proofs.Score.Alternatives
import TreeGrammar.Proofs.Tree.OneLevel
import TreeGrammar.Proofs.Tree.Rose

namespace TreeGrammar

variable {α : Type} {R : α → α → Prop} {t u : Tree α} {v w : Nat}

/-- What is compared with a rule may be put in place of what is alike. -/
lemma Tree.structEq_congr_right {eq : α → α → Bool} {rule : Tree α} {r : Nat}
    (heq : ∀ a b c, R b c → eq a b = eq a c) (h : Alike R t u v w) :
    structEq eq rule r t v = structEq eq rule r u w := by
  rw [Bool.eq_iff_iff, structEq_iff_alike, structEq_iff_alike]
  constructor
  · intro hrule
    exact hrule.comp h fun a b c hab hbc => (heq a b c hbc).symm.trans hab
  · intro hrule
    exact hrule.comp h.flip fun a b c hab hbc => (heq a c b hbc).trans hab

namespace Scorer

/-- Neither look-ups nor comparisons tell related labels apart, and a posterior gives one weight
to alike rules. -/
structure Confuses {W : Type} (s : Scorer α W) (R : α → α → Prop) : Prop where
  source_eq : ∀ a b, R a b → s.source s.matcher.eq a = s.source s.matcher.eq b
  eq_eq : ∀ a b c, R b c → s.matcher.eq a b = s.matcher.eq a c
  weigh_eq : ∀ weigh, s.posterior = some weigh → ∀ r r' : Tree α,
    Tree.Alike R r r' Tree.root Tree.root → weigh r = weigh r'

lemma prod_map_congr {S : Nat → Nat → Prop} {f g : Nat → ℚ≥0} {vs ws : List Nat}
    (h : List.Forall₂ S vs ws) (hfg : ∀ x ∈ vs, ∀ y, S x y → f x = g y) :
    (vs.map f).prod = (ws.map g).prod := by
  have hmap : List.Forall₂ Eq (vs.map f) (ws.map g) := by
    refine List.rel_map ?_ (forall₂_mem h)
    rintro x y ⟨hx, -, hxy⟩
    exact hfg x hx y hxy
  rw [List.forall₂_eq_eq_eq] at hmap
  rw [hmap]

/-- Alike rules with one weight contribute the same at alike nodes, if this holds of the scores
below. -/
theorem ruleTerm_congr {Q : α → α → Prop} {m : Matcher α} {f g : Nat → ℚ≥0}
    {rule rule' : Tree α}
    (heq : ∀ a a' b b', Q a a' → R b b' → m.eq a b = m.eq a' b')
    (hrule : Tree.Alike Q rule rule' Tree.root Tree.root) (htree : Tree.Alike R t u v w)
    (hfg : ∀ x, t.Below v x → x ≠ v → ∀ y, Tree.Alike R t u x y → f x = g y) (x : ℚ≥0) :
    ruleTerm m t f v x rule = ruleTerm m u g w x rule' := by
  rw [ruleTerm, ruleTerm, ← Matcher.applies_congr heq hrule htree]
  split
  case isTrue happlies =>
    refine congrArg (x * ·) (prod_map_congr (Matcher.forall₂_leafSides hrule htree) ?_)
    intro y hy z hyz
    obtain ⟨hvy, hne⟩ := Matcher.below_of_mem_leafSides happlies hy
    exact hfg y hvy hne z hyz
  case isFalse => rfl

variable {s : Scorer α ℚ≥0}

lemma productionTerm_congr (hs : s.Confuses R) {f g : Nat → ℚ≥0} (h : Tree.Alike R t u v w)
    (hfg : ∀ x ∈ t.children v, ∀ y, Tree.Alike R t u x y → f x = g y) (rules : RuleSet α) :
    s.productionTerm t f v rules = s.productionTerm u g w rules := by
  have hknown : rules.containsBy s.matcher.eq (t.oneLevel v) =
      rules.containsBy s.matcher.eq (u.oneLevel w) := by
    simp only [RuleSet.containsBy, Tree.structEq_congr_right hs.eq_eq h.oneLevel]
  have hweight : s.productionWeight t v = s.productionWeight u w := by
    rw [productionWeight, productionWeight]
    split
    case h_1 weigh hweigh => exact hs.weigh_eq weigh hweigh _ _ h.oneLevel
    case h_2 => rfl
  rw [productionTerm, productionTerm, hknown, hweight,
    prod_map_congr h.forall₂_children hfg]

/-- Alike nodes have the same score. -/
theorem score_congr (hexact : s.weighting = .exact) (hs : s.Confuses R)
    (h : Tree.Alike R t u v w) : s.score t v = s.score u w := by
  induction v using induction_entry t (s.source s.matcher.eq) generalizing w with
  | leaf v hleaf => rw [score_of_isLeaf hexact hleaf, score_of_isLeaf hexact (h.isLeaf_eq ▸ hleaf)]
  | noEntry v hleaf hentry hchildren =>
    have hsource := hs.source_eq _ _ h.label
    rw [score_of_source_none hexact hleaf hentry,
      score_of_source_none hexact (h.isLeaf_eq ▸ hleaf) (hsource ▸ hentry)]
    exact prod_map_congr h.forall₂_children fun x hx y => hchildren x hx
  | entry v rules hleaf hentry hchildren hbelow =>
    have hsource := hs.source_eq _ _ h.label
    rw [score_of_source_some hexact hleaf hentry,
      score_of_source_some hexact (h.isLeaf_eq ▸ hleaf) (hsource ▸ hentry),
      productionTerm_congr hs h fun x hx y => hchildren x hx]
    refine congrArg (· + _) (congrArg List.sum (List.map_congr_left fun e _ => ?_))
    refine ruleTerm_congr ?_ (Tree.Alike.refl Eq.refl e.1 Tree.root) h
      (fun x hvx hne y => hbelow x hvx hne) _
    rintro a _ b c rfl hbc
    exact hs.eq_eq a b c hbc

/-! ### The whole tree -/

lemma treeScore_eq (s : Scorer α ℚ≥0) (t : Tree α) :
    s.treeScore t = .ok (s.score t Tree.root) := by
  rw [treeScore, scores_eq, ok_bind, read_eq (s.get?_filled_plan t t.root_lt_size)]

/-- The posterior, if there is one, gives one weight to equal rules. -/
def Respects [BEq α] (posterior : Option (Tree α → ℚ≥0)) : Prop :=
  ∀ weigh, posterior = some weigh → ∀ r r' : Tree α, (r == r') = true → weigh r = weigh r'

/-- Labels that are the same are never told apart. -/
lemma confuses_eq [BEq α] [ReflBEq α] {posterior : Option (Tree α → ℚ≥0)}
    (hweigh : Respects posterior) (source : RuleSource α) (m : Matcher α) (fallback : Bool) :
    (exact source m fallback posterior).Confuses Eq where
  source_eq _ _ h := h ▸ rfl
  eq_eq _ _ _ h := h ▸ rfl
  weigh_eq weigh hsome r r' h :=
    hweigh weigh hsome r r' (Tree.beq_iff_alike.2 (h.imp fun _ _ hab => hab ▸ BEq.rfl))

/-- The score of a node is that of the subtree on its own. -/
theorem treeScore_subtree (hexact : s.weighting = .exact) (hs : s.Confuses Eq) (t : Tree α)
    (v : Nat) : s.treeScore (t.subtree v) = .ok (s.score t v) := by
  rw [treeScore_eq, score_congr hexact hs (t.alike_subtree v)]

end Scorer

end TreeGrammar
