/-
# The score of a node as a sum over the rules

With exact weights the score of an inner node with an entry is the sum of what all rules of the
entry contribute and of what the production contributes in place of a missing rule
(`score_of_source_some`).  A rule that cannot be applied contributes nothing, and any other its
weight times the scores of the nodes that face its leaves.  What is shown of scores by induction
has three cases (`induction_entry`): leaves, inner nodes without an entry, where only the children
matter, and inner nodes with one, where all that is below does.

Above leaves only, a score is a sum of weights, whatever the rules leave uncovered
(`score_of_above_leaves`), so that it can be read off the counts, also where these ran over
(`score_of_above_leaves_words`).
-/
import TreeGrammar.Proofs.Grammar.Words
import TreeGrammar.Proofs.Match.Shallow
import TreeGrammar.Proofs.Score.Derivations

namespace TreeGrammar.Scorer

variable {α : Type}

lemma sum_map_filter {β : Type} (p : β → Bool) (g : β → ℚ≥0) (xs : List β) :
    ((xs.filter p).map g).sum = (xs.map fun x => if p x then g x else 0).sum := by
  induction xs with
  | nil => rfl
  | cons x xs ih =>
    rw [List.filter_cons, List.map_cons, List.sum_cons, ← ih]
    cases p x with
    | true => simp
    | false => simp

lemma prod_map_mono {f g : Nat → ℚ≥0} {vs : List Nat} (h : ∀ w ∈ vs, f w ≤ g w) :
    (vs.map f).prod ≤ (vs.map g).prod :=
  List.prod_map_le_prod_map₀ f g (fun _ _ => zero_le) h

/-- What a rule of weight `x` contributes to the score of `v`, if `f` gives the scores of what
is below. -/
def ruleTerm (m : Matcher α) (t : Tree α) (f : Nat → ℚ≥0) (v : Nat) (x : ℚ≥0)
    (rule : Tree α) : ℚ≥0 :=
  if m.applies rule t v then
    x * ((Matcher.leafSides rule (Matcher.facing rule t (Tree.root, v))).map f).prod
  else 0

/-- What a rule contributes grows with the scores below, and with the rules that can be applied. -/
lemma ruleTerm_mono {m m' : Matcher α} {t : Tree α} {f g : Nat → ℚ≥0} {v : Nat} {rule : Tree α}
    (happlies : m.applies rule t v = true → m'.applies rule t v = true)
    (h : ∀ w, t.Below v w → w ≠ v → f w ≤ g w) (x : ℚ≥0) :
    ruleTerm m t f v x rule ≤ ruleTerm m' t g v x rule := by
  rw [ruleTerm]
  split
  case isTrue hrule =>
    rw [ruleTerm, if_pos (happlies hrule)]
    refine mul_le_mul_right (prod_map_mono fun w hw => ?_) x
    obtain ⟨hvw, hne⟩ := Matcher.below_of_mem_leafSides hrule hw
    exact h w hvw hne
  case isFalse => exact zero_le

/-- A rule that is equal to the production of a node leads to the children. -/
lemma ruleTerm_of_structEq {m : Matcher α} {t : Tree α} {f : Nat → ℚ≥0} {v : Nat}
    (hleaf : t.isLeaf v = false) {rule : Tree α}
    (h : Tree.structEq m.eq rule Tree.root (t.oneLevel v) Tree.root = true) (x : ℚ≥0) :
    ruleTerm m t f v x rule = x * ((t.children v).map f).prod := by
  obtain ⟨hshallow, happlies⟩ := (Matcher.structEq_oneLevel_iff hleaf).1 h
  rw [ruleTerm, if_pos (Matcher.applies_of_exact happlies m.policy),
    Matcher.leafSides_of_shallow rfl hshallow happlies, List.map_reverse, List.prod_reverse]

/-- What the production of `v` contributes in place of a missing rule. -/
def productionTerm (s : Scorer α ℚ≥0) (t : Tree α) (f : Nat → ℚ≥0) (v : Nat)
    (rules : RuleSet α) : ℚ≥0 :=
  if s.fallback && !rules.containsBy s.matcher.eq (t.oneLevel v) then
    s.productionWeight t v * ((t.children v).map f).prod
  else 0

section

variable {s : Scorer α ℚ≥0} (hexact : s.weighting = .exact) {t : Tree α} {v : Nat}

include hexact

lemma sum_ruleTerms (f : Nat → ℚ≥0) (rules : RuleSet α) :
    (s.ruleTerms t f v rules).sum =
      (rules.toList.map fun e =>
        ruleTerm s.matcher t f v (s.ruleWeight rules e.1 e.2) e.1).sum := by
  rw [ruleTerms, sum_map_filter]
  refine congrArg List.sum (List.map_congr_left fun e _ => ?_)
  rw [ruleTerm]
  split
  case isTrue happlies => exact times_leafSet hexact f happlies _
  case isFalse => rfl

lemma sum_fallbackTerm? (f : Nat → ℚ≥0) (rules : RuleSet α) :
    (s.fallbackTerm? t f v rules).toList.sum = s.productionTerm t f v rules := by
  rw [fallbackTerm?, productionTerm, times_eq_mul_prod hexact, hexact]
  split
  · simp [Weighting.exact]
  · rfl

lemma score_of_isLeaf (hleaf : t.isLeaf v = true) : s.score t v = 1 := by
  rw [score_eq, combine, if_pos hleaf, hexact]
  rfl

lemma score_of_source_none (hleaf : t.isLeaf v = false)
    (hnone : s.source s.matcher.eq (t.label v) = none) :
    s.score t v = ((t.children v).map (s.score t)).prod := by
  rw [score_eq, combine, if_neg (by simp [hleaf]), hnone]
  simp [times_eq_mul_prod hexact, hexact, Weighting.exact]

theorem score_of_source_some (hleaf : t.isLeaf v = false) {rules : RuleSet α}
    (hsome : s.source s.matcher.eq (t.label v) = some rules) :
    s.score t v =
      (rules.toList.map fun e =>
        ruleTerm s.matcher t (s.score t) v (s.ruleWeight rules e.1 e.2) e.1).sum +
      s.productionTerm t (s.score t) v rules := by
  rw [← sum_ruleTerms hexact, ← sum_fallbackTerm? hexact, ← List.sum_append, score_eq, combine,
    if_neg (by simp [hleaf]), hsome]
  simp only [hexact]
  rfl

/-- Above leaves only, a rule that can be applied contributes its weight, and so does the
production. -/
theorem score_of_above_leaves (hleaf : t.isLeaf v = false)
    (hleaves : ∀ w ∈ t.children v, t.isLeaf w = true) {rules : RuleSet α}
    (hsome : s.source s.matcher.eq (t.label v) = some rules) :
    s.score t v =
      ((rules.toList.filter fun e => s.matcher.applies e.1 t v).map fun e =>
        s.ruleWeight rules e.1 e.2).sum +
      if s.fallback && !rules.containsBy s.matcher.eq (t.oneLevel v) then s.productionWeight t v
      else 0 := by
  have hone : ∀ w ∈ t.children v, s.score t w = 1 :=
    fun w hw => score_of_isLeaf hexact (hleaves w hw)
  have hbelow : ∀ w, t.Below v w → w ≠ v → s.score t w = 1 := by
    intro w hw hne
    obtain rfl | ⟨c, hc, hcw⟩ := hw.cases_child
    · exact absurd rfl hne
    · -- nothing hangs below a child
      rcases hcw.cases_child with rfl | ⟨d, hd, -⟩
      · exact hone c hc
      · rw [(t.isLeaf_iff c).1 (hleaves c hc)] at hd
        cases hd
  have hprod : ∀ {vs : List Nat}, (∀ w ∈ vs, s.score t w = 1) → (vs.map (s.score t)).prod = 1 := by
    intro vs hvs
    rw [List.map_congr_left hvs]
    simp
  rw [score_of_source_some hexact hleaf hsome, sum_map_filter, productionTerm, hprod hone, mul_one]
  refine congrArg (· + _) (congrArg List.sum (List.map_congr_left fun e _ => ?_))
  rw [ruleTerm]
  split
  case isTrue happlies =>
    rw [hprod fun w hw => ?_, mul_one]
    obtain ⟨hvw, hne⟩ := Matcher.below_of_mem_leafSides happlies hw
    exact hbelow w hvw hne
  case isFalse => rfl

end

section

variable [BEq α] [EquivBEq α] [Hashable α] [LawfulHashable α]

open RuleSet (inNumbers added firsts amount)

/-- The score of a node above leaves under a grammar whose counts are kept in words. -/
theorem score_of_above_leaves_words {t : Tree α} {v : Nat} (hleaf : t.isLeaf v = false)
    (hleaves : ∀ w ∈ t.children v, t.isLeaf w = true) {calls : List (Tree α × UInt64)}
    (hcalls : calls ≠ [])
    (hlabels : ∀ c ∈ calls, (c.1.rootLabel == t.label v) = true) (policy : ArityPolicy)
    (fallback : Bool) :
    (exact (RuleSource.read ((Grammar.empty : Grammar α UInt64).addAll calls).productionsFor)
        ⟨(· == ·), policy⟩ fallback none).score t v =
      (((firsts (inNumbers calls)).filter fun r => Matcher.applies ⟨(· == ·), policy⟩ r t v).map
        fun r => ((added (inNumbers calls) r % UInt64.size : ℕ) : ℚ≥0) /
          (amount calls % UInt64.size : ℕ)).sum +
      if fallback && !((firsts (inNumbers calls)).any (· == t.oneLevel v)) then 1 else 0 := by
  have hentry : RuleSource.read ((Grammar.empty : Grammar α UInt64).addAll calls).productionsFor
      (· == ·) (t.label v) = some (RuleSet.empty.addAll calls).read := by
    rw [RuleSource.read, Grammar.productionsFor_beq_addAll_words,
      Grammar.productions_addAll_of_label hcalls hlabels]
    rfl
  have hlist := RuleSet.toList_read_addAll Token.respects_digest calls
  have htotal := RuleSet.toNat_total_addAll Token.digest calls
  have hknown : (RuleSet.empty.addAll calls).read.containsBy (· == ·) (t.oneLevel v) =
      (firsts (inNumbers calls)).any (· == t.oneLevel v) := by
    rw [RuleSet.containsBy, ← Array.any_toList, ← RuleSet.toList, RuleSet.empty, hlist,
      List.any_map]
    rfl
  have happlies : ((RuleSet.empty.addAll calls).read.toList.filter fun e =>
      Matcher.applies ⟨(· == ·), policy⟩ e.1 t v) =
      ((firsts (inNumbers calls)).filter fun r =>
        Matcher.applies ⟨(· == ·), policy⟩ r t v).map fun r =>
          (r, added (inNumbers calls) r % UInt64.size) := by
    rw [RuleSet.empty, hlist, List.filter_map]
    rfl
  refine (score_of_above_leaves rfl hleaf hleaves hentry).trans ?_
  simp only [exact, hknown, happlies, List.map_map, ← htotal]
  rfl

end

/-- What holds of leaves, and of an inner node whenever it holds of its children or, if the node
has an entry, of all that is below it, holds of all nodes. -/
@[elab_as_elim]
theorem induction_entry {motive : Nat → Prop} (t : Tree α) (look : α → Option (RuleSet α))
    (leaf : ∀ v, t.isLeaf v = true → motive v)
    (noEntry : ∀ v, t.isLeaf v = false → look (t.label v) = none →
      (∀ w ∈ t.children v, motive w) → motive v)
    (entry : ∀ v rules, t.isLeaf v = false → look (t.label v) = some rules →
      (∀ w ∈ t.children v, motive w) → (∀ w, t.Below v w → w ≠ v → motive w) → motive v)
    (v : Nat) : motive v := by
  induction v using t.induction_below with
  | node v ih =>
    have hchildren : ∀ w ∈ t.children v, motive w := fun w hw =>
      ih w (.child hw) (Tree.ne_of_mem_children hw)
    cases hleaf : t.isLeaf v with
    | true => exact leaf v hleaf
    | false =>
      cases hentry : look (t.label v) with
      | none => exact noEntry v hleaf hentry hchildren
      | some rules => exact entry v rules hleaf hentry hchildren ih

end TreeGrammar.Scorer
