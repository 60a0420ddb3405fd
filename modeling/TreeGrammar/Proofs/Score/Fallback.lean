/-
# The fallback keeps every node derivable

The production of an inner node is covered by a rule set exactly if a shallow rule of the set can
be applied at the node with all children (`RuleSet.containsBy_oneLevel_iff`).  A rule that
covers the production can be applied under any policy.  So with the fallback switched on there is
always something to sum up, be it from a rule or from the production (`terms_ne_nil`).

Without a posterior all ways to open a node have positive weight, since a rule was added at least
once.  By induction up the tree every node has a positive score (`score_pos`).

This needs the counts as they were added.  A word that ran over may be 0, and then a rule stands in
the way of the production and has no weight itself.
-/
import TreeGrammar.Proofs.Score.Alternatives

namespace TreeGrammar.Scorer

/-! ### Midway through a query -/

section

variable {α W : Type} {s : Scorer α W} {t : Tree α} {v : Nat}

/-- When a query comes to a node, the table has the scores of the nodes before it, and those of
all nodes below. -/
theorem foldlM_step_eq {done rest : List Nat} (h : t.plan.reverse = done ++ v :: rest) :
    done.foldlM (s.step t) (.blank t.size) = .ok (s.filled t done.reverse) ∧
      Knows t (s.filled t done.reverse) (s.score t) v := by
  have hplan : t.plan = rest.reverse ++ v :: done.reverse := by
    rw [← List.reverse_reverse t.plan, h]
    simp
  have hplan' : t.plan = (rest.reverse ++ [v]) ++ done.reverse := by rw [hplan]; simp
  have hmem : ∀ w ∈ done.reverse, w ∈ t.plan := fun w hw => hplan' ▸ List.mem_append_right _ hw
  constructor
  · rw [← List.reverse_reverse done, List.foldlM_reverse, List.reverse_reverse]
    refine s.foldrM_step t done.reverse (fun w hw => Tree.mem_plan_iff.1 (hmem w hw)) ?_ ?_
    · refine (t.pairwise_preorder Tree.root).sublist ?_
      rw [← Tree.plan, hplan']
      exact List.sublist_append_right _ _
    · exact fun w hw x hx => Tree.mem_of_below_of_plan_eq hplan' hw hx
  · intro w hw hwv
    have hv : v < t.size := Tree.mem_plan_iff.1 (by simp [hplan])
    have hlater := Tree.mem_of_below_of_plan_eq hplan List.mem_cons_self hw
    rw [s.get?_filled t _ (hw.lt_size hv), if_pos ((List.mem_cons.1 hlater).resolve_left hwv)]

/-! ### A way to open every node -/

/-- A rule that covers the production of a node can be applied there. -/
lemma exists_applies_of_containsBy (hv : t.isLeaf v = false) {rules : RuleSet α}
    (h : rules.containsBy s.matcher.eq (t.oneLevel v) = true) :
    ∃ e ∈ rules.toList, s.matcher.applies e.1 t v = true := by
  obtain ⟨e, he, -, happlies⟩ := (RuleSet.containsBy_oneLevel_iff hv rules).1 h
  exact ⟨e, he, Matcher.applies_of_exact happlies s.matcher.policy⟩

/-- At an inner node with an entry there is something to sum up. -/
theorem terms_ne_nil (hfallback : s.fallback = true) (hv : t.isLeaf v = false) (f : Nat → W)
    (rules : RuleSet α) :
    s.ruleTerms t f v rules ++ (s.fallbackTerm? t f v rules).toList ≠ [] := by
  cases hknown : rules.containsBy s.matcher.eq (t.oneLevel v) with
  | true =>
    obtain ⟨e, he, happlies⟩ := exists_applies_of_containsBy hv hknown
    have hterms : s.ruleTerms t f v rules ≠ [] := by
      rw [ruleTerms, Ne, List.map_eq_nil_iff]
      exact List.ne_nil_of_mem (List.mem_filter.2 ⟨he, happlies⟩)
    simp [hterms]
  | false => simp [fallbackTerm?, hfallback, hknown]

end

/-! ### Positive scores -/

section

variable {α : Type} {s : Scorer α ℚ≥0} {t : Tree α} {v : Nat}

/-- There is a way to open every node. -/
theorem openings_ne_nil (hexact : s.weighting = .exact) (hfallback : s.fallback = true)
    (t : Tree α) (v : Nat) : s.openings t v ≠ [] := by
  rw [openings]
  split
  case isTrue => simp
  case isFalse hleaf =>
    cases s.source s.matcher.eq (t.label v) with
    | none => simp
    | some rules =>
      -- the openings are as many as the terms, whatever the scores below
      have hterms := terms_ne_nil hfallback (by simpa using hleaf) (fun _ => 0) rules
      rw [ruleTerms_eq_map hexact, fallbackTerm?_eq_map hexact, ← List.map_append] at hterms
      exact fun hnil => hterms (List.map_eq_nil_iff.2 hnil)

variable [BEq α]

/-- Where rules are weighed by their counts, no opening has weight zero. -/
lemma Opens.weight_pos (hexact : s.weighting = .exact) (hposterior : s.posterior = none)
    (hgrown : ∀ a rules, s.source s.matcher.eq a = some rules → rules.Grown) {choice : Choice}
    {x : ℚ≥0} {ws : List Nat} (h : s.Opens t v choice x ws) : 0 < x := by
  have hone : 0 < s.weighting.one := by rw [hexact]; exact one_pos
  cases h with
  | stop hleaf => exact hone
  | spread hleaf hnone => exact hone
  | @rule rules i n rule ws hleaf hsome hrule hroot hlies hws =>
    obtain ⟨hn, htotal⟩ :=
      (hgrown _ rules hsome).count_bounds _ (List.mem_of_getElem? hrule)
    have hn : 0 < n := hn
    have htotal : 0 < rules.total := hn.trans_le htotal
    have hweight : s.ruleWeight rules rule n = (n : ℚ≥0) / rules.total := by
      rw [ruleWeight, hposterior, hexact]
      rfl
    rw [hweight]
    exact div_pos (Nat.cast_pos.2 hn) (Nat.cast_pos.2 htotal)
  | production hleaf hsome hfallback hnew =>
    rw [productionWeight, hposterior]
    exact hone

theorem score_pos (hexact : s.weighting = .exact) (hposterior : s.posterior = none)
    (hfallback : s.fallback = true)
    (hgrown : ∀ a rules, s.source s.matcher.eq a = some rules → rules.Grown) (t : Tree α)
    (v : Nat) : 0 < s.score t v := by
  induction v using t.induction_below with
  | node v ih =>
    rw [score_eq, combine_eq_sum hexact]
    refine List.sum_pos _ ?_ (by simp [openings_ne_nil hexact hfallback])
    intro x hx
    obtain ⟨⟨choice, x, ws⟩, ho, rfl⟩ := List.mem_map.1 hx
    have hopens := mem_openings_iff.1 ho
    refine mul_pos (hopens.weight_pos hexact hposterior hgrown) (List.prod_pos ?_)
    intro y hy
    obtain ⟨w, hw, rfl⟩ := List.mem_map.1 hy
    obtain ⟨hvw, hne⟩ := hopens.below w hw
    exact ih w hvw hne

end

/-! ### The fallback -/

/-- What the production of an inner node is good for when labels are compared by `eq`. -/
structure FallbackFits {α : Type} [BEq α] (eq : α → α → Bool) (t : Tree α) : Prop where
  /-- A rule set covers the production if one of its rules stops at the children of its root
  and can be applied with all children. -/
  containsBy_iff : ∀ v, t.isLeaf v = false → ∀ {N : Type} (rules : RuleSet α N),
    rules.containsBy eq (t.oneLevel v) = true ↔
      ∃ e ∈ rules.toList, e.1.Shallow ∧ Matcher.applies ⟨eq, .exact⟩ e.1 t v = true
  /-- Such a rule can be applied under any policy, and leads to the children of the node. -/
  endpoints_perm : ∀ v rule, rule.Shallow → Matcher.applies ⟨eq, .exact⟩ rule t v = true →
    ∀ policy, Matcher.applies ⟨eq, policy⟩ rule t v = true ∧
      ∃ vs, Matcher.endpoints ⟨eq, policy⟩ rule t v = .ok vs ∧ vs.Perm (t.children v)
  /-- When a query comes to an inner node with an entry, the production stands in for a rule
  unless it is covered, and there is something to sum up in any case. -/
  candidates : ∀ {W : Type} (s : Scorer α W), s.matcher.eq = eq → s.fallback = true →
    ∀ done v rest, t.plan.reverse = done ++ v :: rest → t.isLeaf v = false →
    ∀ rules, s.source eq (t.label v) = some rules →
    ∃ table ws w?, done.foldlM (s.step t) (.blank t.size) = .ok table ∧
      s.matched t table v rules = .ok ws ∧ s.fallbackWeight? t table v rules = .ok w? ∧
      (w?.isSome = true ↔ rules.containsBy eq (t.oneLevel v) = false) ∧ ws ++ w?.toList ≠ []
  /-- Weighed by its counts, any grammar gives every node a positive score, if less than 2^64 was
  added to each of its rule sets. -/
  pos : ∀ (source : RuleSource α UInt64) (policy : ArityPolicy),
    (∀ a rules, source eq a = some rules → ∃ n < UInt64.size, rules.GrownBy n) →
    ∃ table, (exact source.read ⟨eq, policy⟩ true none).scores t = .ok table ∧
      ∀ v < t.size, ∃ x, table.get? v = some x ∧ 0 < x

/-- The fallback adds what is missing and nothing else, whatever the rules, the comparison and
the policy. -/
theorem fallback_fits {α : Type} [BEq α] (eq : α → α → Bool) (t : Tree α) :
    FallbackFits eq t where
  containsBy_iff v hv _ rules := RuleSet.containsBy_oneLevel_iff hv rules
  endpoints_perm v rule hshallow happlies policy :=
    ⟨Matcher.applies_of_exact happlies policy,
      Matcher.endpoints_of_shallow hshallow happlies policy⟩
  candidates := by
    rintro W s rfl hfallback done v rest hplan hv rules -
    obtain ⟨hrun, hknows⟩ := foldlM_step_eq (s := s) hplan
    refine ⟨_, _, _, hrun, matched_eq hknows rules, fallbackWeight?_eq hknows rules, ?_,
      terms_ne_nil hfallback hv _ rules⟩
    rw [fallbackTerm?, hfallback]
    cases rules.containsBy s.matcher.eq (t.oneLevel v) with
    | true => simp
    | false => simp
  pos := by
    intro source policy hgrown
    let s := exact source.read ⟨eq, policy⟩ true none
    refine ⟨_, s.scores_eq t, fun v hv => ⟨s.score t v, s.get?_filled_plan t hv, ?_⟩⟩
    exact score_pos rfl rfl rfl (RuleSource.grown_read hgrown) t v

/-- A grammar with an entry that is empty and one with a rule that asks for too many children, and
a comparison that is not symmetric. -/
theorem fallback_fits_beside_wide_rule :
    ∃ table,
      (exact (RuleSource.read (((Grammar.empty : Grammar Nat UInt64).openEntry 2).addCount
          (.ofSubtrees 1 [[.leaf 3, .leaf 3]]) 2).productionsFor)
        ⟨fun a b => decide (a ≤ b), .atMost⟩ true none).scores
          (.ofSubtrees 2 [[.ofSubtrees 1 [[.leaf 4]]]]) = .ok table ∧
      ∀ v < (Tree.ofSubtrees 2 [[.ofSubtrees 1 [[.leaf 4]]]]).size,
        ∃ x, table.get? v = some x ∧ 0 < x :=
  (fallback_fits (fun a b : Nat => decide (a ≤ b))
    (.ofSubtrees 2 [[.ofSubtrees 1 [[.leaf 4]]]])).pos _ .atMost fun _ _ hrules =>
      ((Grammar.grownWithin_empty.openEntry 2).addCount _ 2).productionsFor (by decide) hrules

/-- A rule that was added 2^63 times and once more as often is kept with the count 0, so that the
production of the node does not stand in for it. -/
theorem fallback_lost_to_zero_count :
    ∃ table,
      (exact (RuleSource.read ((Grammar.empty : Grammar Nat UInt64).addAll
          [(.ofSubtrees 1 [[.leaf 2]], 9223372036854775808),
            (.ofSubtrees 1 [[.leaf 2]], 9223372036854775808),
            (.ofSubtrees 1 [[.leaf 3]], 1)]).productionsFor)
        ⟨(· == ·), .exact⟩ true none).scores (.ofSubtrees 1 [[.leaf 2]]) = .ok table ∧
      table.get? 0 = some 0 := by
  refine ⟨_, scores_eq _ _, (get?_filled_plan _ _ (by decide +kernel)).trans (congrArg some ?_)⟩
  exact (score_of_above_leaves_words (by decide +kernel) (by decide +kernel) (by decide)
    (by decide +kernel) .exact true).trans (by decide +kernel)

end TreeGrammar.Scorer
