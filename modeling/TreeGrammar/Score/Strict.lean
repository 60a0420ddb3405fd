/-
# Scores of derivation trees, strictly

The scorer with a check in front of every reading of a tree, be it the scored one, a rule or
the production of a node.  Every reading turns out to find a node, so that the checks change
nothing: `Scorer.strictScores_eq`.
-/
import TreeGrammar.Match.Strict
import TreeGrammar.Score.Basic

namespace TreeGrammar

/-- `containsBy`, stopping at what is no node. -/
def RuleSet.strictContainsBy {α ε : Type} (s : RuleSet α) (eq : α → α → Bool)
    (rule : Tree α) : Strict ε Bool :=
  s.toList.anyM fun e => Tree.strictStructEq eq e.1 Tree.root rule Tree.root

theorem RuleSet.strictContainsBy_eq {α ε : Type} (s : RuleSet α) (eq : α → α → Bool)
    (rule : Tree α) : s.strictContainsBy (ε := ε) eq rule = .ok (s.containsBy eq rule) := by
  rw [strictContainsBy, containsBy, ← Array.any_toList, toList]
  induction s.entries.toList with
  | nil => rfl
  | cons e entries ih =>
    rw [List.anyM, Tree.strictStructEq_eq eq _ _ e.1.root_lt_size rule.root_lt_size, ih, ok_bind,
      List.any_cons]
    cases Tree.structEq eq e.1 Tree.root rule Tree.root with
    | true => rfl
    | false => rfl

namespace Scorer

variable {α W : Type}

/-- The weight of a rule times the scores of its endpoints, if it can be applied. -/
def strictRuleScore? (s : Scorer α W) (t : Tree α) (table : ScoreTable W) (v : Nat)
    (rules : RuleSet α) (e : Tree α × Nat) : Strict ScoreError (Option W) := do
  if ← s.matcher.strictApplies e.1 t v then
    let vs ← (s.matcher.strictEndpoints e.1 t v).mapError (.map .endpoints)
    let x ← (s.timesScores table (s.ruleWeight rules e.1 e.2) vs).mapError .failed
    return some x
  else return none

/-- `matched`, stopping at what is no node. -/
def strictMatched (s : Scorer α W) (t : Tree α) (table : ScoreTable W) (v : Nat)
    (rules : RuleSet α) : Strict ScoreError (List W) :=
  rules.toList.filterMapM (s.strictRuleScore? t table v rules)

/-- `fallbackWeight?`, stopping at what is no node. -/
def strictFallbackWeight? (s : Scorer α W) (t : Tree α) (table : ScoreTable W) (v : Nat)
    (rules : RuleSet α) : Strict ScoreError (Option W) := do
  if s.fallback then
    let production ← t.strictOneLevel v
    if ← rules.strictContainsBy s.matcher.eq production then return none
    else
      let x := match s.posterior with
        | some weigh => weigh production
        | none => s.weighting.one
      t.guard v
      return some (s.weighting.mul x (← (s.childrenScore t table v).mapError .failed))
  else return none

/-- `nodeScore`, stopping at what is no node. -/
def strictNodeScore (s : Scorer α W) (t : Tree α) (table : ScoreTable W) (v : Nat) :
    Strict ScoreError W := do
  t.guard v
  if t.isLeaf v then return s.weighting.one
  else
    match s.source s.matcher.eq (t.label v) with
    | none => (s.childrenScore t table v).mapError .failed
    | some rules =>
      let ws ← s.strictMatched t table v rules
      let w? ← s.strictFallbackWeight? t table v rules
      return s.weighting.sum (ws ++ w?.toList)

/-- `step`, stopping at what is no node. -/
def strictStep (s : Scorer α W) (t : Tree α) (table : ScoreTable W) (v : Nat) :
    Strict ScoreError (ScoreTable W) := do
  let x ← s.strictNodeScore t table v
  (table.insert v x).mapError fun e => .failed (.table e)

/-- `scores`, stopping at what is no node. -/
def strictScores (s : Scorer α W) (t : Tree α) : Strict ScoreError (ScoreTable W) := do
  let order ← t.strictSchedule
  order.reverse.foldlM (s.strictStep t) (.blank t.size)

section

variable (s : Scorer α W) (t : Tree α) (table : ScoreTable W) {v : Nat}

theorem strictMatched_eq (rules : RuleSet α) (hv : v < t.size) :
    s.strictMatched t table v rules = (s.matched t table v rules).mapError .failed := by
  rw [strictMatched, matched]
  induction rules.toList with
  | nil => rfl
  | cons e entries ih =>
    rw [List.filterMapM_cons, strictRuleScore?, s.matcher.strictApplies_eq e.1 t hv, ok_bind,
      ih, List.filter_cons]
    split
    · rw [List.mapM_cons, ruleScore, s.matcher.strictEndpoints_eq e.1 t hv]
      cases s.matcher.endpoints e.1 t v with
      | error e => rfl
      | ok vs =>
        simp only [mapError_ok, ok_bind, mapError_bind]
        cases s.timesScores table (s.ruleWeight rules e.1 e.2) vs with
        | error e => rfl
        | ok x => rfl
    · rfl

theorem strictFallbackWeight?_eq (rules : RuleSet α) (hv : v < t.size) :
    s.strictFallbackWeight? t table v rules =
      (s.fallbackWeight? t table v rules).mapError .failed := by
  rw [strictFallbackWeight?, fallbackWeight?, t.strictOneLevel_eq hv, t.guard_of_lt hv]
  simp only [ok_bind, rules.strictContainsBy_eq]
  split
  · split
    · rfl
    · cases s.childrenScore t table v with
      | error e => rfl
      | ok x => rfl
  · rfl

theorem strictNodeScore_eq (hv : v < t.size) :
    s.strictNodeScore t table v = (s.nodeScore t table v).mapError .failed := by
  rw [strictNodeScore, nodeScore, t.guard_of_lt hv, ok_bind]
  split
  · rfl
  · cases s.source s.matcher.eq (t.label v) with
    | none => rfl
    | some rules =>
      simp only [s.strictMatched_eq t table rules hv, s.strictFallbackWeight?_eq t table rules hv,
        mapError_bind]
      rfl

theorem strictStep_eq (hv : v < t.size) :
    s.strictStep t table v = (s.step t table v).mapError .failed := by
  rw [strictStep, step, s.strictNodeScore_eq t table hv, mapError_bind]
  congr 1
  funext x
  cases table.insert v x with
  | error e => rfl
  | ok table => rfl

end

theorem foldlM_strictStep_eq (s : Scorer α W) (t : Tree α) (vs : List Nat)
    (h : ∀ v ∈ vs, v < t.size) (table : ScoreTable W) :
    vs.foldlM (s.strictStep t) table = (vs.foldlM (s.step t) table).mapError .failed := by
  induction vs generalizing table with
  | nil => rfl
  | cons v vs ih =>
    obtain ⟨hv, hvs⟩ := List.forall_mem_cons.1 h
    rw [List.foldlM_cons, List.foldlM_cons, s.strictStep_eq t table hv, mapError_bind]
    simp only [ih hvs]

end Scorer

end TreeGrammar
