/-
# Scores by recursion

A node is scored from a table that has the scores of all nodes below it.  Then every reading
of the table succeeds, and every rule that can be applied has its endpoints, so the score is
what `Scorer.combine` makes of the scores below.  `Scorer.score` follows this equation down the
tree.

Reverse preorder comes to every node after all that is below it and to no node twice.  So the
table that is filled on the way has, at any time, the scores of the nodes that are done
(`foldrM_step`), and in the end those of all nodes (`scores_eq`).  No law of the weights is
used: the same holds of rounded logarithms.
-/
import TreeGrammar.Proofs.Match.Frontier
import TreeGrammar.Score.Strict

namespace TreeGrammar.Scorer

variable {α W : Type}

/-! ### One node -/

/-- The weight `x` times what `f` gives for the nodes. -/
def times (s : Scorer α W) (f : Nat → W) (x : W) (vs : List Nat) : W :=
  vs.foldl (fun x v => s.weighting.mul x (f v)) x

/-- The weight of the production of a node where it stands in for a missing rule. -/
def productionWeight (s : Scorer α W) (t : Tree α) (v : Nat) : W :=
  match s.posterior with
  | some weigh => weigh (t.oneLevel v)
  | none => s.weighting.one

/-- What each rule contributes that can be applied at `v`. -/
def ruleTerms (s : Scorer α W) (t : Tree α) (f : Nat → W) (v : Nat) (rules : RuleSet α) :
    List W :=
  (rules.toList.filter fun e => s.matcher.applies e.1 t v).map fun e =>
    s.times f (s.ruleWeight rules e.1 e.2) (Matcher.leafSet e.1 t v).toList

/-- What the production of `v` contributes, if it stands in for a missing rule. -/
def fallbackTerm? (s : Scorer α W) (t : Tree α) (f : Nat → W) (v : Nat) (rules : RuleSet α) :
    Option W :=
  if s.fallback && !rules.containsBy s.matcher.eq (t.oneLevel v) then
    some (s.weighting.mul (s.productionWeight t v)
      (s.times f s.weighting.one (t.children v)))
  else none

/-- The score of `v` if `f` gives the scores of what is below it. -/
def combine (s : Scorer α W) (t : Tree α) (f : Nat → W) (v : Nat) : W :=
  if t.isLeaf v then s.weighting.one
  else
    match s.source s.matcher.eq (t.label v) with
    | none => s.times f s.weighting.one (t.children v)
    | some rules =>
      s.weighting.sum (s.ruleTerms t f v rules ++ (s.fallbackTerm? t f v rules).toList)

section

variable {s : Scorer α W} {t : Tree α} {table : ScoreTable W} {f : Nat → W} {v : Nat}

lemma read_eq {x : W} (h : table.get? v = some x) : read table v = .ok x := by
  rw [read, ScoreTable.require, h]
  rfl

lemma timesScores_eq {vs : List Nat} (h : ∀ w ∈ vs, table.get? w = some (f w)) (x : W) :
    s.timesScores table x vs = .ok (s.times f x vs) := by
  induction vs generalizing x with
  | nil => rfl
  | cons w vs ih =>
    obtain ⟨hw, hvs⟩ := List.forall_mem_cons.1 h
    rw [timesScores, List.foldlM_cons, read_eq hw]
    exact ih hvs _

lemma mapM_eq_ok {β γ ε : Type} {g : β → Except ε γ} {g' : β → γ} {xs : List β}
    (h : ∀ x ∈ xs, g x = .ok (g' x)) : xs.mapM g = .ok (xs.map g') := by
  induction xs with
  | nil => rfl
  | cons x xs ih =>
    obtain ⟨hx, hxs⟩ := List.forall_mem_cons.1 h
    rw [List.mapM_cons, hx, ih hxs]
    rfl

/-- The table has what `f` gives for all that is below `v`. -/
def Knows (t : Tree α) (table : ScoreTable W) (f : Nat → W) (v : Nat) : Prop :=
  ∀ w, t.Below v w → w ≠ v → table.get? w = some (f w)

lemma Knows.children (h : Knows t table f v) :
    ∀ c ∈ t.children v, table.get? c = some (f c) := fun c hc =>
  h c (.child hc) (Tree.ne_of_mem_children hc)

lemma childrenScore_eq (h : Knows t table f v) :
    s.childrenScore t table v = .ok (s.times f s.weighting.one (t.children v)) :=
  timesScores_eq h.children _

/-- A rule that can be applied leads to nodes that have their scores. -/
lemma matched_eq (h : Knows t table f v) (rules : RuleSet α) :
    s.matched t table v rules = .ok (s.ruleTerms t f v rules) := by
  refine mapM_eq_ok fun e he => ?_
  have happlies : s.matcher.applies e.1 t v = true := by
    simpa using (List.mem_filter.1 he).2
  have hfrontier := Matcher.isFrontier_leafSet happlies
  rw [ruleScore, Matcher.endpoints_of_applies happlies]
  exact timesScores_eq (fun w hw => h w (hfrontier.below w hw).1 (hfrontier.below w hw).2) _

lemma fallbackWeight?_eq (h : Knows t table f v) (rules : RuleSet α) :
    s.fallbackWeight? t table v rules = .ok (s.fallbackTerm? t f v rules) := by
  rw [fallbackWeight?, fallbackTerm?, childrenScore_eq h, productionWeight]
  by_cases hfallback : s.fallback = true
  · by_cases hknown : rules.containsBy s.matcher.eq (t.oneLevel v) = true
    · simp only [hfallback, hknown, if_true]
      rfl
    · simp only [hfallback, hknown, if_true]
      rfl
  · simp only [hfallback]
    rfl

/-- With the scores of all that is below it a node has a score. -/
theorem nodeScore_eq (h : Knows t table f v) :
    s.nodeScore t table v = .ok (s.combine t f v) := by
  rw [nodeScore, combine]
  split
  case isTrue => rfl
  case isFalse =>
    cases s.source s.matcher.eq (t.label v) with
    | none => exact childrenScore_eq h
    | some rules =>
      simp only [matched_eq h rules, fallbackWeight?_eq h rules, ok_bind]
      rfl

end

/-! ### All nodes -/

/-- The score of `v`, from those of the nodes below it. -/
def score (s : Scorer α W) (t : Tree α) (v : Nat) : W :=
  s.combine t (fun w => if _h : v < w ∧ w < t.size then s.score t w else s.weighting.one) v
termination_by t.size - v
decreasing_by omega

/-- Only what is below a node matters for its score. -/
lemma combine_congr (s : Scorer α W) (t : Tree α) {f g : Nat → W} {v : Nat}
    (h : ∀ w, t.Below v w → w ≠ v → f w = g w) : s.combine t f v = s.combine t g v := by
  -- both are the score that is computed from a table of what `f` gives
  let table : ScoreTable W := ⟨(Array.range t.size).map fun w => some (f w)⟩
  have hf : Knows t table f v := by
    intro w hw hwv
    have hlt : w < t.size := hw.lt_size_of_ne hwv.symm
    simp [table, ScoreTable.get?, hlt]
  have hg : Knows t table g v := fun w hw hwv => by rw [hf w hw hwv, h w hw hwv]
  exact Except.ok.inj ((nodeScore_eq hf).symm.trans (nodeScore_eq hg))

theorem score_eq (s : Scorer α W) (t : Tree α) (v : Nat) :
    s.score t v = s.combine t (s.score t) v := by
  rw [score]
  refine s.combine_congr t fun w hw hwv => ?_
  have hle := hw.le
  have hlt : w < t.size := hw.lt_size_of_ne hwv.symm
  rw [dif_pos (by omega)]

/-- The table with the scores of the nodes that are done. -/
def filled (s : Scorer α W) (t : Tree α) (done : List Nat) : ScoreTable W :=
  ⟨(Array.range t.size).map fun v => if v ∈ done then some (s.score t v) else none⟩

lemma get?_filled (s : Scorer α W) (t : Tree α) (done : List Nat) {v : Nat} (hv : v < t.size) :
    (s.filled t done).get? v = if v ∈ done then some (s.score t v) else none := by
  simp [filled, ScoreTable.get?, hv]

lemma get?_filled_plan (s : Scorer α W) (t : Tree α) {v : Nat} (hv : v < t.size) :
    (s.filled t t.plan).get? v = some (s.score t v) := by
  rw [s.get?_filled t t.plan hv, if_pos (Tree.mem_plan_iff.2 hv)]

lemma filled_nil (s : Scorer α W) (t : Tree α) : s.filled t [] = .blank t.size := by
  simp [filled, ScoreTable.blank, Array.map_const']

lemma insert_filled (s : Scorer α W) (t : Tree α) {done : List Nat} {v : Nat}
    (hv : v < t.size) (hnew : v ∉ done) :
    (s.filled t done).insert v (s.score t v) = .ok (s.filled t (v :: done)) := by
  have hsize : v < (s.filled t done).cells.size := by simpa [filled] using hv
  rw [ScoreTable.insert, dif_pos hsize, if_neg (by simp [filled, hnew])]
  congr 2
  apply Array.ext
  · simp [filled]
  · intro w hw hw'
    rw [Array.getElem_set]
    by_cases hvw : v = w
    · simp [hvw]
    · simp [filled, hvw, Ne.symm hvw]

/-- A node whose descendants are done, and which is not, can be scored next. -/
lemma step_filled (s : Scorer α W) (t : Tree α) {done : List Nat} {v : Nat}
    (hv : v < t.size) (hnew : v ∉ done) (hbelow : ∀ w, t.Below v w → w ≠ v → w ∈ done) :
    s.step t (s.filled t done) v = .ok (s.filled t (v :: done)) := by
  have hknows : Knows t (s.filled t done) (s.score t) v := by
    intro w hw hwv
    rw [s.get?_filled t done (hw.lt_size hv), if_pos (hbelow w hw hwv)]
  rw [step, nodeScore_eq hknows, ← score_eq, ok_bind, s.insert_filled t hv hnew]
  rfl

/-- A list that has all that is below its members, and nothing in front of what is above it,
is scored from its end. -/
theorem foldrM_step (s : Scorer α W) (t : Tree α) (vs : List Nat)
    (hsize : ∀ v ∈ vs, v < t.size) (horder : vs.Pairwise fun a b => ¬ t.Below b a)
    (hclosed : ∀ v ∈ vs, ∀ w, t.Below v w → w ∈ vs) :
    vs.foldrM (fun v table => s.step t table v) (.blank t.size) = .ok (s.filled t vs) := by
  induction vs with
  | nil => rw [filled_nil]; rfl
  | cons v vs ih =>
    obtain ⟨hv, hvs⟩ := List.forall_mem_cons.1 hsize
    obtain ⟨hfirst, horder⟩ := List.pairwise_cons.1 horder
    have hlater : ∀ u ∈ vs, ∀ w, t.Below u w → w ∈ vs := by
      intro u hu w huw
      -- the first node is below none of the later ones
      rcases List.mem_cons.1 (hclosed u (List.mem_cons_of_mem _ hu) w huw) with rfl | hw
      · exact absurd huw (hfirst u hu)
      · exact hw
    rw [List.foldrM_cons, ih hvs horder hlater, ok_bind]
    refine s.step_filled t hv (fun hmem => hfirst v hmem (.refl v)) fun w hw hwv => ?_
    exact (List.mem_cons.1 (hclosed v List.mem_cons_self w hw)).resolve_left hwv

/-- All nodes get their scores. -/
theorem scores_eq (s : Scorer α W) (t : Tree α) : s.scores t = .ok (s.filled t t.plan) := by
  rw [scores, t.schedule_eq_plan, List.foldlM_reverse]
  refine s.foldrM_step t t.plan (fun v hv => Tree.mem_plan_iff.1 hv)
    (t.pairwise_preorder Tree.root) fun v hv w hw => ?_
  exact Tree.mem_plan_iff.2 (hw.lt_size (Tree.mem_plan_iff.1 hv))

lemma filled_plan (s : Scorer α W) (t : Tree α) :
    s.filled t t.plan = ⟨(Array.range t.size).map fun v => some (s.score t v)⟩ := by
  refine congrArg ScoreTable.mk (Array.map_congr_left fun v hv => ?_)
  rw [if_pos (Tree.mem_plan_iff.2 (Array.mem_range.1 hv))]

/-! ### The query -/

/-- Every position that is read is a node, and no slot is too short. -/
theorem strictScores_eq (s : Scorer α W) (t : Tree α) :
    s.strictScores t = (s.scores t).mapError .failed := by
  rw [strictScores, t.strictSchedule_eq, ok_bind, foldlM_strictStep_eq]
  · rfl
  · intro v hv
    rw [t.schedule_eq_plan] at hv
    exact Tree.mem_plan_iff.1 (List.mem_reverse.1 hv)

/-- The table has one score for each node of the tree, and leaves are certain. -/
structure IsAnswer (s : Scorer α W) (t : Tree α) (table : ScoreTable W) : Prop where
  isComplete : table.isComplete = true
  size_eq : table.size = t.size
  get?_isSome_iff : ∀ v, (table.get? v).isSome = true ↔ v < t.size
  keys_eq : table.toList.map (·.1) = t.ids
  /-- Among logarithms the weight one is zero. -/
  leaf : ∀ v < t.size, t.isLeaf v = true → table.get? v = some s.weighting.one

lemma isAnswer_filled_plan (s : Scorer α W) (t : Tree α) : s.IsAnswer t (s.filled t t.plan) := by
  have hget : ∀ v < t.size, (s.filled t t.plan).get? v = some (s.score t v) := fun v hv =>
    s.get?_filled_plan t hv
  rw [filled_plan] at hget ⊢
  constructor
  case isComplete =>
    rw [ScoreTable.isComplete, Array.all_eq_true]
    simp
  case size_eq => simp [ScoreTable.size, Array.countP_map, Function.comp_def]
  case get?_isSome_iff =>
    intro v
    by_cases hv : v < t.size
    · simp [hget v hv, hv]
    · simp [ScoreTable.get?, hv]
  case keys_eq =>
    simp only [ScoreTable.toList, Array.toList_map, Array.toList_range, List.zipIdx_map,
      List.filterMap_map, List.map_filterMap]
    simp [Tree.ids, List.range_eq_range']
  case leaf =>
    intro v hv hleaf
    rw [hget v hv, score_eq, combine, if_pos hleaf]

/-- A query never fails, whatever the rules, the comparison, the policy and the weights, and
answers with a score for each node. -/
theorem query_isAnswer (s : Scorer α W) (t : Tree α) :
    ∃ table, s.scores t = .ok table ∧ s.strictScores t = .ok table ∧ s.IsAnswer t table ∧
      ∃ x, s.treeScore t = .ok x ∧ table.get? Tree.root = some x := by
  have hanswer := s.isAnswer_filled_plan t
  obtain ⟨x, hx⟩ := Option.isSome_iff_exists.1
    ((hanswer.get?_isSome_iff Tree.root).2 t.root_lt_size)
  refine ⟨_, s.scores_eq t, ?_, hanswer, x, ?_, hx⟩
  · rw [strictScores_eq, scores_eq]
    rfl
  · rw [treeScore, scores_eq, ok_bind, read_eq hx]

end TreeGrammar.Scorer
