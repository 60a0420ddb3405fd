/-
# Sums in which something is undefined

When the greatest of several logarithms is looked for, what is undefined is passed over, and an
infinite greatest value is the answer.  So beside a number what is undefined makes the sum
undefined, but a sum in which there is no number is said to be zero, even if it has nothing but
undefined terms (`LogScale.sumExp_of_undefined`).  In floating point it is so whatever the power and
the logarithm, since none is computed (`LogScale.sumExp_eq_negInf`).

Then a node gets the score of a node without derivations although it may have some, if none of the
weights of its rules is defined (`Scorer.score_of_isNaN`).
-/
import TreeGrammar.Proofs.Score.Recurrence
import TreeGrammar.Proofs.Score.SumOfPowers

namespace TreeGrammar

open Extended (finite top undefined)

/-! ### Floating point -/

lemma isNaN_add {x : Float} (h : x.isNaN = true) (y : Float) : (x + y).isNaN = true := by
  have hx : x.toModel.unpack.isNaN = true := h
  show (Float.Model.add x.toModel y.toModel).unpack.isNaN = true
  rw [Float.Model.add]
  cases hunpack : x.toModel.unpack with
  | notANumber =>
    rw [Float.Model.UnpackedFloat.add]
    decide
  | _ =>
    rw [hunpack] at hx
    cases hx

lemma maxNumber_negInf {x : Float} (h : x.isNaN = true ∨ x = -1 / 0) :
    maxNumber (-1 / 0) x = -1 / 0 := by
  have hdefined : ¬ (-1 / 0 : Float).isNaN = true := by decide
  rw [maxNumber, if_neg hdefined]
  rcases h with h | rfl
  · rw [if_pos h]
  · rw [if_neg hdefined, ite_self]

/-- If no value is a number then no power is computed. -/
lemma LogScale.sumExp_eq_negInf (exp log : Float → Float) {xs : List Float}
    (h : ∀ x ∈ xs, x.isNaN = true ∨ x = -1 / 0) :
    (LogScale.ofFloat exp log).sumExp xs = -1 / 0 := by
  have hgreatest : xs.foldl maxNumber (-1 / 0) = -1 / 0 := by
    induction xs with
    | nil => rfl
    | cons x xs ih =>
      obtain ⟨hx, hxs⟩ := List.forall_mem_cons.1 h
      rw [List.foldl_cons, maxNumber_negInf hx, ih hxs]
  have hinfinite : (-1 / 0 : Float).isInf = true := by decide
  show (if (xs.foldl maxNumber (-1 / 0)).isInf then xs.foldl maxNumber (-1 / 0) else _) = _
  rw [hgreatest, if_pos hinfinite]

namespace Scorer

variable {α : Type} {s : Scorer α Float} {t : Tree α}

lemma isNaN_times (hweighting : s.weighting = .log2) (f : Nat → Float) {x : Float}
    (h : x.isNaN = true) (vs : List Nat) : (s.times f x vs).isNaN = true := by
  induction vs generalizing x with
  | nil => exact h
  | cons v vs ih =>
    rw [times, List.foldl_cons, hweighting]
    have := ih (isNaN_add h (f v))
    rwa [times, hweighting] at this

/-- If no rule has a weight that is defined then the score of a node with an entry is that of a node
without derivations. -/
theorem score_of_isNaN (hweighting : s.weighting = .log2) {weigh : Tree α → Float}
    (hposterior : s.posterior = some weigh) (h : ∀ rule, (weigh rule).isNaN = true) {v : Nat}
    (hleaf : t.isLeaf v = false) {rules : RuleSet α}
    (hentry : s.source s.matcher.eq (t.label v) = some rules) : s.score t v = -1 / 0 := by
  have hrules : ∀ x ∈ s.ruleTerms t (s.score t) v rules, x.isNaN = true := by
    refine List.forall_mem_map.2 fun e _ => ?_
    have hweight : s.ruleWeight rules e.1 e.2 = weigh e.1 := by rw [ruleWeight, hposterior]
    rw [hweight]
    exact isNaN_times hweighting _ (h e.1) _
  have hproduction : ∀ x ∈ s.fallbackTerm? t (s.score t) v rules, x.isNaN = true := by
    intro x hx
    rw [fallbackTerm?] at hx
    split at hx
    · have hweight : s.productionWeight t v = weigh (t.oneLevel v) := by
        rw [productionWeight, hposterior]
      rw [← Option.some.inj hx, hweight, hweighting]
      exact isNaN_add (h _) _
    · cases hx
  rw [score_eq, combine, hleaf, hentry, hweighting]
  refine LogScale.sumExp_eq_negInf _ _ fun x hx => .inl ?_
  rcases List.mem_append.1 hx with hx | hx
  · exact hrules x hx
  · exact hproduction x (Option.mem_toList.1 hx)

end Scorer

/-! ### What is undefined in a sum -/

namespace LogScale

/-- With any rounding the sum is zero if and only if all terms are zero or undefined, and undefined
if and only if a term is, beside a number and without the top.  In floating point too it is zero if all
terms are zero or undefined, and so are the scores of nodes whose rules have undefined weights. -/
theorem sumExp_of_undefined {α K : Type} [Field K] [LinearOrder K] [IsStrictOrderedRing K]
    {A : Extended.Arithmetic K} (h : A.Rounds) {xs : List (Extended K)}
    (hkeeps : ∀ x ∈ xs, A.Keeps x) :
    (A.scale.sumExp xs = .bottom ↔ ∀ x ∈ xs, x = .bottom ∨ x = undefined) ∧
    (A.scale.sumExp xs = undefined ↔ undefined ∈ xs ∧ top ∉ xs ∧ ∃ a, finite a ∈ xs) ∧
    (∀ (exp log : Float → Float) (ys : List Float), (∀ y ∈ ys, y.isNaN = true ∨ y = -1 / 0) →
      (LogScale.ofFloat exp log).sumExp ys = -1 / 0) ∧
    ∀ (s : Scorer α Float) (weigh : Tree α → Float), s.weighting = .log2 →
      s.posterior = some weigh → (∀ rule, (weigh rule).isNaN = true) → ∀ t : Tree α,
      ∃ table, s.scores t = .ok table ∧ ∀ v < t.size, t.isLeaf v = false →
        (s.source s.matcher.eq (t.label v)).isSome = true → table.get? v = some (-1 / 0) := by
  refine ⟨Extended.Arithmetic.sumExp_eq_bottom_iff h hkeeps,
    Extended.Arithmetic.sumExp_eq_undefined_iff h hkeeps,
    fun exp log ys => sumExp_eq_negInf exp log, fun s weigh hweighting hposterior hnan t => ?_⟩
  refine ⟨_, s.scores_eq t, fun v hv hleaf hentry => ?_⟩
  obtain ⟨rules, hrules⟩ := Option.isSome_iff_exists.1 hentry
  rw [s.get?_filled_plan t hv, s.score_of_isNaN hweighting hposterior hnan hleaf hrules]

/-- A scorer that has no rules, and to which the weight of every production is undefined. -/
def weightless : Scorer Nat Float :=
  ⟨fun _ _ => some .empty, ⟨(· == ·), .exact⟩, true, some fun _ => 0 / 0, .log2⟩

/-- Something undefined and zero add up to zero, with exact natural logarithms as in floating point,
and the only derivation of a node may have an undefined weight. -/
theorem sumExp_of_undefined_and_zero :
    (LogBase.natural.arithmetic.Rounds ∧
      ∀ x ∈ [undefined, .bottom], LogBase.natural.arithmetic.Keeps x) ∧
    LogBase.natural.scale.sumExp [undefined, .bottom] = .bottom ∧
    LogScale.base2.sumExp [0 / 0, -1 / 0] = -1 / 0 ∧
    ∃ table, weightless.scores (.ofSubtrees 1 [[.leaf 2]]) = .ok table ∧
      table.get? Tree.root = some (-1 / 0) := by
  have hkeeps : ∀ x ∈ [undefined, .bottom], LogBase.natural.arithmetic.Keeps x :=
    fun x _ => LogBase.natural.keeps x
  obtain ⟨hbottom, -, hfloat, hscores⟩ := sumExp_of_undefined (α := Nat) LogBase.rounds hkeeps
  obtain ⟨table, htable, hnode⟩ := hscores weightless (fun _ => 0 / 0) rfl rfl
    (fun _ => by decide) (.ofSubtrees 1 [[.leaf 2]])
  exact ⟨⟨LogBase.rounds, hkeeps⟩, hbottom.2 (by simp), hfloat _ _ _ (by decide),
    table, htable, hnode _ (Tree.root_lt_size _) (by decide +kernel) rfl⟩

/-- What is undefined alone adds up to zero. -/
theorem sumExp_nan_eq_negInf :
    (0 / 0 : Float).isNaN = true ∧ LogScale.base2.sumExp [0 / 0] = -1 / 0 ∧
      LogScale.natural.sumExp [0 / 0] = -1 / 0 := by
  decide

end LogScale

end TreeGrammar
