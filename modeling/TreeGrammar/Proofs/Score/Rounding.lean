/-
# Rounded sums

Where results are rounded, all that matters for sums of powers is that rounding keeps the order and
does not change what is rounded already, so that a sum is no less than one of its terms
(`Extended.Arithmetic.le_foldl_add`).  The greatest term of a sum of lowered powers is one, so that
its logarithm is not negative: the result is no less than the greatest value, unless something
undefined makes it undefined.  So it is bottom only if there is nothing but bottom and what is
undefined (`Extended.Arithmetic.sumExp_eq_bottom_iff`).
-/
import TreeGrammar.Proofs.Score.Extended

namespace TreeGrammar.Extended.Arithmetic

variable {K : Type} [Field K] [LinearOrder K]

/-- Results are rounded.  Rounding keeps the order, and no more is asked of powers and logarithms
than what is on which side of one and of zero. -/
structure Rounds (A : Arithmetic K) : Prop where
  round_mono : ∀ {a b}, a ≤ b → A.round a ≤ A.round b
  round_round : ∀ {a b}, A.round a = finite b → A.round b = finite b
  round_zero : A.round 0 = finite 0
  round_one : A.round 1 = finite 1
  round_exp : ∀ {a b}, A.exp a = finite b → A.round b = finite b
  exp_zero : A.exp 0 = finite 1
  exp_nonneg : ∀ a, finite 0 ≤ A.exp a
  log_nonneg : ∀ {b}, 1 ≤ b → finite 0 ≤ A.log b

/-- Rounding does not change the value. -/
def Keeps (A : Arithmetic K) (x : Extended K) : Prop := ∀ a, x = finite a → A.round a = finite a

variable {A : Arithmetic K} {m : K} {x y : Extended K} {xs ys : List (Extended K)}

lemma Rounds.round_ne_undefined (h : A.Rounds) (a : K) : A.round a ≠ undefined :=
  (ne_undefined_of_le (h.round_mono (le_refl a))).1

lemma Rounds.keeps_add (h : A.Rounds) (x y : Extended K) : A.Keeps (A.add x y) := by
  intro a ha
  cases x <;> cases y <;> try cases ha
  case finite.finite b c => exact h.round_round ha

/-! ### Terms of the sum -/

lemma sub_ne_undefined (h : A.Rounds) (hx : x ≠ undefined) : A.sub x (finite m) ≠ undefined := by
  cases x with
  | undefined => exact absurd rfl hx
  | finite a => exact h.round_ne_undefined (a + -m)
  | bottom => exact fun h => by cases h
  | top => exact fun h => by cases h

lemma power_nonneg (h : A.Rounds) (hx : x ≠ undefined) :
    finite 0 ≤ A.power x ∧ A.Keeps (A.power x) := by
  cases x with
  | undefined => exact absurd rfl hx
  | bottom => exact ⟨le_refl (0 : K), fun a ha => by cases ha; exact h.round_zero⟩
  | finite a => exact ⟨h.exp_nonneg a, fun b hb => h.round_exp hb⟩
  | top => exact ⟨finite_le_top, fun a ha => by cases ha⟩

/-- The greatest value is lowered to zero, and its power is one. -/
lemma power_sub_self (h : A.Rounds) (m : K) :
    A.power (A.sub (finite m) (finite m)) = finite 1 := by
  have hzero : A.sub (finite m) (finite m) = finite 0 := by
    show A.round (m + -m) = finite 0
    rw [add_neg_cancel, h.round_zero]
  rw [hzero]
  exact h.exp_zero

/-! ### The sum -/

variable [IsStrictOrderedRing K]

/-- The sum of values that are not negative is no less than either. -/
lemma le_add (h : A.Rounds) (hx : finite 0 ≤ x) (hkx : A.Keeps x) (hy : finite 0 ≤ y)
    (hky : A.Keeps y) : x ≤ A.add x y ∧ y ≤ A.add x y := by
  rcases finite_le_cases hx with ⟨a, rfl, ha⟩ | rfl
  · rcases finite_le_cases hy with ⟨b, rfl, hb⟩ | rfl
    · show finite a ≤ A.round (a + b) ∧ finite b ≤ A.round (a + b)
      rw [← hkx a rfl, ← hky b rfl]
      exact ⟨h.round_mono (le_add_of_nonneg_right hb), h.round_mono (le_add_of_nonneg_left ha)⟩
    · exact ⟨finite_le_top, top_le_top⟩
  · rcases finite_le_cases hy with ⟨b, rfl, hb⟩ | rfl
    · exact ⟨top_le_top, finite_le_top⟩
    · exact ⟨top_le_top, top_le_top⟩

/-- A sum of values that are not negative is no less than any of them. -/
lemma le_foldl_add (h : A.Rounds) (hys : ∀ y ∈ ys, finite 0 ≤ y ∧ A.Keeps y) :
    finite 0 ≤ ys.foldl A.add (finite 0) ∧ A.Keeps (ys.foldl A.add (finite 0)) ∧
      ∀ y ∈ ys, y ≤ ys.foldl A.add (finite 0) := by
  induction ys using List.reverseRecOn with
  | nil => exact ⟨le_refl (0 : K), fun a ha => by cases ha; exact h.round_zero, by simp⟩
  | append_singleton ys y ih =>
    rw [List.forall_mem_append, List.forall_mem_singleton] at hys
    obtain ⟨hbefore, hy, hkeeps⟩ := hys
    obtain ⟨hnonneg, hkept, hle⟩ := ih hbefore
    -- the sum only grows, so the earlier terms stay below it
    obtain ⟨hsum, hlast⟩ := le_add h hnonneg hkept hy hkeeps
    rw [List.foldl_append, List.foldl_cons, List.foldl_nil, List.forall_mem_append,
      List.forall_mem_singleton]
    exact ⟨le_trans hnonneg hsum, h.keeps_add _ _, fun z hz => le_trans (hle z hz) hsum, hlast⟩

/-- If nothing is undefined then the sum of the lowered powers is at least one. -/
lemma one_le_shiftedSum (h : A.Rounds) (hundefined : undefined ∉ xs) (hm : finite m ∈ xs) :
    finite 1 ≤ A.shiftedSum (finite m) xs := by
  have hterms : ∀ y ∈ xs.map (fun x => A.power (A.sub x (finite m))),
      finite 0 ≤ y ∧ A.Keeps y := by
    rw [List.forall_mem_map]
    exact fun x hx => power_nonneg h (sub_ne_undefined h (ne_of_mem_of_not_mem hx hundefined))
  -- the term of the greatest value is one, and rounding loses nothing of it
  obtain ⟨-, -, hle⟩ := le_foldl_add h hterms
  rw [← power_sub_self h m]
  exact hle _ (List.mem_map_of_mem hm)

/-- To lower the values and raise the result again does not lead below where it began. -/
lemma le_add_logarithm (h : A.Rounds) (hm : A.round m = finite m) (hx : finite 1 ≤ x) :
    finite m ≤ A.add (finite m) (A.logarithm x) := by
  rcases finite_le_cases hx with ⟨b, rfl, hb⟩ | rfl
  · have hlog : A.logarithm (finite b) = A.log b := if_pos (lt_of_lt_of_le one_pos hb)
    rw [hlog]
    rcases finite_le_cases (h.log_nonneg hb) with ⟨c, hc, hnonneg⟩ | htop
    · have hraised : A.round m ≤ A.round (m + c) :=
        h.round_mono (le_add_of_nonneg_right hnonneg)
      rw [hm] at hraised
      rw [hc]
      exact hraised
    · rw [htop]
      exact finite_le_top
  · exact finite_le_top

/-- With a finite greatest value the result is no less than it, unless something is undefined, which
makes the result undefined. -/
lemma sumExp_of_finite (h : A.Rounds) (hkeeps : ∀ x ∈ xs, A.Keeps x)
    (hm : greatest xs = finite m) :
    if undefined ∈ xs then A.scale.sumExp xs = undefined
    else finite m ≤ A.scale.sumExp xs := by
  have hmem : finite m ∈ xs := mem_of_greatest_eq_finite hm
  rw [A.sumExp_eq_of_finite hm]
  split
  case isTrue hundefined =>
    have hterm : undefined ∈ xs.map fun x => A.power (A.sub x (finite m)) :=
      List.mem_map.2 ⟨undefined, hundefined, rfl⟩
    rw [shiftedSum, A.foldl_add_eq_undefined hterm]
    exact A.add_undefined (finite m)
  case isFalse hundefined =>
    exact le_add_logarithm h (hkeeps _ hmem m rfl) (one_le_shiftedSum h hundefined hmem)

/-- The result is bottom if and only if all values are bottom or undefined. -/
theorem sumExp_eq_bottom_iff (h : A.Rounds) (hkeeps : ∀ x ∈ xs, A.Keeps x) :
    A.scale.sumExp xs = bottom ↔ ∀ x ∈ xs, x = bottom ∨ x = undefined := by
  refine ⟨fun hbottom => ?_, A.sumExp_eq_bottom⟩
  rw [← greatest_eq_bottom_iff]
  cases hm : greatest xs with
  | undefined => exact absurd hm greatest_ne_undefined
  | bottom => rfl
  | top =>
    rw [A.sumExp_eq_top (greatest_eq_top_iff.1 hm)] at hbottom
    cases hbottom
  | finite m =>
    have hsum := sumExp_of_finite h hkeeps hm
    rw [hbottom] at hsum
    split at hsum
    · cases hsum
    · exact absurd (le_bottom_iff.1 hsum) (by simp)

/-- The result is undefined if and only if a value is, beside some number and without the top. -/
theorem sumExp_eq_undefined_iff (h : A.Rounds) (hkeeps : ∀ x ∈ xs, A.Keeps x) :
    A.scale.sumExp xs = undefined ↔ undefined ∈ xs ∧ top ∉ xs ∧ ∃ a, finite a ∈ xs := by
  constructor
  · intro hundefined
    cases hm : greatest xs with
    | undefined => exact absurd hm greatest_ne_undefined
    | bottom =>
      rw [A.sumExp_eq_bottom (greatest_eq_bottom_iff.1 hm)] at hundefined
      cases hundefined
    | top =>
      rw [A.sumExp_eq_top (greatest_eq_top_iff.1 hm)] at hundefined
      cases hundefined
    | finite m =>
      have hsum := sumExp_of_finite h hkeeps hm
      have htop : top ∉ xs := fun htop => by rw [greatest_eq_top_iff.2 htop] at hm; cases hm
      split at hsum
      case isTrue hmem => exact ⟨hmem, htop, m, mem_of_greatest_eq_finite hm⟩
      case isFalse =>
        rw [hundefined] at hsum
        exact absurd hsum not_le_undefined
  · rintro ⟨hmem, htop, a, ha⟩
    obtain ⟨m, hm⟩ := exists_greatest_eq_finite ha htop
    have hsum := sumExp_of_finite h hkeeps hm
    rwa [if_pos hmem] at hsum

end TreeGrammar.Extended.Arithmetic
