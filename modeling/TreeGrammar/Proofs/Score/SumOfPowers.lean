/-
# The logarithm of a sum of powers

With exact powers and logarithms, lowering all values by the greatest one changes nothing: the
result is the logarithm of the sum of the numbers whose logarithms are given
(`LogBase.sumExp_eq`).  Numbers from zero to the top, that is `WithTop K`, are a monoid with an
order, in which sums do not depend on how they are arranged and grow with their terms.  What is true
of such sums is true of their logarithms (`LogBase.sumExp_isLogOfSum`), and no value on the way to
them is out of range: the powers are of exponents that are not positive, one of which is zero, so
that their sum is between one and their number.
-/
import TreeGrammar.Proofs.Score.Rounding

namespace TreeGrammar

open Extended (finite bottom top undefined greatest)

/-- Powers of a base and the logarithms to it. -/
structure LogBase (K : Type) [Field K] [LinearOrder K] where
  exp : K → K
  log : K → K
  exp_add : ∀ a b, exp (a + b) = exp a * exp b
  exp_zero : exp 0 = 1
  exp_mono : Monotone exp
  log_exp : ∀ a, log (exp a) = a
  exp_log : ∀ {y}, 0 < y → exp (log y) = y

namespace LogBase

/-- Base two. -/
noncomputable def two : LogBase ℝ where
  exp a := 2 ^ a
  log := Real.logb 2
  exp_add a b := Real.rpow_add two_pos a b
  exp_zero := Real.rpow_zero 2
  exp_mono _ _ hab := Real.rpow_le_rpow_of_exponent_le one_le_two hab
  log_exp a := Real.logb_rpow two_pos (by norm_num)
  exp_log hy := Real.rpow_logb two_pos (by norm_num) hy

/-- The base of natural logarithms. -/
noncomputable def natural : LogBase ℝ where
  exp := Real.exp
  log := Real.log
  exp_add := Real.exp_add
  exp_zero := Real.exp_zero
  exp_mono := Real.exp_monotone
  log_exp := Real.log_exp
  exp_log hy := Real.exp_log hy

variable {K : Type} [Field K] [LinearOrder K] (b : LogBase K)

/-- Sums, powers and logarithms without rounding. -/
def arithmetic : Extended.Arithmetic K where
  round := finite
  exp a := finite (b.exp a)
  log y := finite (b.log y)

/-- The operations of exact logarithmic arithmetic. -/
def scale : LogScale (Extended K) := b.arithmetic.scale

/-! ### Numbers and their logarithms -/

lemma log_one : b.log 1 = 0 := by rw [← b.exp_zero, b.log_exp]

lemma exp_neg_mul (a : K) : b.exp a * b.exp (-a) = 1 := by
  rw [← b.exp_add, add_neg_cancel, b.exp_zero]

lemma exp_strictMono : StrictMono b.exp :=
  b.exp_mono.strictMono_of_injective fun a c h => by rw [← b.log_exp a, h, b.log_exp]

/-- The number whose logarithm is given.  For the top and for what is undefined there is none. -/
def number : Extended K → K
  | finite a => b.exp a
  | _ => 0

/-- The number whose logarithm is given, or the top. -/
def weight : Extended K → WithTop K
  | bottom => 0
  | finite a => b.exp a
  | _ => ⊤

/-- The logarithm of a number that is not negative, or of the top. -/
def ofWeight : WithTop K → Extended K
  | ⊤ => top
  | (y : K) => if y = 0 then bottom else finite (b.log y)

/-- The sum of the numbers whose logarithms are given. -/
def total (xs : List (Extended K)) : WithTop K := (xs.map b.weight).sum

@[simp] lemma ofWeight_zero : b.ofWeight 0 = bottom := if_pos rfl

@[simp] lemma ofWeight_top : b.ofWeight ⊤ = top := rfl

lemma ofWeight_coe {y : K} (hy : y ≠ 0) : b.ofWeight y = finite (b.log y) := if_neg hy

lemma ofWeight_ne_undefined (w : WithTop K) : b.ofWeight w ≠ undefined := by
  induction w with
  | top => simp
  | coe y =>
    show (if y = 0 then bottom else finite (b.log y)) ≠ undefined
    split <;> simp

variable {b}

lemma log_le_log {y z : K} (hy : 0 < y) (hyz : y ≤ z) : b.log y ≤ b.log z := by
  rw [← b.exp_strictMono.le_iff_le, b.exp_log hy, b.exp_log (hy.trans_le hyz)]
  exact hyz

lemma weight_ofWeight {w : WithTop K} (h : 0 ≤ w) : b.weight (b.ofWeight w) = w := by
  induction w with
  | top => rfl
  | coe y =>
    rcases (WithTop.coe_le_coe.1 h : (0 : K) ≤ y).eq_or_lt with rfl | hy
    · rw [WithTop.coe_zero, ofWeight_zero]
      rfl
    · rw [b.ofWeight_coe hy.ne']
      exact congrArg WithTop.some (b.exp_log hy)

lemma ofWeight_mono {v w : WithTop K} (hv : 0 ≤ v) (h : v ≤ w) :
    b.ofWeight v ≤ b.ofWeight w := by
  induction w with
  | top => exact Extended.le_top (b.ofWeight_ne_undefined v)
  | coe z =>
    lift v to K using ne_top_of_le_ne_top WithTop.coe_ne_top h
    have hyz : v ≤ z := WithTop.coe_le_coe.1 h
    rcases (WithTop.coe_le_coe.1 hv : (0 : K) ≤ v).eq_or_lt with rfl | hy
    · rw [WithTop.coe_zero, ofWeight_zero]
      exact b.ofWeight_ne_undefined _
    · rw [b.ofWeight_coe hy.ne', b.ofWeight_coe (hy.trans_le hyz).ne']
      exact log_le_log hy hyz

lemma logarithm_of_pos {y : K} (hy : 0 < y) :
    b.arithmetic.logarithm (finite y) = finite (b.log y) := if_pos hy

/-- The logarithm of a number that is not negative. -/
lemma logarithm_eq {y : K} (hy : 0 ≤ y) :
    b.arithmetic.logarithm (finite y) = b.ofWeight y := by
  rcases hy.eq_or_lt with rfl | hpos
  · rw [WithTop.coe_zero, ofWeight_zero, Extended.Arithmetic.logarithm, if_neg (lt_irrefl _),
      if_pos rfl]
  · rw [logarithm_of_pos hpos, b.ofWeight_coe hpos.ne']

lemma keeps (x : Extended K) : b.arithmetic.Keeps x := fun _ _ => rfl

/-! ### Sums of numbers -/

variable {xs ys : List (Extended K)} {m : K}

lemma total_eq_zero (h : ∀ x ∈ xs, x = bottom) : b.total xs = 0 := by
  refine List.sum_eq_zero (List.forall_mem_map.2 fun x hx => ?_)
  rw [h x hx]
  rfl

lemma total_eq_coe (h : ∀ x ∈ xs, x ≠ undefined ∧ x ≠ top) :
    b.total xs = ((xs.map b.number).sum : K) := by
  induction xs with
  | nil => rfl
  | cons x xs ih =>
    obtain ⟨hx, hxs⟩ := List.forall_mem_cons.1 h
    have hweight : b.weight x = (b.number x : K) := by
      cases x with
      | undefined => exact absurd rfl hx.1
      | top => exact absurd rfl hx.2
      | _ => rfl
    rw [List.map_cons, List.sum_cons, WithTop.coe_add, ← ih hxs, ← hweight]
    rfl

lemma total_append (xs ys : List (Extended K)) : b.total (xs ++ ys) = b.total xs + b.total ys := by
  rw [total, List.map_append, List.sum_append, total, total]

lemma total_perm (h : xs.Perm ys) : b.total xs = b.total ys := (h.map b.weight).sum_eq

/-! ### Sums of lowered powers -/

/-- A value that is lowered and raised to a power gives the number, divided by a power. -/
lemma power_sub {x : Extended K} (hx : x ≠ undefined ∧ x ≠ top) (m : K) :
    b.arithmetic.power (b.arithmetic.sub x (finite m)) = finite (b.number x * b.exp (-m)) := by
  cases x with
  | undefined => exact absurd rfl hx.1
  | top => exact absurd rfl hx.2
  | bottom => exact congrArg finite (zero_mul _).symm
  | finite a => exact congrArg finite (b.exp_add a (-m))

lemma shiftedSum_eq (h : ∀ x ∈ xs, x ≠ undefined ∧ x ≠ top) (m : K) :
    b.arithmetic.shiftedSum (finite m) xs = finite ((xs.map b.number).sum * b.exp (-m)) := by
  induction xs using List.reverseRecOn with
  | nil => exact congrArg finite (zero_mul _).symm
  | append_singleton xs x ih =>
    rw [List.forall_mem_append, List.forall_mem_singleton] at h
    have hbefore := ih h.1
    rw [Extended.Arithmetic.shiftedSum] at hbefore
    rw [Extended.Arithmetic.shiftedSum, List.map_append, List.foldl_append, hbefore,
      List.map_singleton, List.foldl_cons, List.foldl_nil, power_sub h.2]
    show finite (_ + _) = _
    rw [List.map_append, List.sum_append, List.map_singleton, List.sum_singleton, add_mul]


variable [IsStrictOrderedRing K]

lemma exp_pos (a : K) : 0 < b.exp a := by
  have hsquare : b.exp a = b.exp (a / 2) * b.exp (a / 2) := by rw [← b.exp_add, add_halves]
  have hne : b.exp a ≠ 0 := left_ne_zero_of_mul_eq_one (b.exp_neg_mul a)
  exact lt_of_le_of_ne (hsquare ▸ mul_self_nonneg _) hne.symm

/-- Exact arithmetic is rounded arithmetic. -/
lemma rounds : b.arithmetic.Rounds where
  round_mono h := h
  round_round _ := rfl
  round_zero := rfl
  round_one := rfl
  round_exp _ := rfl
  exp_zero := congrArg finite b.exp_zero
  exp_nonneg a := (exp_pos a).le
  log_nonneg {y} h := by
    show (0 : K) ≤ b.log y
    rw [← b.log_one]
    exact log_le_log one_pos h

lemma weight_nonneg (x : Extended K) : 0 ≤ b.weight x := by
  cases x with
  | finite a => exact WithTop.coe_le_coe.2 (exp_pos a).le
  | bottom => exact le_rfl
  | _ => exact le_top

lemma weight_mono {x y : Extended K} (h : x ≤ y) : b.weight x ≤ b.weight y := by
  cases x with
  | undefined => exact absurd h Extended.not_undefined_le
  | bottom => exact weight_nonneg y
  | top => rw [Extended.top_le_iff.1 h]
  | finite a =>
    rcases Extended.finite_le_cases h with ⟨c, rfl, hac⟩ | rfl
    · exact WithTop.coe_le_coe.2 (b.exp_mono hac)
    · exact le_top

lemma total_nonneg (xs : List (Extended K)) : 0 ≤ b.total xs :=
  List.sum_nonneg (List.forall_mem_map.2 fun x _ => weight_nonneg x)

lemma total_eq_top (h : top ∈ xs) : b.total xs = ⊤ := by
  have hle : b.weight top ≤ b.total xs :=
    List.single_le_sum (List.forall_mem_map.2 fun x _ => weight_nonneg x) _
      (List.mem_map_of_mem h)
  exact top_le_iff.1 hle

lemma total_mono (h : List.Forall₂ (· ≤ ·) xs ys) : b.total xs ≤ b.total ys := by
  induction h with
  | nil => exact le_rfl
  | cons hxy _ ih => exact add_le_add (weight_mono hxy) ih

/-! ### The range -/

lemma number_nonneg (x : Extended K) : 0 ≤ b.number x := by
  cases x with
  | finite a => exact (exp_pos a).le
  | _ => exact le_rfl

lemma number_le {x : Extended K} (h : x ≤ finite m) : b.number x ≤ b.exp m := by
  cases x with
  | finite a => exact b.exp_mono h
  | _ => exact (exp_pos m).le

/-- The lowered powers add up to no less than one, and no more than one for each value. -/
lemma lowered_bounds (h : undefined ∉ xs) (hm : greatest xs = finite m) :
    1 ≤ (xs.map b.number).sum * b.exp (-m) ∧
      (xs.map b.number).sum * b.exp (-m) ≤ xs.length := by
  have hone : b.exp m ≤ (xs.map b.number).sum :=
    List.single_le_sum (List.forall_mem_map.2 fun x _ => number_nonneg x) _
      (List.mem_map_of_mem (f := b.number) (Extended.mem_of_greatest_eq_finite hm))
  have hall : (xs.map b.number).sum ≤ xs.length * b.exp m := by
    have := List.sum_le_card_nsmul (xs.map b.number) (b.exp m) (List.forall_mem_map.2 fun x hx =>
      number_le (Extended.forall_le_of_greatest h hm x hx).2)
    rwa [List.length_map, nsmul_eq_mul] at this
  constructor
  · rw [← b.exp_neg_mul m]
    exact mul_le_mul_of_nonneg_right hone (exp_pos _).le
  · calc (xs.map b.number).sum * b.exp (-m)
        ≤ xs.length * b.exp m * b.exp (-m) := mul_le_mul_of_nonneg_right hall (exp_pos _).le
      _ = xs.length := by rw [mul_assoc, b.exp_neg_mul, mul_one]

/-- What the computation goes through if the greatest value is a number. -/
structure StaysInRange (b : LogBase K) (xs : List (Extended K)) (m : K) : Prop where
  greatest_eq : greatest xs = finite m
  sub_nonpos : ∀ x ∈ xs, b.scale.sub x (finite m) ≤ finite 0
  sub_eq_zero : ∃ x ∈ xs, b.scale.sub x (finite m) = finite 0
  sum : ∃ y, b.arithmetic.shiftedSum (finite m) xs = finite y ∧ 1 ≤ y ∧ y ≤ xs.length ∧
    b.scale.sumExp xs = finite (m + b.log y)

lemma staysInRange (h : undefined ∉ xs) (hm : greatest xs = finite m) : b.StaysInRange xs m where
  greatest_eq := hm
  sub_nonpos x hx := by
    obtain ⟨⟨hdefined, htop⟩, hle⟩ := Extended.forall_le_of_greatest h hm x hx
    cases x with
    | undefined => exact absurd rfl hdefined
    | top => exact absurd rfl htop
    | bottom => exact Extended.bottom_le_iff.2 (by simp)
    | finite a => exact (sub_eq_add_neg a m).symm.trans_le (sub_nonpos.2 hle)
  sub_eq_zero :=
    ⟨finite m, Extended.mem_of_greatest_eq_finite hm, congrArg finite (add_neg_cancel m)⟩
  sum := by
    obtain ⟨hone, hlength⟩ := lowered_bounds (b := b) h hm
    have hsum := shiftedSum_eq (b := b) (fun x hx => (Extended.forall_le_of_greatest h hm x hx).1) m
    refine ⟨_, hsum, hone, hlength, ?_⟩
    have hpos := one_pos.trans_le hone
    rw [scale, b.arithmetic.sumExp_eq_of_finite hm, hsum, logarithm_of_pos hpos]
    rfl

/-! ### The logarithm of the sum -/

/-- The result is the logarithm of the sum of all numbers. -/
theorem sumExp_eq (h : undefined ∉ xs) : b.scale.sumExp xs = b.ofWeight (b.total xs) := by
  cases hm : greatest xs with
  | undefined => exact absurd hm Extended.greatest_ne_undefined
  | bottom =>
    have hall := Extended.greatest_eq_bottom_iff.1 hm
    rw [scale, b.arithmetic.sumExp_eq_bottom hall, total_eq_zero fun x hx =>
      (hall x hx).resolve_right (ne_of_mem_of_not_mem hx h), ofWeight_zero]
  | top =>
    have hmem := Extended.greatest_eq_top_iff.1 hm
    rw [scale, b.arithmetic.sumExp_eq_top hmem, total_eq_top hmem, ofWeight_top]
  | finite m =>
    obtain ⟨y, hy, hone, -, hresult⟩ := (staysInRange (b := b) h hm).sum
    have hdefined := fun x hx => (Extended.forall_le_of_greatest h hm x hx).1
    rw [shiftedSum_eq hdefined] at hy
    have hpos : 0 < y := one_pos.trans_le hone
    -- lowering has divided the sum by a power, which raising the logarithm gives back
    have hsum : (xs.map b.number).sum = b.exp (m + b.log y) := by
      have hfinite : (xs.map b.number).sum * b.exp (-m) = y := by injection hy
      rw [b.exp_add, b.exp_log hpos, ← hfinite, mul_left_comm, b.exp_neg_mul, mul_one]
    rw [hresult, total_eq_coe hdefined, hsum, b.ofWeight_coe (exp_pos _).ne', b.log_exp]

/-- The numbers that are not lowered have the same sum. -/
lemma logarithm_sum (h : undefined ∉ xs) :
    b.scale.log ((xs.map b.scale.exp).foldl b.scale.add b.scale.zero) =
      b.ofWeight (b.total xs) := by
  show b.arithmetic.logarithm
    ((xs.map b.arithmetic.power).foldl b.arithmetic.add (finite 0)) = _
  by_cases htop : top ∈ xs
  · have hterms : ∀ y ∈ xs.map b.arithmetic.power, finite 0 ≤ y ∧ b.arithmetic.Keeps y :=
      List.forall_mem_map.2 fun x hx =>
        Extended.Arithmetic.power_nonneg b.rounds (ne_of_mem_of_not_mem hx h)
    obtain ⟨-, -, hle⟩ := Extended.Arithmetic.le_foldl_add b.rounds hterms
    rw [total_eq_top htop, Extended.top_le_iff.1 (hle top (List.mem_map_of_mem htop))]
    rfl
  · have hdefined : ∀ x ∈ xs, x ≠ undefined ∧ x ≠ top := fun x hx =>
      ⟨ne_of_mem_of_not_mem hx h, ne_of_mem_of_not_mem hx htop⟩
    -- nothing changes if all values are lowered by zero
    have hpowers : xs.map b.arithmetic.power =
        xs.map fun x => b.arithmetic.power (b.arithmetic.sub x (finite 0)) := by
      refine List.map_congr_left fun x hx => ?_
      rw [power_sub (hdefined x hx), neg_zero, b.exp_zero, mul_one]
      cases x with
      | undefined => exact absurd rfl (hdefined _ hx).1
      | top => exact absurd rfl (hdefined _ hx).2
      | _ => rfl
    have hsum := shiftedSum_eq (b := b) hdefined 0
    rw [Extended.Arithmetic.shiftedSum, ← hpowers, neg_zero, b.exp_zero, mul_one] at hsum
    have hnonneg : 0 ≤ (xs.map b.number).sum :=
      List.sum_nonneg (List.forall_mem_map.2 fun x _ => number_nonneg x)
    rw [hsum, logarithm_eq hnonneg, total_eq_coe hdefined]

lemma sumExp_ne_undefined (h : undefined ∉ xs) : b.scale.sumExp xs ≠ undefined := by
  rw [sumExp_eq h]
  exact b.ofWeight_ne_undefined _

/-- The parts of a sum may be added up first. -/
lemma sumExp_append (hxs : undefined ∉ xs) (hys : undefined ∉ ys) :
    b.scale.sumExp (xs ++ ys) = b.scale.sumExp [b.scale.sumExp xs, b.scale.sumExp ys] := by
  have hboth : undefined ∉ xs ++ ys := by simp [hxs, hys]
  have hparts : undefined ∉ [b.scale.sumExp xs, b.scale.sumExp ys] := by
    simp [(sumExp_ne_undefined hxs).symm, (sumExp_ne_undefined hys).symm]
  have htotal : b.total [b.scale.sumExp xs, b.scale.sumExp ys] = b.total xs + b.total ys := by
    rw [sumExp_eq hxs, sumExp_eq hys, total, List.map_cons, List.map_singleton, List.sum_cons,
      List.sum_singleton, weight_ofWeight (total_nonneg xs), weight_ofWeight (total_nonneg ys)]
  rw [sumExp_eq hboth, sumExp_eq hparts, total_append, htotal]

lemma sumExp_mono (h : List.Forall₂ (· ≤ ·) xs ys) : b.scale.sumExp xs ≤ b.scale.sumExp ys := by
  have hxs : undefined ∉ xs ∧ undefined ∉ ys := by
    induction h with
    | nil => simp
    | cons hxy _ ih =>
      obtain ⟨hx, hy⟩ := Extended.ne_undefined_of_le hxy
      simp [hx.symm, hy.symm, ih.1, ih.2]
  rw [sumExp_eq hxs.1, sumExp_eq hxs.2]
  exact ofWeight_mono (total_nonneg xs) (total_mono h)

lemma sumExp_le_append (hxs : undefined ∉ xs) (hys : undefined ∉ ys) :
    b.scale.sumExp xs ≤ b.scale.sumExp (xs ++ ys) := by
  have hboth : undefined ∉ xs ++ ys := by simp [hxs, hys]
  rw [sumExp_eq hxs, sumExp_eq hboth, total_append]
  exact ofWeight_mono (total_nonneg xs) (le_add_of_nonneg_right (total_nonneg ys))

/-! ### Bounds -/

/-- The result is between the greatest value and this value raised by the logarithm of the
number of values. -/
lemma sumExp_bounds (h : undefined ∉ xs) :
    greatest xs ≤ b.scale.sumExp xs ∧
      b.scale.sumExp xs ≤ b.scale.add (greatest xs) (b.scale.log (finite xs.length)) := by
  cases hm : greatest xs with
  | undefined => exact absurd hm Extended.greatest_ne_undefined
  | bottom =>
    have hresult := b.arithmetic.sumExp_eq_bottom (Extended.greatest_eq_bottom_iff.1 hm)
    rw [scale, hresult]
    refine ⟨by simp, Extended.bottom_le_iff.2 ?_⟩
    show b.arithmetic.add bottom (b.arithmetic.logarithm (finite xs.length)) ≠ undefined
    rw [logarithm_eq (Nat.cast_nonneg _)]
    by_cases hlength : (xs.length : K) = 0
    · rw [hlength, WithTop.coe_zero, ofWeight_zero]
      simp [Extended.Arithmetic.add]
    · rw [b.ofWeight_coe hlength]
      simp [Extended.Arithmetic.add]
  | top =>
    have hmem := Extended.greatest_eq_top_iff.1 hm
    have hpos : (0 : K) < xs.length := Nat.cast_pos.2 (List.length_pos_of_mem hmem)
    rw [scale, b.arithmetic.sumExp_eq_top hmem]
    refine ⟨Extended.top_le_top, Extended.top_le_iff.2 ?_⟩
    show b.arithmetic.add top (b.arithmetic.logarithm (finite xs.length)) = top
    rw [logarithm_of_pos hpos]
    rfl
  | finite m =>
    obtain ⟨y, -, hone, hlength, hresult⟩ := (staysInRange (b := b) h hm).sum
    have hpos : (0 : K) < xs.length := one_pos.trans_le (hone.trans hlength)
    have hlog : b.log 1 ≤ b.log y := log_le_log one_pos hone
    have hle : m + b.log y ≤ m + b.log xs.length :=
      add_le_add_right (log_le_log (one_pos.trans_le hone) hlength) m
    have hadd : b.scale.add (finite m) (b.scale.log (finite xs.length)) =
        finite (m + b.log xs.length) := by
      show b.arithmetic.add (finite m) (b.arithmetic.logarithm (finite xs.length)) = _
      rw [logarithm_of_pos hpos]
      rfl
    rw [hresult, hadd]
    rw [b.log_one] at hlog
    exact ⟨Extended.finite_le_finite_iff.2 (le_add_of_nonneg_right hlog),
      Extended.finite_le_finite_iff.2 hle⟩

/-! ### What the sum is -/

/-- The result is the logarithm of the sum of the numbers, and all that is computed on the way stays
in range. -/
structure IsLogOfSum (b : LogBase K) (xs : List (Extended K)) : Prop where
  eq_bottom_iff : b.scale.sumExp xs = bottom ↔ ∀ x ∈ xs, x = bottom
  eq_top_iff : b.scale.sumExp xs = top ↔ top ∈ xs
  inRange : (∃ x ∈ xs, x ≠ bottom) → top ∉ xs → ∃ m, b.StaysInRange xs m
  eq_log : b.scale.sumExp xs =
    b.scale.log ((xs.map b.scale.exp).foldl b.scale.add b.scale.zero)
  greatest_le : greatest xs ≤ b.scale.sumExp xs
  le_add_log : b.scale.sumExp xs ≤ b.scale.add (greatest xs) (b.scale.log (finite xs.length))

/-- A value that is neither bottom nor the top makes the greatest value a number. -/
lemma exists_staysInRange (h : undefined ∉ xs) (hne : ∃ x ∈ xs, x ≠ bottom) (htop : top ∉ xs) :
    ∃ m, b.StaysInRange xs m := by
  obtain ⟨x, hx, hbottom⟩ := hne
  cases x with
  | undefined => exact absurd hx h
  | bottom => exact absurd rfl hbottom
  | top => exact absurd hx htop
  | finite a =>
    obtain ⟨m, hm⟩ := Extended.exists_greatest_eq_finite hx htop
    exact ⟨m, staysInRange h hm⟩

lemma isLogOfSum (h : undefined ∉ xs) : b.IsLogOfSum xs where
  eq_bottom_iff := by
    rw [scale, Extended.Arithmetic.sumExp_eq_bottom_iff b.rounds fun x _ => b.keeps x]
    exact forall₂_congr fun x hx => or_iff_left (ne_of_mem_of_not_mem hx h)
  eq_top_iff := by
    refine ⟨fun hresult => ?_, b.arithmetic.sumExp_eq_top⟩
    by_contra htop
    by_cases hbottom : ∀ x ∈ xs, x = bottom
    · rw [sumExp_eq h, total_eq_zero hbottom, ofWeight_zero] at hresult
      cases hresult
    · push Not at hbottom
      obtain ⟨m, hm⟩ := exists_staysInRange (b := b) h hbottom htop
      obtain ⟨y, -, -, -, hfinite⟩ := hm.sum
      rw [hfinite] at hresult
      cases hresult
  inRange := exists_staysInRange h
  eq_log := by rw [sumExp_eq h, logarithm_sum h]
  greatest_le := (sumExp_bounds h).1
  le_add_log := (sumExp_bounds h).2

variable (b)

/-- To any base, the result for values none of which is undefined is the logarithm of the sum.  It
does not depend on the order of the values, grows with each of them and with every further value,
and can be put together from the results for parts. -/
theorem sumExp_isLogOfSum (h : undefined ∉ xs) :
    b.IsLogOfSum xs ∧
      (∀ ys, xs.Perm ys → b.scale.sumExp ys = b.scale.sumExp xs) ∧
      (∀ ys, List.Forall₂ (· ≤ ·) xs ys → b.scale.sumExp xs ≤ b.scale.sumExp ys) ∧
      ∀ ys, undefined ∉ ys →
        b.scale.sumExp xs ≤ b.scale.sumExp (xs ++ ys) ∧
        b.scale.sumExp (xs ++ ys) = b.scale.sumExp [b.scale.sumExp xs, b.scale.sumExp ys] := by
  refine ⟨isLogOfSum h, fun ys hperm => ?_, fun ys => sumExp_mono, fun ys hys =>
    ⟨sumExp_le_append h hys, sumExp_append h hys⟩⟩
  have hys : undefined ∉ ys := fun hmem => h (hperm.mem_iff.2 hmem)
  rw [sumExp_eq h, sumExp_eq hys, total_perm hperm]

/-- Zero is passed over when a number is added to what is beyond all numbers, to base two and to
that of natural logarithms. -/
theorem sumExp_isLogOfSum_mixed :
    undefined ∉ [finite (0 : ℝ), bottom] ∧ undefined ∉ [(top : Extended ℝ)] ∧
      ∀ b ∈ [two, natural],
        b.IsLogOfSum [finite 0, bottom] ∧
        b.scale.sumExp [bottom, finite 0] = b.scale.sumExp [finite 0, bottom] ∧
        b.scale.sumExp [finite 0, bottom] ≤ b.scale.sumExp [finite 1, bottom] ∧
        b.scale.sumExp [finite 0, bottom, top] =
          b.scale.sumExp [b.scale.sumExp [finite 0, bottom], b.scale.sumExp [top]] := by
  have hnumbers : undefined ∉ [finite (0 : ℝ), bottom] := by simp
  have htop : undefined ∉ [(top : Extended ℝ)] := by simp
  refine ⟨hnumbers, htop, fun b _ => ?_⟩
  obtain ⟨hlog, hperm, hmono, hparts⟩ := sumExp_isLogOfSum b hnumbers
  refine ⟨hlog, hperm _ (.swap _ _ _), hmono _ ?_, (hparts _ htop).2⟩
  exact .cons (Extended.finite_le_finite_iff.2 zero_le_one) (.cons (by simp) .nil)

end LogBase

end TreeGrammar
