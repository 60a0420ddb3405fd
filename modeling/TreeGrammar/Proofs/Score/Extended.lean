/-
# Numbers, infinities and what is undefined

The values of floating-point arithmetic are numbers, two infinities, and what is undefined.  The
last cannot be compared, makes undefined whatever is computed from it, and is passed over when the
greater of two values is looked for.  An `Extended.Arithmetic` says what becomes of numbers, and
`Extended.Arithmetic.scale` is the logarithmic arithmetic that comes of it.

The greatest of several values is bottom if all of them are bottom or undefined, and otherwise it is
one of them (`Extended.greatest_eq_bottom_iff`, `Extended.mem_of_greatest_eq_finite`).  If it is
finite then the sum of powers is computed (`Extended.Arithmetic.sumExp_eq_of_finite`).
-/
import Mathlib
import TreeGrammar.Score.LogScale

namespace TreeGrammar

/-- A number, one of the two infinities, or what is undefined. -/
inductive Extended (K : Type) where
  | undefined
  /-- What is less than every number. -/
  | bottom
  | finite (x : K)
  /-- What is greater than every number. -/
  | top
deriving DecidableEq

namespace Extended

variable {K : Type}

/-- Whether a value is one of the two infinities. -/
def isInfinite : Extended K → Bool
  | bottom => true
  | top => true
  | _ => false

/-! ### The order -/

/-- What is undefined is not comparable, not even with itself. -/
instance [LE K] : LE (Extended K) where
  le
    | bottom, y => y ≠ undefined
    | finite x, finite y => x ≤ y
    | finite _, top => True
    | top, top => True
    | _, _ => False

section

variable [Preorder K] {x y z : Extended K}

@[simp] lemma bottom_le_iff : bottom ≤ x ↔ x ≠ undefined := Iff.rfl

@[simp] lemma finite_le_finite_iff {a b : K} : finite a ≤ finite b ↔ a ≤ b := Iff.rfl

@[simp] lemma finite_le_top {a : K} : finite a ≤ top := trivial

@[simp] lemma top_le_top : (top : Extended K) ≤ top := trivial

@[simp] lemma not_undefined_le : ¬ undefined ≤ x := fun h => by cases x <;> exact h

@[simp] lemma not_le_undefined : ¬ x ≤ undefined := fun h => by
  cases x with
  | bottom => exact h rfl
  | _ => exact h

@[simp] lemma le_bottom_iff : x ≤ bottom ↔ x = bottom := by
  cases x with
  | bottom => simp
  | undefined => simp
  | finite a => exact ⟨False.elim, fun h => by cases h⟩
  | top => exact ⟨False.elim, fun h => by cases h⟩

@[simp] lemma top_le_iff : top ≤ x ↔ x = top := by
  cases x with
  | top => simp
  | undefined => simp
  | bottom => simp
  | finite a => exact ⟨False.elim, fun h => by cases h⟩

lemma ne_undefined_of_le (h : x ≤ y) : x ≠ undefined ∧ y ≠ undefined :=
  ⟨fun hx => not_undefined_le (hx ▸ h), fun hy => not_le_undefined (hy ▸ h)⟩

lemma le_top (h : x ≠ undefined) : x ≤ top := by
  cases x with
  | undefined => exact absurd rfl h
  | _ => simp

lemma le_trans (hxy : x ≤ y) (hyz : y ≤ z) : x ≤ z := by
  have hz := (ne_undefined_of_le hyz).2
  cases x with
  | undefined => exact absurd hxy not_undefined_le
  | bottom => exact hz
  | top =>
    obtain rfl := top_le_iff.1 hxy
    exact hyz
  | finite a =>
    cases y with
    | undefined => exact absurd hxy not_le_undefined
    | bottom => exact absurd (le_bottom_iff.1 hxy) (by simp)
    | top =>
      obtain rfl := top_le_iff.1 hyz
      exact finite_le_top
    | finite b =>
      cases z with
      | undefined => exact absurd rfl hz
      | bottom => exact absurd (le_bottom_iff.1 hyz) (by simp)
      | top => exact finite_le_top
      | finite c => exact le_trans (α := K) hxy hyz

/-- Above a number there are numbers and the top. -/
lemma finite_le_cases {a : K} (h : finite a ≤ x) : (∃ b, x = finite b ∧ a ≤ b) ∨ x = top := by
  cases x with
  | undefined => exact absurd h not_le_undefined
  | bottom => exact absurd (le_bottom_iff.1 h) (by simp)
  | finite b => exact .inl ⟨b, rfl, h⟩
  | top => exact .inr rfl

end

/-! ### The greatest of several values -/

variable [LinearOrder K]

/-- The greater of two values.  What is undefined is passed over. -/
def greater : Extended K → Extended K → Extended K
  | undefined, y => y
  | x, undefined => x
  | bottom, y => y
  | x, bottom => x
  | finite x, finite y => finite (max x y)
  | _, _ => top

/-- The greatest of several values, or bottom if there are none. -/
def greatest (xs : List (Extended K)) : Extended K := xs.foldl greater bottom

section

variable {m x : Extended K}

lemma greater_eq_bottom_iff (hm : m ≠ undefined) :
    greater m x = bottom ↔ m = bottom ∧ (x = bottom ∨ x = undefined) := by
  cases m <;> cases x <;> simp_all [greater]

lemma greater_eq_top_iff : greater m x = top ↔ m = top ∨ x = top := by
  cases m <;> cases x <;> simp [greater]

lemma greater_eq_undefined_iff : greater m x = undefined ↔ m = undefined ∧ x = undefined := by
  cases m <;> cases x <;> simp [greater]

lemma eq_or_eq_of_greater_eq_finite {a : K} (h : greater m x = finite a) :
    m = finite a ∨ x = finite a := by
  cases m <;> cases x <;> simp_all [greater]
  case finite.finite b c =>
    rcases max_choice b c with hmax | hmax
    · exact .inl (hmax ▸ h)
    · exact .inr (hmax ▸ h)

lemma le_greater (hm : m ≠ undefined) :
    m ≤ greater m x ∧ (x ≠ undefined → x ≤ greater m x) := by
  cases m <;> cases x <;> simp_all [greater]

end

variable {xs : List (Extended K)}

lemma greatest_append_singleton (xs : List (Extended K)) (x : Extended K) :
    greatest (xs ++ [x]) = greater (greatest xs) x := by
  rw [greatest, List.foldl_append, List.foldl_cons, List.foldl_nil, greatest]

lemma greatest_ne_undefined : greatest xs ≠ undefined := by
  induction xs using List.reverseRecOn with
  | nil => simp [greatest]
  | append_singleton xs x ih =>
    rw [greatest_append_singleton, Ne, greater_eq_undefined_iff]
    exact fun h => ih h.1

lemma greatest_eq_bottom_iff : greatest xs = bottom ↔ ∀ x ∈ xs, x = bottom ∨ x = undefined := by
  induction xs using List.reverseRecOn with
  | nil => simp [greatest]
  | append_singleton xs x ih =>
    rw [greatest_append_singleton, greater_eq_bottom_iff greatest_ne_undefined, ih,
      List.forall_mem_append, List.forall_mem_singleton]

lemma greatest_eq_top_iff : greatest xs = top ↔ top ∈ xs := by
  induction xs using List.reverseRecOn with
  | nil => simp [greatest]
  | append_singleton xs x ih =>
    rw [greatest_append_singleton, greater_eq_top_iff, ih, List.mem_append, List.mem_singleton,
      eq_comm (a := x)]

lemma mem_of_greatest_eq_finite {a : K} (h : greatest xs = finite a) : finite a ∈ xs := by
  induction xs using List.reverseRecOn with
  | nil => cases h
  | append_singleton xs x ih =>
    rw [greatest_append_singleton] at h
    rcases eq_or_eq_of_greater_eq_finite h with h | rfl
    · exact List.mem_append_left _ (ih h)
    · exact List.mem_append_right _ List.mem_cons_self

lemma le_greatest {x : Extended K} (hx : x ∈ xs) (hdefined : x ≠ undefined) :
    x ≤ greatest xs := by
  induction xs using List.reverseRecOn with
  | nil => cases hx
  | append_singleton xs y ih =>
    rw [greatest_append_singleton]
    have hdefinedSoFar : greatest xs ≠ undefined := greatest_ne_undefined
    obtain ⟨hold, hnew⟩ := le_greater (x := y) hdefinedSoFar
    rcases List.mem_append.1 hx with hx | hx
    · exact le_trans (ih hx) hold
    · obtain rfl := List.mem_singleton.1 hx
      exact hnew hdefined

/-- The greatest value is finite if there is a number among the values and nothing above it. -/
lemma exists_greatest_eq_finite {a : K} (ha : finite a ∈ xs) (htop : top ∉ xs) :
    ∃ m, greatest xs = finite m := by
  cases hm : greatest xs with
  | undefined => exact absurd hm greatest_ne_undefined
  | bottom => exact absurd (greatest_eq_bottom_iff.1 hm _ ha) (by simp)
  | finite m => exact ⟨m, rfl⟩
  | top => exact absurd (greatest_eq_top_iff.1 hm) htop

/-- With a finite greatest value all values are numbers or bottom. -/
lemma forall_le_of_greatest {m : K} (h : undefined ∉ xs) (hm : greatest xs = finite m) :
    ∀ x ∈ xs, (x ≠ undefined ∧ x ≠ top) ∧ x ≤ finite m := by
  intro x hx
  have hdefined : x ≠ undefined := ne_of_mem_of_not_mem hx h
  have hle : x ≤ finite m := hm ▸ le_greatest hx hdefined
  refine ⟨⟨hdefined, fun htop => ?_⟩, hle⟩
  rw [htop, top_le_iff] at hle
  cases hle

/-! ### Arithmetic -/

/-- What becomes of numbers in computations. -/
structure Arithmetic (K : Type) where
  /-- The value that stands for a number to which a sum comes. -/
  round : K → Extended K
  /-- The power of the base with the given exponent. -/
  exp : K → Extended K
  /-- The logarithm of a number greater than zero. -/
  log : K → Extended K

/-- The value with the other sign. -/
def neg [Neg K] : Extended K → Extended K
  | undefined => undefined
  | bottom => top
  | finite x => finite (-x)
  | top => bottom

end Extended

namespace Extended.Arithmetic

variable {K : Type} [Field K]

/-- Opposite infinities have no sum. -/
def add (A : Arithmetic K) : Extended K → Extended K → Extended K
  | undefined, _ => undefined
  | _, undefined => undefined
  | finite x, finite y => A.round (x + y)
  | bottom, top => undefined
  | top, bottom => undefined
  | bottom, _ => bottom
  | _, bottom => bottom
  | top, _ => top
  | _, top => top

def sub (A : Arithmetic K) (x y : Extended K) : Extended K := A.add x y.neg

/-- The power of the base with the given exponent. -/
def power (A : Arithmetic K) : Extended K → Extended K
  | undefined => undefined
  | bottom => finite 0
  | finite x => A.exp x
  | top => top

@[simp] lemma add_undefined (A : Arithmetic K) (x : Extended K) :
    A.add x undefined = undefined := by
  cases x <;> rfl

/-- One undefined term makes a sum undefined. -/
lemma foldl_add_eq_undefined (A : Arithmetic K) {ys : List (Extended K)} (h : undefined ∈ ys)
    (x : Extended K) : ys.foldl A.add x = undefined := by
  induction ys using List.reverseRecOn with
  | nil => cases h
  | append_singleton ys y ih =>
    rw [List.foldl_append, List.foldl_cons, List.foldl_nil]
    rcases List.mem_append.1 h with h | h
    · rw [ih h]
      rfl
    · rw [← List.mem_singleton.1 h, add_undefined]

variable [LinearOrder K]

/-- The logarithm.  That of zero is bottom, and below zero there is none. -/
def logarithm (A : Arithmetic K) : Extended K → Extended K
  | undefined => undefined
  | bottom => undefined
  | finite y => if 0 < y then A.log y else if y = 0 then bottom else undefined
  | top => top

/-- The operations of logarithmic arithmetic. -/
def scale (A : Arithmetic K) : LogScale (Extended K) where
  bottom := bottom
  zero := finite 0
  add := A.add
  sub := A.sub
  max := greater
  isInfinite := isInfinite
  exp := A.power
  log := A.logarithm

variable (A : Arithmetic K)

/-- The sum of the powers of `xs`, all lowered by `m`. -/
def shiftedSum (m : Extended K) (xs : List (Extended K)) : Extended K :=
  (xs.map fun x => A.power (A.sub x m)).foldl A.add (finite 0)

variable {xs : List (Extended K)}

/-- If there is no number among the values, and no top, the sum is empty. -/
lemma sumExp_eq_bottom (h : ∀ x ∈ xs, x = bottom ∨ x = undefined) :
    A.scale.sumExp xs = bottom := by
  have hgreatest : xs.foldl A.scale.max A.scale.bottom = bottom := greatest_eq_bottom_iff.2 h
  rw [LogScale.sumExp, hgreatest]
  rfl

lemma sumExp_eq_top (h : top ∈ xs) : A.scale.sumExp xs = top := by
  have hgreatest : xs.foldl A.scale.max A.scale.bottom = top := greatest_eq_top_iff.2 h
  rw [LogScale.sumExp, hgreatest]
  rfl

lemma sumExp_eq_of_finite {m : K} (h : greatest xs = finite m) :
    A.scale.sumExp xs =
      A.add (finite m) (A.logarithm (A.shiftedSum (finite m) xs)) := by
  have hgreatest : xs.foldl A.scale.max A.scale.bottom = finite m := h
  rw [LogScale.sumExp, hgreatest]
  rfl

end Extended.Arithmetic

end TreeGrammar
