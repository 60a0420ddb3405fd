/-
# Strict reading

The functions that look at a tree answer for every number.  A strict computation is less
patient: it stops at a position that is no node of the tree, and where more children are
taken from a slot than it holds.  The walks are stated here once more with these checks, one
in front of every reading.  Started at nodes of the tree they never stop, because the
children of a node are nodes; then they answer as the plain walks do.
-/
import TreeGrammar.Tree.Copy
import TreeGrammar.Tree.Equality
import TreeGrammar.Tree.Schedule

namespace TreeGrammar

/-- A reading that finds nothing to read. -/
inductive Misread where
  /-- The tree has `size` nodes, and none at the position. -/
  | outside (node size : Nat)
  /-- The first `wanted` children are taken from a slot that has `present` of them. -/
  | short (wanted present : Nat)
deriving DecidableEq

/-- Why a strict computation stops. -/
inductive Fault (ε : Type) where
  | misread (m : Misread)
  /-- The computation fails, strict or not. -/
  | failed (e : ε)
deriving DecidableEq

/-- The fault with its error put in other words. -/
def Fault.map {ε ζ : Type} (f : ε → ζ) : Fault ε → Fault ζ
  | misread m => misread m
  | failed e => failed (f e)

/-- Computations that stop at the first misreading. -/
abbrev Strict (ε : Type) := Except (Fault ε)

@[simp] theorem ok_bind {ε β γ : Type} (x : β) (f : β → Except ε γ) :
    (Except.ok x >>= f) = f x := rfl

@[simp] theorem error_bind {ε β γ : Type} (e : ε) (f : β → Except ε γ) :
    (Except.error e >>= f) = .error e := rfl

theorem bind_eq_ok {ε β γ : Type} {x : Except ε β} {f : β → Except ε γ} {z : γ} :
    (x >>= f) = .ok z ↔ ∃ y, x = .ok y ∧ f y = .ok z := by
  cases x with
  | error e => simp
  | ok y => simp

@[simp] theorem mapError_ok {ε ζ β : Type} (f : ε → ζ) (x : β) :
    (Except.ok x).mapError f = .ok x := rfl

@[simp] theorem mapError_error {ε ζ β : Type} (f : ε → ζ) (e : ε) :
    (Except.error e : Except ε β).mapError f = .error (f e) := rfl

theorem mapError_eq_ok {ε ζ β : Type} {f : ε → ζ} {x : Except ε β} {y : β} :
    x.mapError f = .ok y ↔ x = .ok y := by
  cases x with
  | error e => simp
  | ok x => simp

theorem mapError_bind {ε ζ β γ : Type} (g : ε → ζ) (x : Except ε β) (f : β → Except ε γ) :
    (x >>= f).mapError g = (x.mapError g >>= fun y => (f y).mapError g) := by
  cases x with
  | error e => rfl
  | ok y => rfl

/-- The first `k` members of a list, which has to have so many. -/
def strictTake {ε β : Type} (xs : List β) (k : Nat) : Strict ε (List β) :=
  if k ≤ xs.length then .ok (xs.take k) else .error (.misread (.short k xs.length))

theorem strictTake_eq {ε β : Type} {xs : List β} {k : Nat} (h : k ≤ xs.length) :
    strictTake (ε := ε) xs k = .ok (xs.take k) := if_pos h

namespace Tree

variable {α ε : Type}

/-- Stops unless `v` is a node of the tree. -/
def guard (t : Tree α) (v : Nat) : Strict ε Unit :=
  if t.contains v then .ok () else .error (.misread (.outside v t.size))

theorem guard_of_lt (t : Tree α) {v : Nat} (h : v < t.size) :
    t.guard (ε := ε) v = .ok () := by
  simp [guard, contains, h]

theorem lt_size_of_guard {t : Tree α} {v : Nat} {x : Unit}
    (h : t.guard (ε := ε) v = .ok x) : v < t.size := by
  rw [guard] at h
  split at h
  · rename_i hv
    simpa [contains] using hv
  · cases h

theorem pairChildren_lt_size (t u : Tree α) {v w : Nat} {p : Nat × Nat}
    (h : p ∈ pairChildren (t.slots v) (u.slots w)) : p.1 < t.size ∧ p.2 < u.size :=
  ⟨t.child_lt_size (left_mem_of_mem_pairChildren h),
    u.child_lt_size (right_mem_of_mem_pairChildren h)⟩

/-! ### Walking -/

/-- `scheduleFrom`, stopping at what is no node. -/
def strictScheduleFrom (t : Tree α) : List Nat → Array Nat → Strict ε (Array Nat)
  | [], ordered => .ok ordered
  | v :: todo, ordered => do
    t.guard v
    t.strictScheduleFrom (pushSlots (t.slots v) todo) (ordered.push v)
termination_by todo => t.forestWeight todo
decreasing_by exact t.forestWeight_pushSlots_lt v todo

/-- `schedule`, stopping at what is no node. -/
def strictSchedule (t : Tree α) : Strict ε (List Nat) :=
  (t.strictScheduleFrom [root] #[]).map Array.toList

theorem strictScheduleFrom_eq (t : Tree α) (todo : List Nat) (ordered : Array Nat)
    (h : ∀ v ∈ todo, v < t.size) :
    t.strictScheduleFrom (ε := ε) todo ordered = .ok (t.scheduleFrom todo ordered) := by
  induction todo, ordered using scheduleFrom.induct t with
  | case1 ordered => rw [strictScheduleFrom, scheduleFrom]
  | case2 v todo ordered ih =>
    obtain ⟨hv, htodo⟩ := List.forall_mem_cons.1 h
    have hnext : ∀ w ∈ pushSlots (t.slots v) todo, w < t.size := by
      intro w hw
      rw [pushSlots_slots] at hw
      rcases List.mem_append.1 hw with hw | hw
      · exact t.child_lt_size (List.mem_reverse.1 hw)
      · exact htodo w hw
    rw [strictScheduleFrom, scheduleFrom, t.guard_of_lt hv]
    exact ih hnext

theorem strictSchedule_eq (t : Tree α) : t.strictSchedule (ε := ε) = .ok t.schedule := by
  rw [strictSchedule, t.strictScheduleFrom_eq [root] #[] (by simpa using t.root_lt_size)]
  rfl

/-! ### Comparing -/

/-- `agree`, stopping at a pair of which one is no node. -/
def strictAgree (eq : α → α → Bool) (t u : Tree α) : List (Nat × Nat) → Strict ε Bool
  | [] => .ok true
  | (v, w) :: todo => do
    t.guard v
    u.guard w
    if eq (t.label v) (u.label w) &&
        (pairSlots (t.slots v) (u.slots w)).all fun p => p.1.length == p.2.length then
      strictAgree eq t u ((pairChildren (t.slots v) (u.slots w)).reverse ++ todo)
    else .ok false
termination_by todo => t.forestWeight (todo.map (·.1))
decreasing_by
  have := t.weight_eq v
  have := t.forestWeight_pairChildren_le v (u.slots w)
  simp
  omega

/-- `structEq`, stopping at what is no node. -/
def strictStructEq (eq : α → α → Bool) (t : Tree α) (v : Nat) (u : Tree α) (w : Nat) :
    Strict ε Bool :=
  strictAgree eq t u [(v, w)]

theorem strictAgree_eq (eq : α → α → Bool) (t u : Tree α) (todo : List (Nat × Nat))
    (h : ∀ p ∈ todo, p.1 < t.size ∧ p.2 < u.size) :
    strictAgree (ε := ε) eq t u todo = .ok (agree eq t u todo) := by
  induction todo using agree.induct eq t u with
  | case1 => simp [strictAgree, agree]
  | case2 v w todo hc ih =>
    obtain ⟨⟨hv, hw⟩, htodo⟩ := List.forall_mem_cons.1 h
    have hnext : ∀ p ∈ (pairChildren (t.slots v) (u.slots w)).reverse ++ todo,
        p.1 < t.size ∧ p.2 < u.size := by
      intro p hp
      rcases List.mem_append.1 hp with hp | hp
      · exact pairChildren_lt_size t u (List.mem_reverse.1 hp)
      · exact htodo p hp
    rw [strictAgree, agree, t.guard_of_lt hv, u.guard_of_lt hw, if_pos hc, if_pos hc]
    exact ih hnext
  | case3 v w todo hc =>
    obtain ⟨⟨hv, hw⟩, -⟩ := List.forall_mem_cons.1 h
    rw [strictAgree, agree, t.guard_of_lt hv, u.guard_of_lt hw, if_neg hc, if_neg hc]
    rfl

theorem strictStructEq_eq (eq : α → α → Bool) (t u : Tree α) {v w : Nat} (hv : v < t.size)
    (hw : w < u.size) : strictStructEq (ε := ε) eq t v u w = .ok (structEq eq t v u w) :=
  strictAgree_eq eq t u [(v, w)] (by simpa using ⟨hv, hw⟩)

/-! ### Copying one level -/

/-- `oneLevel`, stopping unless `v` and its children are nodes. -/
def strictOneLevel (t : Tree α) (v : Nat) : Strict ε (Tree α) := do
  t.guard v
  forM (t.children v) t.guard
  return t.oneLevel v

theorem forM_guard_eq (t : Tree α) (vs : List Nat) (h : ∀ v ∈ vs, v < t.size) :
    forM vs (t.guard (ε := ε)) = .ok () := by
  induction vs with
  | nil => rfl
  | cons v vs ih =>
    obtain ⟨hv, hvs⟩ := List.forall_mem_cons.1 h
    rw [List.forM_cons, t.guard_of_lt hv]
    exact ih hvs

theorem strictOneLevel_eq (t : Tree α) {v : Nat} (h : v < t.size) :
    t.strictOneLevel (ε := ε) v = .ok (t.oneLevel v) := by
  rw [strictOneLevel, t.guard_of_lt h]
  change (do forM (t.children v) t.guard; return t.oneLevel v) = _
  rw [t.forM_guard_eq _ fun c hc => t.child_lt_size hc]
  rfl

end Tree

end TreeGrammar
