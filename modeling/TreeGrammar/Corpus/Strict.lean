/-
# Cutting a treebank apart, strictly

The pieces of a treebank with a check in front of every reading, and with copies that grow
node by node, each new node going on the stack under the position that it got.  A tree cannot
grow where there is no such node or slot, and not beyond the last position there is.
-/
import TreeGrammar.Corpus.Treebank
import TreeGrammar.Tree.Change
import TreeGrammar.Tree.Strict

namespace TreeGrammar

namespace Tree

variable {α : Type} (last : Nat) (t : Tree α)

/-- `addChild`, where positions end at `last`. -/
def addChildUpTo (p s : Nat) (label : α) (k : Nat) : Except GrowthError (Nat × Tree α) := do
  let grown ← (t.addChild p s label k).mapError .place
  if t.size ≤ last then return grown else .error (.full last)

/-- A childless copy of node `c` of `t` is hung in slot `s` under node `dst` of the copy, and
goes on the stack. -/
def strictHang (dst s : Nat) (st : Tree α × List (Nat × Nat)) (c : Nat) :
    Strict GrowthError (Tree α × List (Nat × Nat)) := do
  t.guard c
  let grown ← (st.1.addChildUpTo last dst s (t.label c) (t.slotCount c)).mapError .failed
  return (grown.2, (c, grown.1) :: st.2)

/-- The children of node `src` of `t` are hung under node `dst` of the copy and go on the
stack. -/
def strictHangAll (src dst : Nat) (st : Tree α × List (Nat × Nat)) :
    Strict GrowthError (Tree α × List (Nat × Nat)) :=
  (t.slots src).zipIdx.foldlM (fun st e => e.1.foldlM (t.strictHang last dst e.2) st) st

variable {last t}

theorem map_fst_of_strictHang {dst s c : Nat} {st st' : Tree α × List (Nat × Nat)}
    (h : t.strictHang last dst s st c = .ok st') :
    st'.2.map (·.1) = c :: st.2.map (·.1) := by
  obtain ⟨-, -, h⟩ := bind_eq_ok.1 h
  obtain ⟨grown, -, h⟩ := bind_eq_ok.1 h
  cases h
  rfl

theorem map_fst_of_foldlM_strictHang {dst s : Nat} {cs : List Nat}
    {st st' : Tree α × List (Nat × Nat)}
    (h : cs.foldlM (t.strictHang last dst s) st = .ok st') :
    st'.2.map (·.1) = cs.reverse ++ st.2.map (·.1) := by
  induction cs generalizing st with
  | nil =>
    cases h
    rfl
  | cons c cs ih =>
    rw [List.foldlM_cons] at h
    obtain ⟨st₁, h₁, h⟩ := bind_eq_ok.1 h
    rw [ih h, map_fst_of_strictHang h₁, List.reverse_cons, List.append_assoc]
    rfl

theorem map_fst_of_strictHangAll {src dst : Nat} {st st' : Tree α × List (Nat × Nat)}
    (h : t.strictHangAll last src dst st = .ok st') :
    st'.2.map (·.1) = (t.children src).reverse ++ st.2.map (·.1) := by
  have key : ∀ (xs : List (List Nat)) (n : Nat) (st : Tree α × List (Nat × Nat)),
      (xs.zipIdx n).foldlM (fun st e => e.1.foldlM (t.strictHang last dst e.2) st) st = .ok st' →
      st'.2.map (·.1) = xs.flatten.reverse ++ st.2.map (·.1) := by
    intro xs
    induction xs with
    | nil =>
      intro n st h
      cases h
      rfl
    | cons cs xs ih =>
      intro n st h
      rw [List.zipIdx_cons, List.foldlM_cons] at h
      obtain ⟨st₁, h₁, h⟩ := bind_eq_ok.1 h
      rw [ih _ _ h, map_fst_of_foldlM_strictHang h₁, List.flatten_cons, List.reverse_append,
        List.append_assoc]
  exact key _ 0 st h

variable (last t)

/-- `copyUntil`, stopping at what is no node and where the copy cannot grow. -/
def strictCopyUntil (stop : Nat → Strict GrowthError Bool) :
    List (Nat × Nat) → Tree α → List Nat → Strict GrowthError (Tree α × List Nat)
  | [], copy, cut => .ok (copy, cut)
  | (src, dst) :: todo, copy, cut =>
    match stop src with
    | .error e => .error e
    | .ok true => strictCopyUntil stop todo copy ((t.children src).reverse ++ cut)
    | .ok false =>
      match _h : t.strictHangAll last src dst (copy, todo) with
      | .error e => .error e
      | .ok st => strictCopyUntil stop st.2 st.1 cut
termination_by todo => t.forestWeight (todo.map (·.1))
decreasing_by
  all_goals have hweight := t.weight_eq src
  · simp
    omega
  · rw [map_fst_of_strictHangAll _h]
    simp
    omega

/-- `prune`, stopping at what is no node and where the copy cannot grow. -/
def strictPrune (stop : Nat → Strict GrowthError Bool) (v : Nat) :
    Strict GrowthError (Tree α × List Nat) := do
  t.guard v
  let p ← t.strictCopyUntil last stop [(v, root)] (single (t.label v) (t.slotCount v)) []
  return (p.1, p.2.reverse)

variable {last t} {stop : Nat → Strict GrowthError Bool}

theorem strictCopyUntil_of_stop {src dst : Nat} (h : stop src = .ok true)
    (todo : List (Nat × Nat)) (copy : Tree α) (cut : List Nat) :
    t.strictCopyUntil last stop ((src, dst) :: todo) copy cut =
      t.strictCopyUntil last stop todo copy ((t.children src).reverse ++ cut) := by
  rw [strictCopyUntil, h]

theorem strictCopyUntil_of_not_stop {src dst : Nat} (h : stop src = .ok false)
    (todo : List (Nat × Nat)) (copy : Tree α) (cut : List Nat) :
    t.strictCopyUntil last stop ((src, dst) :: todo) copy cut =
      (t.strictHangAll last src dst (copy, todo) >>= fun st =>
        t.strictCopyUntil last stop st.2 st.1 cut) := by
  rw [strictCopyUntil, h]
  dsimp only
  split
  · rename_i e he
    rw [he]
    rfl
  · rename_i st hst
    rw [hst]
    rfl

theorem forestWeight_strictCopyUntil_le {todo : List (Nat × Nat)} {copy : Tree α}
    {cut : List Nat} {p : Tree α × List Nat}
    (h : t.strictCopyUntil last stop todo copy cut = .ok p) :
    t.forestWeight p.2 + todo.length ≤ t.forestWeight (todo.map (·.1)) + t.forestWeight cut := by
  induction todo, copy, cut using strictCopyUntil.induct last t stop with
  | case1 copy cut =>
    rw [strictCopyUntil] at h
    cases h
    simp
  | case2 src dst todo copy cut e hstop =>
    rw [strictCopyUntil, hstop] at h
    cases h
  | case3 src dst todo copy cut hstop ih =>
    have := t.weight_eq src
    rw [strictCopyUntil_of_stop hstop] at h
    have := ih h
    simp at this ⊢
    omega
  | case4 src dst todo copy cut hstop e hhang =>
    rw [strictCopyUntil_of_not_stop hstop, hhang] at h
    cases h
  | case5 src dst todo copy cut hstop st hhang ih =>
    have := t.weight_eq src
    rw [strictCopyUntil_of_not_stop hstop, hhang] at h
    have := ih h
    have hpushed := map_fst_of_strictHangAll hhang
    have hlength := congrArg List.length hpushed
    rw [hpushed] at this
    simp at this hlength ⊢
    omega

theorem forestWeight_strictPrune_lt {v : Nat} {p : Tree α × List Nat}
    (h : t.strictPrune last stop v = .ok p) : t.forestWeight p.2 < t.weight v := by
  obtain ⟨-, -, h⟩ := bind_eq_ok.1 h
  obtain ⟨q, hq, h⟩ := bind_eq_ok.1 h
  cases h
  have := forestWeight_strictCopyUntil_le hq
  simp at this ⊢
  omega

variable (last t)

/-- `splitFrom`, stopping at what is no node and where a copy cannot grow. -/
def strictSplitFrom (stop : Nat → Strict GrowthError Bool) :
    List Nat → List (Tree α) → Strict GrowthError (List (Tree α))
  | [], out => .ok out.reverse
  | v :: queue, out =>
    match _h : t.strictPrune last stop v with
    | .error e => .error e
    | .ok p => strictSplitFrom stop (queue ++ p.2) (if p.1.isLeaf root then out else p.1 :: out)
termination_by queue => t.forestWeight queue
decreasing_by
  have := forestWeight_strictPrune_lt _h
  simp
  omega

theorem strictSplitFrom_cons {stop : Nat → Strict GrowthError Bool} (v : Nat)
    (queue : List Nat) (out : List (Tree α)) :
    t.strictSplitFrom last stop (v :: queue) out =
      (t.strictPrune last stop v >>= fun p =>
        t.strictSplitFrom last stop (queue ++ p.2)
          (if p.1.isLeaf root then out else p.1 :: out)) := by
  rw [strictSplitFrom]
  split
  · rename_i e he
    rw [he]
    rfl
  · rename_i p hp
    rw [hp]
    rfl

/-- `split`, stopping at what is no node and where a copy cannot grow. -/
def strictSplit (stop : Nat → Strict GrowthError Bool) : Strict GrowthError (List (Tree α)) :=
  t.strictSplitFrom last stop [root] []

end Tree

namespace Treebank

variable {α : Type} [BEq α] [Hashable α]

/-- `isRare`, stopping at what is no node. -/
def strictIsRare {ε : Type} (b : Treebank α) (limit : Nat) (t : Tree α) (v : Nat) :
    Strict ε Bool := do
  t.guard v
  if t.isLeaf v then return false
  else
    forM (t.children v) t.guard
    return decide (b.count t v < limit)

/-- `pieces`, stopping at what is no node and where a piece cannot grow. -/
def strictPieces (last : Nat) (b : Treebank α) (limit : Nat) :
    Strict GrowthError (List (Tree α)) := do
  let groups ← b.trees.toList.mapM fun t => t.strictSplit last (b.strictIsRare limit t)
  return groups.flatten

theorem strictIsRare_eq {ε : Type} (b : Treebank α) (limit : Nat) (t : Tree α) {v : Nat}
    (h : v < t.size) : b.strictIsRare (ε := ε) limit t v = .ok (b.isRare limit t v) := by
  have hguard : forM (t.children v) (t.guard (ε := ε)) = .ok () :=
    t.forM_guard_eq _ fun c hc => t.child_lt_size hc
  rw [strictIsRare, isRare, t.guard_of_lt h, ok_bind, hguard]
  cases t.isLeaf v with
  | true => rfl
  | false => rfl

end Treebank

end TreeGrammar
