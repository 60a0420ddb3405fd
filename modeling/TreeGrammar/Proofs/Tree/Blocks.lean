/-
# Blocks of the schedule

The schedule is the walk in preorder (`schedule_eq_plan`).  When the walk comes to a node, what is
below the node comes next with nothing else in between, so that every subtree is one block of the
schedule.  Within the block the node stands first, and behind it are the blocks of its children,
the last child of the last slot first (`schedule_inBlocks`).
-/
import TreeGrammar.Proofs.Tree.Preorder
import TreeGrammar.Tree.Strict

namespace TreeGrammar

lemma idxOf_append_cons_of_nodup {xs ys : List Nat} {x : Nat} (h : (xs ++ x :: ys).Nodup) :
    (xs ++ x :: ys).idxOf x = xs.length := by
  have hx : x ∉ xs := by
    intro hx
    exact (List.nodup_append'.1 h).2.2 hx List.mem_cons_self
  rw [List.idxOf_append_of_notMem hx, List.idxOf_cons_self, Nat.add_zero]

namespace Tree

variable {α : Type}

/-- `order` lists the nodes of `t` in blocks, one for every node. -/
structure InBlocks (t : Tree α) (order : List Nat) : Prop where
  /-- Listing the nodes never misses one. -/
  strict_eq : ∀ ε : Type, t.strictSchedule (ε := ε) = .ok order
  eq_preorder : order = t.preorder root
  /-- Every node is listed once. -/
  perm_ids : order.Perm t.ids
  /-- A node stands in front of all its descendants. -/
  idxOf_lt : ∀ v < t.size, ∀ w, t.Below v w → w ≠ v → order.idxOf v < order.idxOf w
  /-- The block of a node begins with the node and has all that is below it. -/
  block_eq : ∀ v < t.size, (order.drop (order.idxOf v)).take (t.subtreeSize v) = t.preorder v
  mem_block_iff : ∀ v w, w ∈ t.preorder v ↔ t.Below v w
  /-- Behind the node come the blocks of its children, from the last child of the last slot to
  the first child of the first. -/
  preorder_eq : ∀ v, t.preorder v =
    v :: (t.slots v).reverse.flatMap fun cs => cs.reverse.flatMap t.preorder
  subtreeSize_eq : ∀ v, t.subtreeSize v = 1 + ((t.children v).map t.subtreeSize).sum

/-- A node and the blocks of its children, slot by slot. -/
lemma preorder_eq_flatMap_slots (t : Tree α) (v : Nat) :
    t.preorder v = v :: (t.slots v).reverse.flatMap fun cs => cs.reverse.flatMap t.preorder := by
  rw [preorder_eq, children_eq_flatten, List.reverse_flatten, ← List.map_reverse,
    ← List.flatMap_def, List.flatMap_assoc]

/-- What is below a node is one block, at the place of the node. -/
lemma block_plan (t : Tree α) {v : Nat} (h : v < t.size) :
    (t.plan.drop (t.plan.idxOf v)).take (t.subtreeSize v) = t.preorder v := by
  obtain ⟨before, behind, hplan⟩ := (below_root h).isInfix_preorder
  have hnodup : t.plan.Nodup := t.nodup_preorder root
  have hplan : t.plan = before ++ (t.preorder v ++ behind) := by
    rw [← List.append_assoc]
    exact hplan.symm
  have hidx : t.plan.idxOf v = before.length := by
    rw [hplan, preorder_eq, List.cons_append] at hnodup ⊢
    exact idxOf_append_cons_of_nodup hnodup
  rw [hidx, hplan, List.drop_left, subtreeSize, List.take_left]

/-- No node stands in front of one that it is below. -/
lemma idxOf_plan_lt (t : Tree α) {v w : Nat} (hv : v < t.size) (h : t.Below v w) (hne : w ≠ v) :
    t.plan.idxOf v < t.plan.idxOf w := by
  have hiv : t.plan.idxOf v < t.plan.length := List.idxOf_lt_length_of_mem (mem_plan_iff.2 hv)
  have hiw : t.plan.idxOf w < t.plan.length :=
    List.idxOf_lt_length_of_mem (mem_plan_iff.2 (h.lt_size hv))
  by_contra hle
  have hidx : t.plan.idxOf w ≠ t.plan.idxOf v := by
    intro heq
    have hget := List.getElem_idxOf hiw
    simp only [heq, List.getElem_idxOf hiv] at hget
    exact hne hget.symm
  have horder : ¬ t.Below t.plan[t.plan.idxOf v] t.plan[t.plan.idxOf w] :=
    List.pairwise_iff_getElem.1 (t.pairwise_preorder root) _ _ hiw hiv (by omega)
  rw [List.getElem_idxOf hiv, List.getElem_idxOf hiw] at horder
  exact horder h

/-- The nodes are scheduled in blocks. -/
theorem schedule_inBlocks (t : Tree α) : t.InBlocks t.schedule where
  strict_eq _ := t.strictSchedule_eq
  eq_preorder := t.schedule_eq_plan
  perm_ids := by
    rw [schedule_eq_plan]
    exact t.plan_perm_ids
  idxOf_lt v hv w h hne := by
    rw [schedule_eq_plan]
    exact t.idxOf_plan_lt hv h hne
  block_eq v hv := by
    rw [schedule_eq_plan]
    exact t.block_plan hv
  mem_block_iff v w := mem_preorder_iff
  preorder_eq := t.preorder_eq_flatMap_slots
  subtreeSize_eq := t.subtreeSize_eq

end Tree

end TreeGrammar
