/-
# Preorder

The walk with a stack yields a node and then, from the last child to the first, what it yields
for the children.  So it meets exactly the nodes below the one it starts from, each of them
once, and none before a node above it.
-/
import TreeGrammar.Proofs.Tree.Below
import TreeGrammar.Tree.Schedule

namespace TreeGrammar.Tree

variable {α : Type} {t : Tree α}

lemma walk_append_seen (t : Tree α) (todo seen : List Nat) :
    t.walk todo seen = t.walk todo [] ++ seen := by
  -- the stack decides what is walked, and what was seen before is carried along
  have key : ∀ todo seen more, t.walk todo (seen ++ more) = t.walk todo seen ++ more := by
    intro todo seen
    induction todo, seen using walk.induct t with
    | case1 seen => intro more; rw [walk, walk]
    | case2 v todo seen ih => intro more; rw [walk, walk]; exact ih more
  exact key todo [] seen

lemma walk_append (t : Tree α) (xs ys seen : List Nat) :
    t.walk (xs ++ ys) seen = t.walk ys (t.walk xs seen) := by
  induction xs, seen using walk.induct t with
  | case1 seen => rw [List.nil_append, walk]
  | case2 v todo seen ih =>
    rw [List.cons_append, walk, walk, ← List.append_assoc]
    exact ih

/-- The nodes on the stack are walked below one after the other. -/
lemma reverse_walk (t : Tree α) (todo : List Nat) :
    (t.walk todo []).reverse = todo.flatMap t.preorder := by
  induction todo with
  | nil => rw [walk]; rfl
  | cons v todo ih =>
    have hsplit : t.walk (v :: todo) [] = t.walk todo [] ++ t.walk [v] [] := by
      rw [← walk_append_seen]
      exact t.walk_append [v] todo []
    rw [hsplit, List.reverse_append, ih, List.flatMap_cons, preorder]

/-- A node comes first, and its children follow, the last one first. -/
theorem preorder_eq (t : Tree α) (v : Nat) :
    t.preorder v = v :: (t.children v).reverse.flatMap t.preorder := by
  rw [preorder, walk, List.append_nil, walk_append_seen, List.reverse_append, reverse_walk]
  rfl

theorem mem_preorder_iff {v w : Nat} : w ∈ t.preorder v ↔ t.Below v w := by
  induction v using t.induction_children with
  | node v ih =>
    rw [preorder_eq, List.mem_cons, List.mem_flatMap]
    constructor
    · rintro (rfl | ⟨c, hc, hw⟩)
      · exact Below.refl w
      · have hc := List.mem_reverse.1 hc
        exact Below.of_child hc ((ih c hc).1 hw)
    · intro h
      rcases h.cases_child with rfl | ⟨c, hc, hw⟩
      · exact .inl rfl
      · exact .inr ⟨c, List.mem_reverse.2 hc, (ih c hc).2 hw⟩

lemma mem_plan_iff {v : Nat} : v ∈ t.plan ↔ v < t.size := by
  rw [plan, mem_preorder_iff]
  exact ⟨fun h => h.lt_size t.root_lt_size, below_root⟩

/-- No node comes after one below it. -/
theorem pairwise_preorder (t : Tree α) (v : Nat) :
    (t.preorder v).Pairwise fun a b => ¬ t.Below b a := by
  induction v using t.induction_children with
  | node v ih =>
    rw [preorder_eq, List.pairwise_cons, List.pairwise_flatMap]
    refine ⟨?_, fun c hc => ih c (List.mem_reverse.1 hc), ?_⟩
    · intro b hb hbv
      obtain ⟨c, hc, hcb⟩ := List.mem_flatMap.1 hb
      exact not_below_of_mem_children (List.mem_reverse.1 hc) ((mem_preorder_iff.1 hcb).trans hbv)
    · -- what hangs below different children is unrelated
      refine List.Pairwise.imp_of_mem ?_ (List.nodup_reverse.2 (t.nodup_children v))
      intro c d hc hd hcd a ha b hb hba
      have hda := (mem_preorder_iff.1 hb).trans hba
      exact hcd (child_unique (List.mem_reverse.1 hc) (List.mem_reverse.1 hd)
        (mem_preorder_iff.1 ha) hda)

theorem nodup_preorder (t : Tree α) (v : Nat) : (t.preorder v).Nodup := by
  refine (t.pairwise_preorder v).imp ?_
  rintro a b h rfl
  exact h (Below.refl a)

/-- What is below a node comes in no earlier part of the preorder. -/
lemma mem_of_below_of_plan_eq {xs ys : List Nat} (h : t.plan = xs ++ ys) {v w : Nat}
    (hv : v ∈ ys) (hw : t.Below v w) : w ∈ ys := by
  have horder := t.pairwise_preorder root
  rw [← plan, h, List.pairwise_append] at horder
  have hsize : v < t.size := mem_plan_iff.1 (h ▸ List.mem_append_right xs hv)
  have hplan : w ∈ xs ++ ys := h ▸ mem_plan_iff.2 (hw.lt_size hsize)
  rcases List.mem_append.1 hplan with hxs | hys
  · exact absurd hw (horder.2.2 w hxs v hv)
  · exact hys

/-- What is below a node comes in one piece in what is below any node above it. -/
lemma Below.isInfix_preorder {v w : Nat} (h : t.Below v w) : t.preorder w <:+: t.preorder v := by
  induction h with
  | refl => exact List.infix_rfl
  | @tail u c _ hc ih =>
    refine List.IsInfix.trans ?_ ih
    rw [t.preorder_eq u]
    refine List.infix_cons ?_
    exact List.infix_of_mem_flatten (List.mem_map_of_mem (List.mem_reverse.2 hc))

/-- Preorder lists all nodes. -/
theorem plan_perm_ids (t : Tree α) : t.plan.Perm t.ids := by
  refine (List.perm_ext_iff_of_nodup (t.nodup_preorder root) List.nodup_range).2 fun v => ?_
  rw [← plan, mem_plan_iff]
  exact List.mem_range.symm

/-! ### The schedule -/

/-- What is below the nodes on the stack is listed node after node. -/
lemma toList_scheduleFrom (t : Tree α) (todo : List Nat) (ordered : Array Nat) :
    (t.scheduleFrom todo ordered).toList = ordered.toList ++ todo.flatMap t.preorder := by
  induction todo, ordered using scheduleFrom.induct t with
  | case1 ordered => rw [scheduleFrom, List.flatMap_nil, List.append_nil]
  | case2 v todo ordered ih =>
    rw [scheduleFrom, ih, pushSlots_slots, List.flatMap_append, List.flatMap_cons, t.preorder_eq v,
      Array.toList_push]
    simp only [List.append_assoc, List.cons_append, List.nil_append]

/-- Nodes are listed in preorder. -/
theorem schedule_eq_plan (t : Tree α) : t.schedule = t.plan := by
  rw [schedule, toList_scheduleFrom]
  exact List.append_nil _

/-! ### Counting -/

lemma subtreeSize_eq (t : Tree α) (v : Nat) :
    t.subtreeSize v = 1 + ((t.children v).map t.subtreeSize).sum := by
  rw [subtreeSize, preorder_eq, List.length_cons, List.length_flatMap, Nat.add_comm,
    List.map_reverse, List.sum_reverse]
  rfl

lemma subtreeSize_root (t : Tree α) : t.subtreeSize root = t.size := by
  rw [subtreeSize, ← plan, t.plan_perm_ids.length_eq, ids, List.length_range]

end TreeGrammar.Tree
