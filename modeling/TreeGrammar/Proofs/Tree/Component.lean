/-
# Components

When all links from some nodes to their children are deleted, the tree falls apart into
components.  A component hangs together downwards from its highest node, which is the root of
the tree or the child of a node that lost its children.  `component` lists it in preorder: a
node is followed by the components of its children, the last one first, unless it lost them.
-/
import TreeGrammar.Proofs.Tree.Preorder

namespace TreeGrammar.Tree

variable {α : Type} {t : Tree α} {stop : Nat → Bool}

/-- A link that is left when those from the nodes in `stop` to their children are deleted. -/
def Edge (t : Tree α) (stop : Nat → Bool) (v c : Nat) : Prop :=
  stop v = false ∧ c ∈ t.children v

/-- Two nodes are in one component of what is left. -/
def Connected (t : Tree α) (stop : Nat → Bool) : Nat → Nat → Prop :=
  Relation.EqvGen (t.Edge stop)

/-- The nodes to which links lead down from `v`, in preorder. -/
def component (t : Tree α) (stop : Nat → Bool) (v : Nat) : List Nat :=
  v :: if stop v then []
    else (t.children v).attach.reverse.flatMap fun c => t.component stop c.1
termination_by t.size - v
decreasing_by
  have := t.lt_of_mem_children c.2
  have := t.child_lt_size c.2
  omega

theorem component_eq (t : Tree α) (stop : Nat → Bool) (v : Nat) :
    t.component stop v =
      v :: if stop v then [] else (t.children v).reverse.flatMap (t.component stop) := by
  have hback : (t.children v).reverse = (t.children v).attach.reverse.map (·.1) := by
    rw [List.map_reverse, List.attach_map_subtype_val]
  rw [component, hback, List.flatMap_map]

lemma component_of_stop {v : Nat} (h : stop v = true) : t.component stop v = [v] := by
  rw [component_eq, if_pos h]

lemma component_of_not_stop {v : Nat} (h : stop v = false) :
    t.component stop v = v :: (t.children v).reverse.flatMap (t.component stop) := by
  rw [component_eq, if_neg (by simp [h])]

lemma self_mem_component (t : Tree α) (stop : Nat → Bool) (v : Nat) :
    v ∈ t.component stop v := by
  rw [component_eq]
  exact List.mem_cons_self

theorem mem_component_iff {v w : Nat} :
    w ∈ t.component stop v ↔ Relation.ReflTransGen (t.Edge stop) v w := by
  induction v using t.induction_children with
  | node v ih =>
    by_cases hstop : stop v = true
    · rw [component_of_stop hstop, List.mem_singleton]
      constructor
      · rintro rfl
        exact .refl
      · intro h
        rcases Relation.ReflTransGen.cases_head h with rfl | ⟨c, ⟨hc, -⟩, -⟩
        · rfl
        · rw [hstop] at hc
          cases hc
    · have hstop : stop v = false := by simpa using hstop
      rw [component_of_not_stop hstop, List.mem_cons, List.mem_flatMap]
      constructor
      · rintro (rfl | ⟨c, hc, hw⟩)
        · exact .refl
        · have hc := List.mem_reverse.1 hc
          exact .head ⟨hstop, hc⟩ ((ih c hc).1 hw)
      · intro h
        rcases Relation.ReflTransGen.cases_head h with rfl | ⟨c, ⟨-, hc⟩, hcw⟩
        · exact .inl rfl
        · exact .inr ⟨c, List.mem_reverse.2 hc, (ih c hc).2 hcw⟩

/-- A component is listed in the order of the whole tree. -/
theorem component_sublist_preorder (t : Tree α) (stop : Nat → Bool) (v : Nat) :
    (t.component stop v).Sublist (t.preorder v) := by
  induction v using t.induction_children with
  | node v ih =>
    rw [component_eq, preorder_eq]
    refine List.Sublist.cons_cons v ?_
    split
    · exact List.nil_sublist _
    · exact List.Sublist.flatMap_right _ fun c hc => ih c (List.mem_reverse.1 hc)

lemma nodup_component (t : Tree α) (stop : Nat → Bool) (v : Nat) :
    (t.component stop v).Nodup :=
  (t.nodup_preorder v).sublist (t.component_sublist_preorder stop v)

lemma below_of_mem_component {v w : Nat} (h : w ∈ t.component stop v) : t.Below v w :=
  mem_preorder_iff.1 ((t.component_sublist_preorder stop v).mem h)

/-! ### What is cut off -/

/-- The children that the nodes of a component lost. -/
def cutOff (t : Tree α) (stop : Nat → Bool) (v : Nat) : List Nat :=
  ((t.component stop v).filter stop).flatMap t.children

lemma lt_size_of_mem_cutOff {v c : Nat} (h : c ∈ t.cutOff stop v) : c < t.size := by
  obtain ⟨w, -, hc⟩ := List.mem_flatMap.1 h
  exact t.child_lt_size hc

lemma cutOff_of_stop {v : Nat} (h : stop v = true) : t.cutOff stop v = t.children v := by
  rw [cutOff, component_of_stop h, List.filter_cons_of_pos h]
  simp

lemma cutOff_of_not_stop {v : Nat} (h : stop v = false) :
    t.cutOff stop v = (t.children v).reverse.flatMap (t.cutOff stop) := by
  rw [cutOff, component_of_not_stop h, List.filter_cons_of_neg (by simp [h]),
    List.filter_flatMap, List.flatMap_assoc]
  rfl

/-- The tree at `v` is the component of `v` together with the trees cut off from it. -/
theorem component_append_cutOff_perm (t : Tree α) (stop : Nat → Bool) (v : Nat) :
    (t.component stop v ++ (t.cutOff stop v).flatMap t.preorder).Perm (t.preorder v) := by
  induction v using t.induction_children with
  | node v ih =>
    rw [preorder_eq]
    by_cases hstop : stop v = true
    · rw [component_of_stop hstop, cutOff_of_stop hstop, List.singleton_append]
      exact (List.Perm.flatMap_right _ (List.reverse_perm _).symm).cons v
    · have hstop : stop v = false := by simpa using hstop
      rw [component_of_not_stop hstop, cutOff_of_not_stop hstop, List.cons_append,
        List.flatMap_assoc]
      refine List.Perm.cons v ((List.flatMap_append_perm _ _ _).trans ?_)
      exact List.Perm.flatMap_left _ fun c hc => ih c (List.mem_reverse.1 hc)

/-! ### The highest node of a component -/

/-- No link that is left leads to `r`. -/
def IsTop (t : Tree α) (stop : Nat → Bool) (r : Nat) : Prop := ∀ v, ¬ t.Edge stop v r

lemma isTop_root (t : Tree α) (stop : Nat → Bool) : t.IsTop stop root :=
  fun _ h => absurd (t.lt_of_mem_children h.2) (Nat.not_lt_zero _)

lemma isTop_of_mem_children {v c : Nat} (hstop : stop v = true) (hc : c ∈ t.children v) :
    t.IsTop stop c := by
  rintro w ⟨hw, hcw⟩
  rw [parent_unique hcw hc, hstop] at hw
  cases hw

/-- What hangs together with the highest node of a component hangs below it. -/
theorem connected_iff_mem_component {r w : Nat} (hr : t.IsTop stop r) :
    t.Connected stop r w ↔ w ∈ t.component stop r := by
  rw [mem_component_iff]
  constructor
  · -- along a link, upwards or downwards, one does not leave what is below `r`
    have key : ∀ v w, t.Connected stop v w →
        (Relation.ReflTransGen (t.Edge stop) r v ↔ Relation.ReflTransGen (t.Edge stop) r w) := by
      intro v w h
      induction h with
      | rel v c hvc =>
        constructor
        · intro hv
          exact hv.tail hvc
        · intro hc
          rcases Relation.ReflTransGen.cases_tail hc with rfl | ⟨v', hv', hv'c⟩
          · exact absurd hvc (hr v)
          · rwa [parent_unique hvc.2 hv'c.2]
      | refl => exact Iff.rfl
      | symm v w _ ih => exact ih.symm
      | trans u v w _ _ ih ih' => exact ih.trans ih'
    intro h
    exact (key r w h).1 .refl
  · intro h
    induction h with
    | refl => exact .refl r
    | tail _ hvc ih => exact ih.trans _ _ _ (.rel _ _ hvc)

/-- No component has two highest nodes. -/
lemma top_unique {r r' v : Nat} (hr : t.IsTop stop r) (hr' : t.IsTop stop r')
    (h : t.Connected stop r v) (h' : t.Connected stop r' v) : r = r' := by
  have hdown : r' ∈ t.component stop r :=
    (connected_iff_mem_component hr).1 (h.trans _ _ _ (h'.symm _ _))
  rcases Relation.ReflTransGen.cases_tail (mem_component_iff.1 hdown) with heq | ⟨v, -, hv⟩
  · exact heq.symm
  · exact absurd hv (hr' v)

end TreeGrammar.Tree
