/-
# Trees side by side

Where a relation leads from nodes of two trees to their children (`Parallel`), it holds one by one
between what the walks of both trees meet: in preorder (`Parallel.forall₂_preorder`), within a
component, and in the queue with which a tree is taken apart, if the trees lose their children at
related nodes (`Parallel.forall₂_roots`).  So both trees fall apart into pieces that are alike
(`Parallel.forall₂_split`).
-/
import TreeGrammar.Proofs.Match.Interchange
import TreeGrammar.Proofs.Tree.Dissection

namespace TreeGrammar

lemma mem_pairChildren_map {xs ys : List (List Nat)} {p : Nat × Nat} (f g : Nat → Nat)
    (h : p ∈ pairChildren xs ys) :
    (f p.1, g p.2) ∈ pairChildren (xs.map (List.map f)) (ys.map (List.map g)) := by
  obtain ⟨s, i, hx, hy⟩ := mem_pairChildren_iff.1 h
  refine mem_pairChildren_iff.2 ⟨s, i, ?_, ?_⟩
  · rw [getD_map_map, List.getElem?_map, hx]
    rfl
  · rw [getD_map_map, List.getElem?_map, hy]
    rfl

namespace Tree

variable {α : Type} {t u : Tree α} {S : Nat → Nat → Prop} {v w : Nat}

/-! ### Nodes in the same place -/

/-- In trees that are alike, nodes in the same place are alike. -/
lemma Alike.of_faces {R : α → α → Prop} (h : Alike R t u root root)
    (hfaces : Matcher.Faces t u root v w) : Alike R t u v w := by
  induction hfaces with
  | root => exact h
  | @child v w s i v' w' _ hv hw ih =>
    exact ih.child (p := (v', w')) (mem_pairChildren_iff.2 ⟨s, i, hv, hw⟩)

lemma parallel_faces {R : α → α → Prop} (h : Alike R t u root root) :
    Parallel t u (Matcher.Faces t u root) where
  sameSizes _ _ hfaces := (h.of_faces hfaces).sameSizes
  child _ _ hfaces _ hp := by
    obtain ⟨s, i, hv, hw⟩ := mem_pairChildren_iff.1 hp
    exact hfaces.child hv hw

namespace Parallel

variable (h : Parallel t u S)

include h

/-! ### Walks -/

/-- The nodes that the walks in preorder meet are related one by one. -/
theorem forall₂_preorder (hvw : S v w) : List.Forall₂ S (t.preorder v) (u.preorder w) := by
  induction v using t.induction_children generalizing w with
  | node v ih =>
    rw [preorder_eq, preorder_eq]
    refine .cons hvw (List.rel_flatMap
      (forall₂_mem (List.rel_reverse (h.forall₂_children hvw))) ?_)
    rintro c d ⟨hc, -, hcd⟩
    exact ih c (List.mem_reverse.1 hc) hcd

variable {stop stop' : Nat → Bool} (hstop : ∀ v w, S v w → stop v = stop' w)

include hstop

lemma forall₂_component (hvw : S v w) :
    List.Forall₂ S (t.component stop v) (u.component stop' w) := by
  induction v using t.induction_children generalizing w with
  | node v ih =>
    rw [component_eq, component_eq, hstop v w hvw]
    refine .cons hvw ?_
    split
    · exact .nil
    · refine List.rel_flatMap (forall₂_mem (List.rel_reverse (h.forall₂_children hvw))) ?_
      rintro c d ⟨hc, -, hcd⟩
      exact ih c (List.mem_reverse.1 hc) hcd

lemma forall₂_cutOff (hvw : S v w) : List.Forall₂ S (t.cutOff stop v) (u.cutOff stop' w) := by
  have hstopped : List.Forall₂ S ((t.component stop v).filter stop)
      ((u.component stop' w).filter stop') :=
    List.rel_filter (fun x y hxy => by simp only [hstop x y hxy]) (h.forall₂_component hstop hvw)
  exact List.rel_flatMap hstopped fun _ _ hxy => h.forall₂_children hxy

lemma forall₂_rootsFrom {queue queue' : List Nat} (hqueue : List.Forall₂ S queue queue') :
    List.Forall₂ S (t.rootsFrom stop queue) (u.rootsFrom stop' queue') := by
  induction queue using rootsFrom.induct t stop generalizing queue' with
  | case1 =>
    cases hqueue
    rw [rootsFrom, rootsFrom]
    exact .nil
  | case2 v queue ih =>
    cases hqueue with
    | cons hvw hrest =>
      rw [rootsFrom, rootsFrom]
      exact .cons hvw (ih (List.rel_append hrest (h.forall₂_cutOff hstop hvw)))

/-- Pieces begin at related nodes. -/
theorem forall₂_roots (hroot : S root root) :
    List.Forall₂ S (t.roots stop) (u.roots stop') :=
  h.forall₂_rootsFrom hstop (.cons hroot .nil)

/-! ### Pieces -/

variable {R : α → α → Prop} (hlabel : ∀ v w, S v w → R (t.label v) (u.label w))

include hlabel

/-- Copies of related nodes are alike. -/
theorem alike_of_isCopy {r r' i j : Nat} {p q : Tree α} {source source' : Nat → Nat}
    (hp : IsCopy t stop r p source) (hq : IsCopy u stop' r' q source') (hi : i < p.size)
    (hj : j < q.size) (hij : S (source i) (source' j)) : Alike R p q i j := by
  induction i using p.induction_children generalizing j with
  | node i ih =>
    have hlabel : R (p.label i) (q.label j) := by
      rw [hp.label_eq i hi, hq.label_eq j hj]
      exact hlabel _ _ hij
    cases hkept : stop (source i) with
    | true =>
      have hkept' : stop' (source' j) = true := hstop _ _ hij ▸ hkept
      exact .of_isLeaf hlabel (hp.isLeaf_of_stop hi hkept) (hq.isLeaf_of_stop hj hkept')
    | false =>
      have hslots := hp.slots_eq_of_not_stop hi hkept
      have hslots' := hq.slots_eq_of_not_stop hj (hstop _ _ hij ▸ hkept)
      have hsizes : SameSizes (p.slots i) (q.slots j) := by
        intro s
        have hs := h.sameSizes _ _ hij s
        rw [← hslots, ← hslots', getD_map_map, getD_map_map, List.length_map,
          List.length_map] at hs
        exact hs
      refine .node hlabel hsizes fun e he => ?_
      have hpair := mem_pairChildren_map source source' he
      rw [hslots, hslots'] at hpair
      exact ih e.1 (left_mem_of_mem_pairChildren he)
        (p.child_lt_size (left_mem_of_mem_pairChildren he))
        (q.child_lt_size (right_mem_of_mem_pairChildren he)) (h.child _ _ hij _ hpair)

/-- The trees fall apart into pieces that are alike one by one. -/
theorem forall₂_split (hroot : S root root) :
    List.Forall₂ (fun p q => Alike R p q root root) (t.split stop) (u.split stop') := by
  have hcopies : List.Forall₂ (fun p q => Alike R p q root root)
      ((t.roots stop).map fun r => (t.prune stop r).1)
      ((u.roots stop').map fun r => (u.prune stop' r).1) := by
    refine List.rel_map ?_ (forall₂_mem (h.forall₂_roots hstop hroot))
    rintro r r' ⟨hr, hr', hrr'⟩
    exact h.alike_of_isCopy hstop hlabel (isCopy_of_mem_roots hr) (isCopy_of_mem_roots hr')
      (root_lt_size _) (root_lt_size _) hrr'
  rw [split_eq, split_eq]
  refine List.rel_filter (fun p q hpq => ?_) hcopies
  simp only [hpq.isLeaf_eq]

end Parallel

end Tree

end TreeGrammar
