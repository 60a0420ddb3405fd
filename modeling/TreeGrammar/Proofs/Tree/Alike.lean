/-
# Trees alike up to their labels

Two nodes are alike up to a relation of labels when the relation holds of their labels, their
slots have the same sizes and the children in one place are alike.  The numbering of the nodes
does not count, nor do empty slots at the end.  Structural equality decides likeness
(`structEq_iff_alike`), and likeness is composed and turned round as the relation is
(`Alike.comp`, `Alike.flip`), so that a tree may be put in place of another one wherever only
its shape and its labels matter.  Nodes over the same rose tree are alike up to identity
(`Alike.of_rose_eq`).
-/
import TreeGrammar.Proofs.Tree.Equality
import TreeGrammar.Tree.Rose

namespace TreeGrammar.Tree

variable {α : Type} {R S T : α → α → Prop} {t u x : Tree α} {v w y : Nat}

lemma label_root (t : Tree α) : t.label root = t.rootLabel := by
  have hroot := t.node_of_lt (v := root) t.nonempty
  rw [label, hroot]
  rfl

/-- The node `v` of `t` and the node `w` of `u` have related labels, as many children in every
slot, and children that are alike in the same places. -/
inductive Alike (R : α → α → Prop) (t u : Tree α) : Nat → Nat → Prop
  | node {v w : Nat} (hlabel : R (t.label v) (u.label w))
      (hsizes : SameSizes (t.slots v) (u.slots w))
      (hchildren : ∀ p ∈ pairChildren (t.slots v) (u.slots w), Alike R t u p.1 p.2) :
      Alike R t u v w

/-- Structural equality up to a comparison is likeness up to what it accepts. -/
theorem structEq_iff_alike {eq : α → α → Bool} :
    structEq eq t v u w = true ↔ Alike (fun a b => eq a b = true) t u v w := by
  constructor
  · intro h
    induction v using t.induction_children generalizing w with
    | node v ih =>
      obtain ⟨hlabel, hsizes, hchildren⟩ := structEq_iff.1 h
      exact .node hlabel hsizes fun p hp =>
        ih p.1 (left_mem_of_mem_pairChildren hp) (hchildren p hp)
  · intro h
    induction h with
    | node hlabel hsizes _ ih => exact structEq_iff.2 ⟨hlabel, hsizes, ih⟩

lemma isLeaf_eq_of_sameSizes (h : SameSizes (t.slots v) (u.slots w)) :
    t.isLeaf v = u.isLeaf w := by
  rw [Bool.eq_iff_iff, isLeaf_iff, isLeaf_iff, children_eq_flatten, children_eq_flatten,
    ← h.map_fst, ← h.map_snd, List.map_eq_nil_iff, List.map_eq_nil_iff]

lemma beq_iff_alike [BEq α] :
    (t == u) = true ↔ Alike (fun a b => (a == b) = true) t u root root :=
  structEq_iff_alike

/-- A relation that leads from nodes with as many children in every slot to the children in the
same places. -/
structure Parallel (t u : Tree α) (S : Nat → Nat → Prop) : Prop where
  sameSizes : ∀ v w, S v w → SameSizes (t.slots v) (u.slots w)
  child : ∀ v w, S v w → ∀ p ∈ pairChildren (t.slots v) (u.slots w), S p.1 p.2

namespace Parallel

variable {S : Nat → Nat → Prop}

/-- The children are related one by one. -/
lemma forall₂_children (h : Parallel t u S) (hvw : S v w) :
    List.Forall₂ S (t.children v) (u.children w) := by
  have hsizes := h.sameSizes v w hvw
  rw [children_eq_flatten, children_eq_flatten, ← hsizes.map_fst, ← hsizes.map_snd,
    List.forall₂_map_left_iff, List.forall₂_map_right_iff, List.forall₂_same]
  exact h.child v w hvw

lemma isLeaf_eq (h : Parallel t u S) (hvw : S v w) : t.isLeaf v = u.isLeaf w :=
  isLeaf_eq_of_sameSizes (h.sameSizes v w hvw)

end Parallel

namespace Alike

lemma label (h : Alike R t u v w) : R (t.label v) (u.label w) := by
  cases h with
  | node hlabel _ _ => exact hlabel

lemma sameSizes (h : Alike R t u v w) : SameSizes (t.slots v) (u.slots w) := by
  cases h with
  | node _ hsizes _ => exact hsizes

lemma child (h : Alike R t u v w) {p : Nat × Nat}
    (hp : p ∈ pairChildren (t.slots v) (u.slots w)) : Alike R t u p.1 p.2 := by
  cases h with
  | node _ _ hchildren => exact hchildren p hp

lemma imp (h : Alike R t u v w) (hRS : ∀ a b, R a b → S a b) : Alike S t u v w := by
  induction h with
  | node hlabel hsizes _ ih => exact .node (hRS _ _ hlabel) hsizes ih

lemma refl (hR : ∀ a, R a a) (t : Tree α) (v : Nat) : Alike R t t v v := by
  induction v using t.induction_children with
  | node v ih =>
    refine .node (hR _) (.refl _) fun p hp => ?_
    obtain ⟨s, i, hl, hr⟩ := mem_pairChildren_iff.1 hp
    -- in one place there is one child
    have hp₂ : p.2 = p.1 := Option.some.inj (hr.symm.trans hl)
    rw [hp₂]
    exact ih p.1 (left_mem_of_mem_pairChildren hp)

lemma flip (h : Alike R t u v w) : Alike (fun a b => R b a) u t w v := by
  induction h with
  | node hlabel hsizes _ ih =>
    refine .node hlabel hsizes.symm fun p hp => ?_
    rw [pairChildren_swap] at hp
    obtain ⟨q, hq, rfl⟩ := List.mem_map.1 hp
    exact ih q hq

theorem comp (h : Alike R t u v w) (h' : Alike S u x w y)
    (hcomp : ∀ a b c, R a b → S b c → T a c) : Alike T t x v y := by
  induction h generalizing y with
  | node hlabel hsizes _ ih =>
    refine .node (hcomp _ _ _ hlabel h'.label) (hsizes.trans h'.sameSizes) fun p hp => ?_
    obtain ⟨c, hl, hr⟩ := hsizes.exists_between hp
    exact ih (p.1, c) hl (h'.child hr)

/-- Likeness up to identity carries any other likeness along. -/
lemma eq_comp (h : Alike Eq t u v w) (h' : Alike R u x w y) : Alike R t x v y :=
  h.comp h' fun _ _ _ hab hbc => hab ▸ hbc

lemma comp_eq (h : Alike R t u v w) (h' : Alike Eq u x w y) : Alike R t x v y :=
  h.comp h' fun _ _ _ hab hbc => hbc ▸ hab

lemma eq_symm (h : Alike Eq t u v w) : Alike Eq u t w v := h.flip.imp fun _ _ => Eq.symm

lemma isLeaf_eq (h : Alike R t u v w) : t.isLeaf v = u.isLeaf w :=
  isLeaf_eq_of_sameSizes h.sameSizes

lemma of_isLeaf (hlabel : R (t.label v) (u.label w)) (hv : t.isLeaf v = true)
    (hw : u.isLeaf w = true) : Alike R t u v w := by
  have hnone : (t.slots v).flatten = [] := (t.isLeaf_iff v).1 hv
  refine .node hlabel (.of_flatten_eq_nil hnone ((u.isLeaf_iff w).1 hw)) fun p hp => ?_
  rw [pairChildren_of_flatten_eq_nil hnone] at hp
  cases hp

lemma parallel : Parallel t u (Alike R t u) := ⟨fun _ _ h => h.sameSizes, fun _ _ h _ => h.child⟩

lemma forall₂_children (h : Alike R t u v w) :
    List.Forall₂ (Alike R t u) (t.children v) (u.children w) := parallel.forall₂_children h

/-- Nodes over the same rose tree are alike up to identity. -/
theorem of_rose_eq (h : t.rose v = u.rose w) : Alike Eq t u v w := by
  induction v using t.induction_children generalizing w with
  | node v ih =>
    rw [rose_eq, rose_eq] at h
    obtain ⟨hlabel, hslots⟩ := Rose.node.inj h
    exact .node hlabel (.of_map_eq hslots) fun p hp =>
      ih p.1 (left_mem_of_mem_pairChildren hp) (eq_of_mem_pairChildren hslots hp)

end Alike

lemma rootLabel_beq [BEq α] (h : (t == u) = true) : (t.rootLabel == u.rootLabel) = true := by
  rw [← label_root, ← label_root]
  exact (beq_iff_alike.1 h).label

end TreeGrammar.Tree
