/-
# Alike rules and alike trees

A walk of a matcher sees of a rule and of a tree only labels, numbers of children and the places
of children.  So the pairs of two nodes and those of two others that are alike correspond one by
one (`forall₂_facing`).  A rule may be put in place of an alike one, and so may the tree, as
long as labels are accepted as before: if the one rule can be applied so can the other
(`applies_of_alike`), and their endpoints are alike leaf by leaf (`forall₂_leafSides`).  So may a
matcher that accepts more be put in place of another one (`Coarser.applies`); the walks pair nodes
by their places, so that its endpoints are the same (`Coarser.endpoints_eq`).
-/
import TreeGrammar.Proofs.Match.Frontier
import TreeGrammar.Proofs.Tree.Alike

namespace TreeGrammar

lemma ArityPolicy.accepts_atMost {policy : ArityPolicy} {j k : Nat}
    (h : policy.accepts j k = true) : atMost.accepts j k = true := by
  simpa [accepts] using le_of_accepts h

/-- Lists that are related one by one are so member by member. -/
lemma forall₂_mem {β γ : Type} {R : β → γ → Prop} {xs : List β} {ys : List γ}
    (h : List.Forall₂ R xs ys) :
    List.Forall₂ (fun x y => x ∈ xs ∧ y ∈ ys ∧ R x y) xs ys := by
  rw [List.forall₂_iff_zip] at h ⊢
  refine ⟨h.1, fun hp => ?_⟩
  obtain ⟨hx, hy⟩ := List.of_mem_zip hp
  exact ⟨hx, hy, h.2 hp⟩

/-- What holds of all members on the left and is handed on to those on the right holds of all of
them. -/
lemma forall_mem_of_forall₂ {β γ : Type} {R : β → γ → Prop} {A : β → Prop} {B : γ → Prop}
    {xs : List β} {ys : List γ} (h : List.Forall₂ R xs ys) (hAB : ∀ x y, R x y → A x → B y)
    (hA : ∀ x ∈ xs, A x) : ∀ y ∈ ys, B y := by
  induction h with
  | nil => simp
  | cons hxy _ ih =>
    obtain ⟨hx, hxs⟩ := List.forall_mem_cons.1 hA
    exact List.forall_mem_cons.2 ⟨hAB _ _ hxy hx, ih hxs⟩

namespace Matcher

variable {α : Type} {m m' : Matcher α} {Q R : α → α → Prop} {rule rule' t u : Tree α}
  {r r' v w : Nat}

/-- Below alike nodes the pairs of nodes that face each other are alike on both sides. -/
theorem forall₂_facing (hrule : Tree.Alike Q rule rule' r r') (htree : Tree.Alike R t u v w) :
    List.Forall₂ (fun p q => Tree.Alike Q rule rule' p.1 q.1 ∧ Tree.Alike R t u p.2 q.2)
      (facing rule t (r, v)) (facing rule' u (r', w)) := by
  induction hrule generalizing v w with
  | node hlabel hsizes hchildren ih =>
    rw [facing_eq, facing_eq]
    refine .cons ⟨.node hlabel hsizes hchildren, htree⟩ ?_
    refine List.rel_flatMap
      (List.forall₂_reverse_iff.2 (hsizes.forall₂_pairChildren htree.sameSizes)) ?_
    rintro p q ⟨hrules, htrees⟩
    exact ih (p.1, q.1) hrules (htree.child htrees)

/-- The tree nodes that face leaves are alike one by one. -/
theorem forall₂_leafSides (hrule : Tree.Alike Q rule rule' r r')
    (htree : Tree.Alike R t u v w) :
    List.Forall₂ (Tree.Alike R t u) (leafSides rule (facing rule t (r, v)))
      (leafSides rule' (facing rule' u (r', w))) := by
  have hleaves : List.Forall₂
      (fun p q => Tree.Alike Q rule rule' p.1 q.1 ∧ Tree.Alike R t u p.2 q.2)
      ((facing rule t (r, v)).filter fun q => rule.isLeaf q.1)
      ((facing rule' u (r', w)).filter fun q => rule'.isLeaf q.1) := by
    refine List.rel_filter ?_ (forall₂_facing hrule htree)
    rintro p q ⟨hp, -⟩
    simp only [hp.isLeaf_eq]
  rw [leafSides, leafSides, List.forall₂_map_left_iff, List.forall₂_map_right_iff]
  exact hleaves.imp fun _ _ h => h.2

lemma Aligned.of_alike {p q : Nat × Nat} (h : m.Aligned rule t p.1 p.2)
    (hpolicy : ∀ j k, m.policy.accepts j k = true → m'.policy.accepts j k = true)
    (hrule : Tree.Alike Q rule rule' p.1 q.1) (htree : Tree.Alike R t u p.2 q.2) :
    m'.Aligned rule' u q.1 q.2 := by
  intro s
  have hruleSize : (rule.slot p.1 s).length = (rule'.slot q.1 s).length := hrule.sameSizes s
  have htreeSize : (t.slot p.2 s).length = (u.slot q.2 s).length := htree.sameSizes s
  rw [← hruleSize, ← htreeSize]
  exact hpolicy _ _ (h s)

section

variable (heq : ∀ a a' b b', Q a a' → R b b' → m.eq a b = true → m'.eq a' b' = true)
  (hpolicy : ∀ j k, m.policy.accepts j k = true → m'.policy.accepts j k = true)

include heq hpolicy

lemma Accords.of_alike {p q : Nat × Nat} (h : m.Accords rule t p)
    (hrule : Tree.Alike Q rule rule' p.1 q.1) (htree : Tree.Alike R t u p.2 q.2) :
    m'.Accords rule' u q := by
  obtain ⟨hlabel, hleaf | haligned⟩ := h
  · exact ⟨heq _ _ _ _ hrule.label htree.label hlabel, .inl (hrule.isLeaf_eq ▸ hleaf)⟩
  · exact ⟨heq _ _ _ _ hrule.label htree.label hlabel,
      .inr (haligned.of_alike hpolicy hrule htree)⟩

/-- If a rule can be applied, so can an alike one to an alike tree, by any matcher that accepts
the labels and the numbers of children that were accepted. -/
theorem applies_of_alike (hrule : Tree.Alike Q rule rule' Tree.root Tree.root)
    (htree : Tree.Alike R t u v w) (h : m.applies rule t v = true) :
    m'.applies rule' u w = true := by
  obtain ⟨hroot, haccords⟩ := applies_iff.1 h
  refine applies_iff.2 ⟨hrule.isLeaf_eq ▸ hroot, ?_⟩
  refine forall_mem_of_forall₂ (forall₂_facing hrule htree) ?_ haccords
  rintro p q ⟨hp, hq⟩ hpq
  exact hpq.of_alike heq hpolicy hp hq

end

/-- Rules and trees whose labels the comparison does not tell apart are as good as one
another. -/
theorem applies_congr (heq : ∀ a a' b b', Q a a' → R b b' → m.eq a b = m.eq a' b')
    (hrule : Tree.Alike Q rule rule' Tree.root Tree.root) (htree : Tree.Alike R t u v w) :
    m.applies rule t v = m.applies rule' u w := by
  rw [Bool.eq_iff_iff]
  constructor
  · exact applies_of_alike (fun a a' b b' ha hb h => heq a a' b b' ha hb ▸ h)
      (fun _ _ h => h) hrule htree
  · exact applies_of_alike (fun a a' b b' ha hb h => (heq a' a b' b ha hb).trans h)
      (fun _ _ h => h) hrule.flip htree.flip

/-! ### Matchers that accept more -/

/-- The second matcher accepts the labels that the first one accepts, and has the same policy or
the one that lets children of the tree go unmatched. -/
structure Coarser (m m' : Matcher α) : Prop where
  eq : ∀ a b, m.eq a b = true → m'.eq a b = true
  policy : m'.policy = m.policy ∨ m'.policy = .atMost

lemma Coarser.accepts (h : m.Coarser m') {j k : Nat} (hjk : m.policy.accepts j k = true) :
    m'.policy.accepts j k = true := by
  rcases h.policy with hpolicy | hpolicy
  · rw [hpolicy]
    exact hjk
  · rw [hpolicy]
    exact ArityPolicy.accepts_atMost hjk

lemma Coarser.applies (h : m.Coarser m') (hrule : m.applies rule t v = true) :
    m'.applies rule t v = true := by
  refine applies_of_alike ?_ (fun _ _ => h.accepts) (Tree.Alike.refl Eq.refl rule Tree.root)
    (Tree.Alike.refl Eq.refl t v) hrule
  rintro a _ b _ rfl rfl hab
  exact h.eq a b hab

/-- Both matchers lead to the tree nodes that face the leaves of the rule. -/
lemma Coarser.endpoints_eq (h : m.Coarser m') (hrule : m.applies rule t v = true) :
    m'.endpoints rule t v = m.endpoints rule t v := by
  rw [endpoints_of_applies hrule, endpoints_of_applies (h.applies hrule)]

end Matcher

end TreeGrammar
