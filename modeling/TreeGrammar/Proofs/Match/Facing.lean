/-
# Nodes that face each other

When the root of a rule lies on a node of a tree, a rule node faces the tree node that is
reached along the same slots and places.  `Matcher.Faces` says so step by step, without a word
on labels and numbers of children; `facing` lists the pairs in the order in which the walks of
a matcher meet them.
-/
import TreeGrammar.Match.Basic
import TreeGrammar.Proofs.Tree.Preorder
import TreeGrammar.Proofs.Tree.Slots

namespace TreeGrammar

namespace Matcher

variable {α : Type} {rule t : Tree α}

/-! ### Pairs of nodes -/

/-- The pairs of children of two nodes that face each other. -/
def facingChildren (rule t : Tree α) (p : Nat × Nat) : List (Nat × Nat) :=
  pairChildren (rule.slots p.1) (t.slots p.2)

/-- The pairs at and below a pair, every pair before those below it and a last child before
the children to its left. -/
def facing (rule t : Tree α) (p : Nat × Nat) : List (Nat × Nat) :=
  p :: (facingChildren rule t p).attach.reverse.flatMap fun q => facing rule t q.1
termination_by rule.size - p.1
decreasing_by
  have hc : q.1.1 ∈ rule.children p.1 := left_mem_of_mem_pairChildren q.2
  have := rule.lt_of_mem_children hc
  have := rule.child_lt_size hc
  omega

theorem facing_eq (rule t : Tree α) (p : Nat × Nat) :
    facing rule t p =
      p :: (facingChildren rule t p).reverse.flatMap (facing rule t) := by
  have hback : (facingChildren rule t p).reverse =
      (facingChildren rule t p).attach.reverse.map (·.1) := by
    rw [List.map_reverse, List.attach_map_subtype_val]
  rw [facing, hback, List.flatMap_map]

lemma mem_facing_self (rule t : Tree α) (p : Nat × Nat) : p ∈ facing rule t p := by
  rw [facing_eq]
  exact List.mem_cons_self

lemma mem_facing_child {p q : Nat × Nat} (h : q ∈ facingChildren rule t p) :
    q ∈ facing rule t p := by
  rw [facing_eq]
  exact List.mem_cons_of_mem _
    (List.mem_flatMap.2 ⟨q, List.mem_reverse.2 h, mem_facing_self rule t q⟩)

/-- What holds of a pair whenever it holds of the pairs of its children holds of all pairs. -/
@[elab_as_elim]
theorem induction_facing {motive : Nat × Nat → Prop} (rule t : Tree α)
    (pair : ∀ p, (∀ q ∈ facingChildren rule t p, motive q) → motive p) (p : Nat × Nat) :
    motive p := by
  induction p using facing.induct rule t with
  | case1 p ih => exact pair p fun q hq => ih ⟨q, hq⟩

/-- The rule node `r` faces the tree node `w` when the root of the rule lies on `v`: both are
reached along the same slots and places. -/
inductive Faces (rule t : Tree α) (v : Nat) : Nat → Nat → Prop
  | root : Faces rule t v Tree.root v
  | child {r w s i r' w' : Nat} : Faces rule t v r w → rule.child? r s i = some r' →
      t.child? w s i = some w' → Faces rule t v r' w'

lemma mem_facingChildren_iff {p q : Nat × Nat} :
    q ∈ facingChildren rule t p ↔
      ∃ s i, rule.child? p.1 s i = some q.1 ∧ t.child? p.2 s i = some q.2 :=
  mem_pairChildren_iff

lemma facing_trans {p q q' : Nat × Nat} (hq : q ∈ facing rule t p)
    (hq' : q' ∈ facing rule t q) : q' ∈ facing rule t p := by
  induction p using induction_facing rule t with
  | pair p ih =>
    rw [facing_eq] at hq
    rcases List.mem_cons.1 hq with rfl | hq
    · exact hq'
    · obtain ⟨c, hc, hq⟩ := List.mem_flatMap.1 hq
      rw [facing_eq]
      exact List.mem_cons_of_mem _
        (List.mem_flatMap.2 ⟨c, hc, ih c (List.mem_reverse.1 hc) hq⟩)

/-- The list of pairs below the root of the rule has the pairs that face each other. -/
theorem mem_facing_iff {v r w : Nat} :
    (r, w) ∈ facing rule t (Tree.root, v) ↔ Faces rule t v r w := by
  constructor
  · -- from any pair that faces each other the walk only meets such pairs
    have key : ∀ p, Faces rule t v p.1 p.2 → ∀ q ∈ facing rule t p, Faces rule t v q.1 q.2 := by
      intro p
      induction p using induction_facing rule t with
      | pair p ih =>
        intro hp q hq
        rw [facing_eq] at hq
        rcases List.mem_cons.1 hq with rfl | hq
        · exact hp
        · obtain ⟨c, hc, hq⟩ := List.mem_flatMap.1 hq
          have hc := List.mem_reverse.1 hc
          obtain ⟨s, i, hr, hw⟩ := mem_facingChildren_iff.1 hc
          exact ih c hc (hp.child hr hw) q hq
    exact key (Tree.root, v) .root (r, w)
  · intro h
    induction h with
    | root => exact mem_facing_self rule t _
    | @child r w s i r' w' _ hr hw ih =>
      have hc : (r', w') ∈ facingChildren rule t (r, w) :=
        mem_facingChildren_iff.2 ⟨s, i, hr, hw⟩
      exact facing_trans ih (mem_facing_child hc)

/-- Below a leaf of the rule no nodes face each other. -/
lemma facingChildren_of_isLeaf {p : Nat × Nat} (h : rule.isLeaf p.1 = true) :
    facingChildren rule t p = [] :=
  pairChildren_of_flatten_eq_nil ((rule.isLeaf_iff p.1).1 h)

lemma facing_of_isLeaf {p : Nat × Nat} (h : rule.isLeaf p.1 = true) :
    facing rule t p = [p] := by
  rw [facing_eq, facingChildren_of_isLeaf h]
  rfl

/-! ### The order on both sides -/

lemma left_mem_children {p q : Nat × Nat} (h : q ∈ facingChildren rule t p) :
    q.1 ∈ rule.children p.1 := left_mem_of_mem_pairChildren h

lemma right_mem_children {p q : Nat × Nat} (h : q ∈ facingChildren rule t p) :
    q.2 ∈ t.children p.2 := right_mem_of_mem_pairChildren h

/-- A child faces one child. -/
lemma facingChildren_unique {p c d : Nat × Nat} (hc : c ∈ facingChildren rule t p)
    (hd : d ∈ facingChildren rule t p) (h : c.1 = d.1 ∨ c.2 = d.2) : c = d := by
  rcases h with h | h
  · exact List.inj_on_of_nodup_map
      ((rule.nodup_children p.1).sublist (map_fst_pairChildren_sublist _ _)) hc hd h
  · exact List.inj_on_of_nodup_map
      ((t.nodup_children p.2).sublist (map_snd_pairChildren_sublist _ _)) hc hd h

/-- Pairs are below a pair on either side. -/
lemma below_of_mem_facing {p q : Nat × Nat} (h : q ∈ facing rule t p) :
    rule.Below p.1 q.1 ∧ t.Below p.2 q.2 := by
  induction p using induction_facing rule t with
  | pair p ih =>
    rw [facing_eq] at h
    rcases List.mem_cons.1 h with rfl | h
    · exact ⟨.refl _, .refl _⟩
    · obtain ⟨c, hc, hq⟩ := List.mem_flatMap.1 h
      have hc := List.mem_reverse.1 hc
      obtain ⟨hr, hw⟩ := ih c hc hq
      exact ⟨.of_child (left_mem_children hc) hr, .of_child (right_mem_children hc) hw⟩

/-- Of two pairs the rule nodes are one below the other when the tree nodes are. -/
theorem below_iff_of_mem_facing {p q₁ q₂ : Nat × Nat} (h₁ : q₁ ∈ facing rule t p)
    (h₂ : q₂ ∈ facing rule t p) : rule.Below q₁.1 q₂.1 ↔ t.Below q₁.2 q₂.2 := by
  induction p using induction_facing rule t with
  | pair p ih =>
    have hbelow := below_of_mem_facing h₂
    rw [facing_eq] at h₁
    rcases List.mem_cons.1 h₁ with rfl | h₁
    · exact iff_of_true hbelow.1 hbelow.2
    obtain ⟨c, hc, h₁⟩ := List.mem_flatMap.1 h₁
    have hc := List.mem_reverse.1 hc
    obtain ⟨hr₁, hw₁⟩ := below_of_mem_facing h₁
    rw [facing_eq] at h₂
    rcases List.mem_cons.1 h₂ with rfl | h₂
    · -- the pair at the top is below nothing else
      exact iff_of_false
        (fun h => Tree.not_below_of_mem_children (left_mem_children hc) (hr₁.trans h))
        (fun h => Tree.not_below_of_mem_children (right_mem_children hc) (hw₁.trans h))
    obtain ⟨d, hd, h₂⟩ := List.mem_flatMap.1 h₂
    have hd := List.mem_reverse.1 hd
    obtain ⟨hr₂, hw₂⟩ := below_of_mem_facing h₂
    by_cases hcd : c = d
    · subst hcd
      exact ih c hc h₁ h₂
    · -- below different children nothing is related on either side
      refine iff_of_false (fun h => hcd ?_) (fun h => hcd ?_)
      · exact facingChildren_unique hc hd (.inl
          (Tree.child_unique (left_mem_children hc) (left_mem_children hd) (hr₁.trans h) hr₂))
      · exact facingChildren_unique hc hd (.inr
          (Tree.child_unique (right_mem_children hc) (right_mem_children hd) (hw₁.trans h) hw₂))

/-- A node of the rule and a node of the tree occur together only. -/
lemma fst_eq_iff_snd_eq {p q₁ q₂ : Nat × Nat} (h₁ : q₁ ∈ facing rule t p)
    (h₂ : q₂ ∈ facing rule t p) : q₁.1 = q₂.1 ↔ q₁.2 = q₂.2 := by
  have hdown := below_iff_of_mem_facing h₁ h₂
  have hup := below_iff_of_mem_facing h₂ h₁
  constructor
  · intro h
    rw [h] at hdown hup
    exact (hdown.1 (.refl _)).antisymm (hup.1 (.refl _))
  · intro h
    rw [h] at hdown hup
    exact (hdown.2 (.refl _)).antisymm (hup.2 (.refl _))

end Matcher

end TreeGrammar
