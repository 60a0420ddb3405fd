/-
# The order of a tree

A node is below another one when links lead down to it.  A child stands after its parent and
is the child of no other node, and every node but the root has a parent.  So `Tree.Below` is
a partial order with the root on top, in which the nodes above a node form a chain; what
hangs below two children of a node is disjoint.
-/
import Mathlib
import TreeGrammar.Tree.Walk

namespace TreeGrammar.Tree

variable {α : Type} {t : Tree α}

/-! ### Parents -/

lemma nodup_links (t : Tree α) : (links t.nodes).Nodup :=
  t.links_perm.nodup_iff.2 List.nodup_range'

lemma nodup_children (t : Tree α) (v : Nat) : (t.children v).Nodup := by
  by_cases hv : v < t.size
  · rw [children, t.node_of_lt hv]
    exact (List.nodup_flatMap.1 t.nodup_links).1 _ (Array.getElem_mem_toList hv)
  · rw [t.children_of_size_le (Nat.le_of_not_lt hv)]
    exact List.nodup_nil

/-- Two nodes of which the first comes earlier have no child in common. -/
lemma disjoint_children_of_lt {v w : Nat} (h : v < w) :
    (t.children v).Disjoint (t.children w) := by
  by_cases hw : w < t.size
  · have hv : v < t.size := h.trans hw
    have hpair := (List.nodup_flatMap.1 t.nodup_links).2
    rw [List.pairwise_iff_getElem] at hpair
    rw [children, children, t.node_of_lt hv, t.node_of_lt hw]
    exact hpair v w (by simpa [size] using hv) (by simpa [size] using hw) h
  · rw [t.children_of_size_le (Nat.le_of_not_lt hw)]
    exact List.disjoint_nil_right _

/-- No node has two parents. -/
lemma parent_unique {v w c : Nat} (hv : c ∈ t.children v) (hw : c ∈ t.children w) : v = w := by
  rcases Nat.lt_trichotomy v w with h | h | h
  · exact absurd hw (disjoint_children_of_lt h hv)
  · exact h
  · exact absurd hv (disjoint_children_of_lt h hw)

/-- Every node but the root has a parent. -/
lemma exists_parent {c : Nat} (h : c < t.size) (hroot : c ≠ root) : ∃ v, c ∈ t.children v := by
  have hc : c ∈ links t.nodes := by
    rw [t.links_perm.mem_iff, List.mem_range'_1]
    simp only [root, size] at h hroot
    omega
  obtain ⟨n, hn, hcn⟩ := List.mem_flatMap.1 hc
  obtain ⟨v, hv, rfl⟩ := List.getElem_of_mem hn
  have hv' : v < t.nodes.size := by simpa using hv
  refine ⟨v, ?_⟩
  rw [children, t.node_of_lt hv']
  simpa using hcn

/-- What holds of a node whenever it holds of its children holds of all nodes. -/
@[elab_as_elim]
theorem induction_children {motive : Nat → Prop} (t : Tree α)
    (node : ∀ v, (∀ c ∈ t.children v, motive c) → motive v) (v : Nat) : motive v := by
  -- children stand further back, so there are fewer positions behind them
  have key : ∀ k v, t.size - v ≤ k → motive v := by
    intro k
    induction k with
    | zero =>
      intro v hk
      refine node v fun c hc => ?_
      have := t.lt_size_of_mem_children hc
      omega
    | succ k ih =>
      intro v hk
      refine node v fun c hc => ih c ?_
      have := t.lt_of_mem_children hc
      have := t.child_lt_size hc
      omega
  exact key _ v le_rfl

/-! ### The order -/

/-- `w` is `v` or hangs below it. -/
def Below (t : Tree α) (v w : Nat) : Prop :=
  Relation.ReflTransGen (fun v c => c ∈ t.children v) v w

namespace Below

lemma refl (v : Nat) : t.Below v v := Relation.ReflTransGen.refl

lemma trans {u v w : Nat} (h : t.Below u v) (h' : t.Below v w) : t.Below u w :=
  Relation.ReflTransGen.trans h h'

lemma child {v c : Nat} (h : c ∈ t.children v) : t.Below v c := Relation.ReflTransGen.single h

lemma of_child {v c w : Nat} (hc : c ∈ t.children v) (h : t.Below c w) : t.Below v w :=
  (child hc).trans h

lemma le {v w : Nat} (h : t.Below v w) : v ≤ w := by
  induction h with
  | refl => exact le_rfl
  | tail _ hc ih => exact ih.trans (t.lt_of_mem_children hc).le

lemma antisymm {v w : Nat} (h : t.Below v w) (h' : t.Below w v) : v = w := le_antisymm h.le h'.le

lemma cases_child {v w : Nat} (h : t.Below v w) :
    v = w ∨ ∃ c ∈ t.children v, t.Below c w :=
  (Relation.ReflTransGen.cases_head h).imp_right fun ⟨c, hc, h⟩ => ⟨c, hc, h⟩

lemma lt_size {v w : Nat} (h : t.Below v w) (hv : v < t.size) : w < t.size := by
  cases h with
  | refl => exact hv
  | tail _ hc => exact t.child_lt_size hc

lemma lt_size_of_ne {v w : Nat} (h : t.Below v w) (hne : v ≠ w) : w < t.size := by
  cases h with
  | refl => exact absurd rfl hne
  | tail _ hc => exact t.child_lt_size hc

/-- Of two nodes above a node one is above the other. -/
lemma total {a b x : Nat} (ha : t.Below a x) (hb : t.Below b x) : t.Below a b ∨ t.Below b a := by
  induction ha with
  | refl => exact .inr hb
  | @tail y z hy hz ih =>
    rcases Relation.ReflTransGen.cases_tail hb with rfl | ⟨y', hy', hz'⟩
    · exact .inl (Relation.ReflTransGen.tail hy hz)
    · -- both are above the one parent of the lowest node
      obtain rfl := parent_unique hz hz'
      exact ih hy'

end Below

/-- What holds of a node whenever it holds of all that is below it holds of all nodes. -/
@[elab_as_elim]
theorem induction_below {motive : Nat → Prop} (t : Tree α)
    (node : ∀ v, (∀ w, t.Below v w → w ≠ v → motive w) → motive v) (v : Nat) : motive v := by
  -- proved for all that is below `v` at once, so that children can hand it on
  have key : ∀ v w, t.Below v w → motive w := by
    intro v
    induction v using t.induction_children with
    | node v ih =>
      intro w hw
      rcases hw.cases_child with rfl | ⟨c, hc, hcw⟩
      · refine node v fun u hu huv => ?_
        rcases hu.cases_child with rfl | ⟨c, hc, hcu⟩
        · exact absurd rfl huv
        · exact ih c hc u hcu
      · exact ih c hc w hcw
  exact key v v (.refl v)

lemma ne_of_mem_children {v c : Nat} (h : c ∈ t.children v) : c ≠ v :=
  Nat.ne_of_gt (t.lt_of_mem_children h)

lemma not_below_of_mem_children {v c : Nat} (h : c ∈ t.children v) : ¬ t.Below c v :=
  fun hb => absurd hb.le (Nat.not_le_of_lt (t.lt_of_mem_children h))

/-- No child of a node is below another one. -/
lemma eq_of_below_of_mem_children {v c d : Nat} (hc : c ∈ t.children v)
    (hd : d ∈ t.children v) (h : t.Below c d) : c = d := by
  rcases Relation.ReflTransGen.cases_tail h with rfl | ⟨p, hp, hdp⟩
  · rfl
  · -- then `c` would be above the parent that it shares with `d`
    obtain rfl := parent_unique hd hdp
    exact absurd hp (not_below_of_mem_children hc)

/-- What hangs below different children of a node is different. -/
lemma child_unique {v c d x : Nat} (hc : c ∈ t.children v) (hd : d ∈ t.children v)
    (hcx : t.Below c x) (hdx : t.Below d x) : c = d := by
  rcases hcx.total hdx with h | h
  · exact eq_of_below_of_mem_children hc hd h
  · exact (eq_of_below_of_mem_children hd hc h).symm

/-- All nodes are below the root. -/
theorem below_root {v : Nat} (h : v < t.size) : t.Below root v := by
  induction v using Nat.strong_induction_on with
  | _ v ih =>
    by_cases hv : v = root
    · rw [hv]
      exact Below.refl root
    · obtain ⟨p, hp⟩ := exists_parent h hv
      exact (ih p (t.lt_of_mem_children hp) (t.lt_size_of_mem_children hp)).trans (Below.child hp)

end TreeGrammar.Tree
