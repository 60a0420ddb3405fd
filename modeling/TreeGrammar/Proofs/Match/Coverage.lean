/-
# Rules that leave nothing open

Structural equality of a rule and a subtree asks of all pairs that face each other what a matcher
under the exact policy asks of those of inner rule nodes (`structEq_iff_facing`).  What it asks
besides, that there is nothing below a tree node that faces a leaf, says that the endpoints are
leaves (`structEq_iff_applies`).
-/
import TreeGrammar.Proofs.Match.Shallow

namespace TreeGrammar

namespace Matcher

variable {α : Type} {eq : α → α → Bool} {rule t : Tree α} {r v : Nat}

/-- A rule is equal to what hangs at a node exactly if labels and numbers of children agree at all
pairs of nodes that face each other. -/
theorem structEq_iff_facing (eq : α → α → Bool) (rule t : Tree α) (p : Nat × Nat) :
    Tree.structEq eq rule p.1 t p.2 = true ↔
      ∀ q ∈ facing rule t p, eq (rule.label q.1) (t.label q.2) = true ∧
        SameSizes (rule.slots q.1) (t.slots q.2) := by
  induction p using induction_facing rule t with
  | pair p ih =>
    rw [Tree.structEq_iff, facing_eq, List.forall_mem_cons, and_assoc]
    refine and_congr_right fun _ => and_congr_right fun _ => ?_
    simp only [List.mem_flatMap, List.mem_reverse]
    constructor
    · rintro hchildren q ⟨c, hc, hq⟩
      exact (ih c hc).1 (hchildren c hc) q hq
    · intro hall c hc
      exact (ih c hc).2 fun q hq => hall q ⟨c, hc, hq⟩

/-- At a leaf of the rule the numbers of children agree if the tree has a leaf there. -/
lemma sameSizes_iff_isLeaf (h : rule.isLeaf r = true) :
    SameSizes (rule.slots r) (t.slots v) ↔ t.isLeaf v = true := by
  constructor
  · intro hsizes
    rw [← Tree.isLeaf_eq_of_sameSizes hsizes, h]
  · intro hleaf
    exact .of_flatten_eq_nil ((rule.isLeaf_iff r).1 h) ((t.isLeaf_iff v).1 hleaf)

/-- What structural equality asks of a pair, the exact policy asks but for leaves of the rule. -/
lemma sameSizes_iff_accords {q : Nat × Nat} :
    (eq (rule.label q.1) (t.label q.2) = true ∧ SameSizes (rule.slots q.1) (t.slots q.2)) ↔
      Accords ⟨eq, .exact⟩ rule t q ∧ (rule.isLeaf q.1 = true → t.isLeaf q.2 = true) := by
  rw [Accords, and_assoc, aligned_iff_sameSizes rfl]
  refine and_congr_right fun _ => ?_
  cases hleaf : rule.isLeaf q.1 with
  | true => simp [sameSizes_iff_isLeaf hleaf]
  | false => simp

/-- A rule is equal to what hangs at a node exactly if it can be applied there with all children
and ends at leaves. -/
theorem structEq_iff_applies (hroot : rule.isLeaf Tree.root = false) :
    Tree.structEq eq rule Tree.root t v = true ↔
      applies ⟨eq, .exact⟩ rule t v = true ∧
        ∀ w ∈ leafSides rule (facing rule t (Tree.root, v)), t.isLeaf w = true := by
  have hfacing := structEq_iff_facing eq rule t (Tree.root, v)
  rw [hfacing, applies_iff]
  simp only [sameSizes_iff_accords, hroot, true_and, mem_leafSides_iff]
  constructor
  · intro h
    refine ⟨fun q hq => (h q hq).1, ?_⟩
    rintro _ ⟨q, hq, hleaf, rfl⟩
    exact (h q hq).2 hleaf
  · rintro ⟨haccords, hleaves⟩ q hq
    exact ⟨haccords q hq, fun hleaf => hleaves q.2 ⟨q, hq, hleaf, rfl⟩⟩

/-- A matcher that accepts more applies a rule with the same endpoints, and under the exact policy
the rules that end at leaves are the subtrees up to the comparison. -/
theorem applies_mono_and_to_leaves (rule t : Tree α) (v : Nat) :
    (∀ m m' : Matcher α, m.Coarser m' → m.applies rule t v = true →
      m'.applies rule t v = true ∧
        ∃ vs, m.endpoints rule t v = .ok vs ∧ m'.endpoints rule t v = .ok vs) ∧
    (rule.isLeaf Tree.root = false → ∀ eq : α → α → Bool,
      (Tree.structEq eq rule Tree.root t v = true ↔
        applies ⟨eq, .exact⟩ rule t v = true ∧
          ∃ vs, endpoints ⟨eq, .exact⟩ rule t v = .ok vs ∧ ∀ w ∈ vs, t.isLeaf w = true)) := by
  refine ⟨fun m m' hcoarser h => ?_, fun hroot eq => ?_⟩
  · have hends := endpoints_of_applies h
    exact ⟨hcoarser.applies h, _, hends, (hcoarser.endpoints_eq h).trans hends⟩
  · rw [structEq_iff_applies hroot]
    refine and_congr_right fun h => ?_
    have hperm := leafSet_perm_of_applies h
    constructor
    · intro hleaves
      exact ⟨_, endpoints_of_applies h, fun w hw => hleaves w (hperm.mem_iff.1 hw)⟩
    · rintro ⟨vs, hvs, hleaves⟩ w hw
      rw [endpoints_of_applies h] at hvs
      cases hvs
      exact hleaves w (hperm.mem_iff.2 hw)

/-- The rule has fewer slots than the node that it is laid on, and fewer in a leaf; the coarser
comparison is not symmetric. -/
theorem applies_mono_and_to_leaves_empty_slots :
    Coarser (⟨(· == ·), .exact⟩ : Matcher Nat) ⟨fun a b => decide (a ≤ b), .atMost⟩ ∧
      applies ⟨(· == ·), .exact⟩ (.ofSubtrees 1 [[.leaf 2], [.leaf 3]])
        (.ofSubtrees 0 [[.ofSubtrees 1 [[.single 2 2], [.leaf 3], []]]]) 1 = true ∧
      (applies ⟨fun a b => decide (a ≤ b), .atMost⟩ (.ofSubtrees 1 [[.leaf 2], [.leaf 3]])
          (.ofSubtrees 0 [[.ofSubtrees 1 [[.single 2 2], [.leaf 3], []]]]) 1 = true ∧
        ∃ vs,
          endpoints ⟨(· == ·), .exact⟩ (.ofSubtrees 1 [[.leaf 2], [.leaf 3]])
            (.ofSubtrees 0 [[.ofSubtrees 1 [[.single 2 2], [.leaf 3], []]]]) 1 = .ok vs ∧
          endpoints ⟨fun a b => decide (a ≤ b), .atMost⟩ (.ofSubtrees 1 [[.leaf 2], [.leaf 3]])
            (.ofSubtrees 0 [[.ofSubtrees 1 [[.single 2 2], [.leaf 3], []]]]) 1 = .ok vs) ∧
      (Tree.ofSubtrees 1 [[Tree.leaf 2], [Tree.leaf 3]]).isLeaf Tree.root = false ∧
      (Tree.structEq (· == ·) (.ofSubtrees 1 [[.leaf 2], [.leaf 3]]) Tree.root
          (.ofSubtrees 0 [[.ofSubtrees 1 [[.single 2 2], [.leaf 3], []]]]) 1 = true ↔
        applies ⟨(· == ·), .exact⟩ (.ofSubtrees 1 [[.leaf 2], [.leaf 3]])
          (.ofSubtrees 0 [[.ofSubtrees 1 [[.single 2 2], [.leaf 3], []]]]) 1 = true ∧
        ∃ vs, endpoints ⟨(· == ·), .exact⟩ (.ofSubtrees 1 [[.leaf 2], [.leaf 3]])
            (.ofSubtrees 0 [[.ofSubtrees 1 [[.single 2 2], [.leaf 3], []]]]) 1 = .ok vs ∧
          ∀ w ∈ vs, (Tree.ofSubtrees 0 [[Tree.ofSubtrees 1
            [[Tree.single 2 2], [Tree.leaf 3], []]]]).isLeaf w = true) := by
  have hcoarser : Coarser (⟨(· == ·), .exact⟩ : Matcher Nat)
      ⟨fun a b => decide (a ≤ b), .atMost⟩ := by
    refine ⟨fun a b hab => ?_, .inr rfl⟩
    rw [eq_of_beq hab]
    exact decide_eq_true (Nat.le_refl b)
  have happlies : applies ⟨(· == ·), .exact⟩ (.ofSubtrees 1 [[.leaf 2], [.leaf 3]])
      (.ofSubtrees 0 [[.ofSubtrees 1 [[.single 2 2], [.leaf 3], []]]]) 1 = true := by
    decide +kernel
  have hroot : (Tree.ofSubtrees 1 [[Tree.leaf 2], [Tree.leaf 3]]).isLeaf Tree.root = false := by
    decide +kernel
  have h := applies_mono_and_to_leaves (Tree.ofSubtrees 1 [[Tree.leaf 2], [Tree.leaf 3]])
    (Tree.ofSubtrees 0 [[Tree.ofSubtrees 1 [[Tree.single 2 2], [Tree.leaf 3], []]]]) 1
  exact ⟨hcoarser, happlies, h.1 _ _ hcoarser happlies, hroot, h.2 hroot _⟩

end Matcher

end TreeGrammar
