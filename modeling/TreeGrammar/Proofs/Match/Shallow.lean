/-
# Rules of one level

A rule is shallow when it stops at the children of its root, as the production of a node does.
Laid over a node with all its children, a shallow rule is the same as the production of that
node up to the comparison of labels: the walk of the matcher and structural equality come to the
same answer (`structEq_oneLevel_iff`).  Where this is so the rule can be applied under any
policy, and it ends at the children of the node (`endpoints_of_shallow`).
-/
import TreeGrammar.Grammar.RuleSet
import TreeGrammar.Proofs.Match.Interchange
import TreeGrammar.Proofs.Tree.OneLevel

namespace TreeGrammar

namespace Matcher

variable {α : Type} {m : Matcher α} {eq : α → α → Bool} {rule t : Tree α} {r v : Nat}

lemma aligned_iff_sameSizes (hexact : m.policy = .exact) :
    m.Aligned rule t r v ↔ SameSizes (rule.slots r) (t.slots v) := by
  refine forall_congr' fun s => ?_
  rw [hexact]
  exact beq_iff_eq

/-- The walk over a shallow rule meets the root and its children. -/
lemma facing_of_shallow (h : rule.Shallow) :
    facing rule t (Tree.root, v) =
      (Tree.root, v) :: (facingChildren rule t (Tree.root, v)).reverse := by
  have hleaves : ∀ q ∈ (facingChildren rule t (Tree.root, v)).reverse,
      facing rule t q = [q] := fun q hq =>
    facing_of_isLeaf (h q.1 (left_mem_children (List.mem_reverse.1 hq)))
  rw [facing_eq, List.flatMap_congr hleaves, List.flatMap_singleton']

/-- A shallow rule with all children of a node leads to these children. -/
lemma leafSides_of_shallow (hexact : m.policy = .exact) (hshallow : rule.Shallow)
    (h : m.applies rule t v = true) :
    leafSides rule (facing rule t (Tree.root, v)) = (t.children v).reverse := by
  obtain ⟨hroot, haccords⟩ := applies_iff.1 h
  have haligned := (haccords _ (mem_facing_self rule t _)).aligned hroot
  have hleaves : ∀ q ∈ (facingChildren rule t (Tree.root, v)).reverse,
      rule.isLeaf q.1 = true := fun q hq =>
    hshallow q.1 (left_mem_children (List.mem_reverse.1 hq))
  rw [facing_of_shallow hshallow, leafSides, List.filter_cons_of_neg (by simp [hroot]),
    List.filter_eq_self.2 hleaves, List.map_reverse, map_snd_facingChildren hexact haligned]

/-- A rule is equal to the production of an inner node exactly if it is shallow and can be
applied there with all children. -/
theorem structEq_oneLevel_iff (hv : t.isLeaf v = false) :
    Tree.structEq eq rule Tree.root (t.oneLevel v) Tree.root = true ↔
      rule.Shallow ∧ applies ⟨eq, .exact⟩ rule t v = true := by
  rw [Tree.structEq_iff_alike, Tree.alike_oneLevel_iff, applies_iff]
  constructor
  · rintro ⟨hlabel, hsizes, hpairs⟩
    have hshallow : rule.Shallow := by
      intro c hc
      rw [Tree.children_eq_flatten, ← hsizes.map_fst] at hc
      obtain ⟨p, hp, rfl⟩ := List.mem_map.1 hc
      exact (hpairs p hp).2
    refine ⟨hshallow, (Tree.isLeaf_eq_of_sameSizes hsizes).trans hv, fun q hq => ?_⟩
    rw [facing_of_shallow hshallow] at hq
    rcases List.mem_cons.1 hq with rfl | hq
    · exact ⟨hlabel, .inr ((aligned_iff_sameSizes rfl).2 hsizes)⟩
    · obtain ⟨hq, hleaf⟩ := hpairs q (List.mem_reverse.1 hq)
      exact ⟨hq, .inl hleaf⟩
  · rintro ⟨hshallow, hroot, haccords⟩
    rw [facing_of_shallow hshallow] at haccords
    obtain ⟨htop, hchildren⟩ := List.forall_mem_cons.1 haccords
    refine ⟨htop.1, (aligned_iff_sameSizes rfl).1 (htop.aligned hroot), fun p hp => ?_⟩
    have hp : p ∈ facingChildren rule t (Tree.root, v) := hp
    exact ⟨(hchildren p (List.mem_reverse.2 hp)).1, hshallow p.1 (left_mem_children hp)⟩

/-- A rule that can be applied with all children can be applied under any policy. -/
lemma applies_of_exact (h : applies ⟨eq, .exact⟩ rule t v = true) (policy : ArityPolicy) :
    applies ⟨eq, policy⟩ rule t v = true := by
  have hcoarser : Coarser ⟨eq, .exact⟩ ⟨eq, policy⟩ := by
    refine ⟨fun _ _ hab => hab, ?_⟩
    cases policy with
    | exact => exact .inl rfl
    | atMost => exact .inr rfl
  exact hcoarser.applies h

/-- The endpoints of a shallow rule with all children of a node are these children. -/
theorem endpoints_of_shallow (hshallow : rule.Shallow)
    (h : applies ⟨eq, .exact⟩ rule t v = true) (policy : ArityPolicy) :
    ∃ vs, endpoints ⟨eq, policy⟩ rule t v = .ok vs ∧ vs.Perm (t.children v) := by
  have hperm := leafSet_perm_of_applies h
  rw [leafSides_of_shallow rfl hshallow h] at hperm
  exact ⟨_, endpoints_of_applies (applies_of_exact h policy),
    hperm.trans (List.reverse_perm _)⟩

end Matcher

/-- A rule set covers the production of an inner node exactly if one of its shallow rules can be
applied there with all children. -/
theorem RuleSet.containsBy_oneLevel_iff {α N : Type} {eq : α → α → Bool} {t : Tree α} {v : Nat}
    (hv : t.isLeaf v = false) (rules : RuleSet α N) :
    rules.containsBy eq (t.oneLevel v) = true ↔
      ∃ e ∈ rules.toList, e.1.Shallow ∧ Matcher.applies ⟨eq, .exact⟩ e.1 t v = true := by
  rw [containsBy, ← Array.any_toList, List.any_eq_true]
  simp only [Matcher.structEq_oneLevel_iff hv, toList]

end TreeGrammar
