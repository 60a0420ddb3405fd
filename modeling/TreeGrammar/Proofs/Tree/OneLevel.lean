/-
# The production of a node

The production of a node is the node over its children, cut off below them.  Whatever a tree is
compared with, its production is alike another tree when the root is, the slots have the same
sizes, and the other tree stops at its children, whose labels are related to those of the
node's children (`alike_oneLevel_iff`).
-/
import TreeGrammar.Proofs.Tree.Alike
import TreeGrammar.Proofs.Tree.Pruning

namespace TreeGrammar.Tree

variable {α : Type} {R : α → α → Prop} {t u rule : Tree α} {r v w : Nat}

/-- All children of the root are leaves. -/
def Shallow (t : Tree α) : Prop := ∀ c ∈ t.children root, t.isLeaf c = true

instance (t : Tree α) : Decidable t.Shallow :=
  inferInstanceAs (Decidable (∀ c ∈ t.children root, t.isLeaf c = true))

/-- The production of a node has its label and its slots, with a childless copy in place of every
child. -/
lemma oneLevel_spec (t : Tree α) (v : Nat) :
    (t.oneLevel v).label root = t.label v ∧
      SameSizes ((t.oneLevel v).slots root) (t.slots v) ∧
      ∀ p ∈ pairChildren ((t.oneLevel v).slots root) (t.slots v),
        (t.oneLevel v).label p.1 = t.label p.2 ∧ (t.oneLevel v).isLeaf p.1 = true := by
  have hnamed := (copying_start t (fun _ => false) v).named
  have hbare : sourceSlots (single (t.label v) (t.slotCount v)) [v] root =
      List.replicate (t.slotCount v) [] := sourceSlots_of_slots_eq_replicate rfl
  obtain ⟨hhung, hfilled⟩ := hnamed.attachChildren (size_pos _) hbare
  -- the copies, in the order of their positions, are those of these nodes
  let names := [v] ++ (placed (t.slots v)).map (·.2)
  have hslots : ((t.oneLevel v).slots root).map (List.map fun i => names.getD i 0) =
      (t.slots v).map (List.map id) := by
    rw [List.map_id_fun, List.map_id]
    exact hhung.filled.trans hfilled
  refine ⟨hhung.named.label_eq root v rfl, .of_map_eq hslots, fun p hp => ?_⟩
  have hc := left_mem_of_mem_pairChildren hp
  have hlt : p.1 < names.length := hhung.named.length_eq ▸ (t.oneLevel v).child_lt_size hc
  have hsource : names[p.1]? = some p.2 := by
    rw [List.getElem?_eq_getElem hlt, ← List.getD_eq_getElem names 0 hlt]
    exact congrArg some (eq_of_mem_pairChildren hslots hp)
  have hbelow := hhung.bare p.1 p.2 ((t.oneLevel v).lt_of_mem_children hc) hsource
  refine ⟨hhung.named.label_eq p.1 p.2 hsource, ?_⟩
  rw [isLeaf_iff, children_eq_flatten, ← List.map_eq_nil_iff, List.map_flatten]
  exact (congrArg List.flatten hbelow).trans List.flatten_replicate_nil

/-- A tree is alike the production of a node if the roots are, and the tree stops at its
children. -/
theorem alike_oneLevel_iff :
    Alike R rule (t.oneLevel v) r root ↔
      R (rule.label r) (t.label v) ∧ SameSizes (rule.slots r) (t.slots v) ∧
        ∀ p ∈ pairChildren (rule.slots r) (t.slots v),
          R (rule.label p.1) (t.label p.2) ∧ rule.isLeaf p.1 = true := by
  obtain ⟨hroot, hsizes, hcopies⟩ := t.oneLevel_spec v
  constructor
  · intro h
    refine ⟨hroot ▸ h.label, h.sameSizes.trans hsizes, fun p hp => ?_⟩
    obtain ⟨c, hl, hr⟩ := h.sameSizes.exists_between hp
    obtain ⟨hlabel, hleaf⟩ := hcopies _ hr
    rw [← hlabel]
    exact ⟨(h.child hl).label, (h.child hl).isLeaf_eq.trans hleaf⟩
  · rintro ⟨hlabel, hsame, hpairs⟩
    refine .node (hroot ▸ hlabel) (hsame.trans hsizes.symm) fun p hp => ?_
    obtain ⟨c, hl, hr⟩ := hsame.exists_between hp
    obtain ⟨hcopy, hleaf⟩ := hcopies _ (mem_pairChildren_comm.1 hr)
    obtain ⟨hrelated, hstop⟩ := hpairs _ hl
    exact .of_isLeaf (hcopy ▸ hrelated) hstop hleaf

/-- Two productions are alike if the labels of the nodes and of their children are. -/
theorem oneLevel_alike_oneLevel_iff :
    Alike R (t.oneLevel v) (u.oneLevel w) root root ↔
      R (t.label v) (u.label w) ∧ SameSizes (t.slots v) (u.slots w) ∧
        ∀ p ∈ pairChildren (t.slots v) (u.slots w), R (t.label p.1) (u.label p.2) := by
  obtain ⟨hroot, hsizes, hcopies⟩ := t.oneLevel_spec v
  rw [alike_oneLevel_iff, hroot]
  refine and_congr_right fun _ => ?_
  constructor
  · rintro ⟨hsame, hpairs⟩
    refine ⟨hsizes.symm.trans hsame, fun p hp => ?_⟩
    obtain ⟨c, hl, hr⟩ := hsizes.symm.exists_between hp
    rw [← (hcopies _ (mem_pairChildren_comm.1 hl)).1]
    exact (hpairs _ hr).1
  · rintro ⟨hsame, hpairs⟩
    refine ⟨hsizes.trans hsame, fun p hp => ?_⟩
    obtain ⟨c, hl, hr⟩ := hsizes.exists_between hp
    obtain ⟨hcopy, hleaf⟩ := hcopies _ hl
    exact ⟨hcopy ▸ hpairs _ hr, hleaf⟩

/-- Alike nodes have alike productions. -/
theorem Alike.oneLevel (h : Alike R t u v w) :
    Alike R (t.oneLevel v) (u.oneLevel w) root root := by
  obtain ⟨hroot, hsizes, hcopies⟩ := t.oneLevel_spec v
  refine alike_oneLevel_iff.2 ⟨hroot ▸ h.label, hsizes.trans h.sameSizes, fun p hp => ?_⟩
  obtain ⟨c, hl, hr⟩ := hsizes.exists_between hp
  obtain ⟨hcopy, hleaf⟩ := hcopies _ hl
  exact ⟨hcopy ▸ (h.child hr).label, hleaf⟩

end TreeGrammar.Tree
