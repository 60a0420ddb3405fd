/-
# Growing a tree

Hanging a tree `u` under a node of `t` keeps the nodes of `t` where they are, but for one
child more in one slot, and puts the nodes of `u` behind them, with their children moved
along.
-/
import Mathlib
import TreeGrammar.Tree.Basic

namespace TreeGrammar.Tree

variable {α : Type} {t u : Tree α} {p s v : Nat}

lemma slot_lt_of_lt_slotCount (h : s < t.slotCount p) : s < (t.slots p).length := h

lemma lt_size_of_lt_slotCount (h : s < t.slotCount p) : p < t.size :=
  (Array.getElem?_eq_some_iff.1 (t.node?_of_lt_slots h)).1

lemma nodes_attach (h : s < t.slotCount p) : (t.attach p s u).nodes = t.joined p s u := by
  rw [attach, dif_pos (slot_lt_of_lt_slotCount h)]

lemma size_attach (h : s < t.slotCount p) : (t.attach p s u).size = t.size + u.size := by
  rw [size, nodes_attach h, size_joined]

/-- The nodes that were there stay, and one of them gets a child. -/
lemma node_attach_of_lt (h : s < t.slotCount p) (hv : v < t.size) :
    (t.attach p s u).node v = if p = v then (t.node v).addChild s t.size else t.node v := by
  have hjoined : (t.joined p s u)[v]? =
      some (if p = v then (t.node v).addChild s t.size else t.node v) := by
    rw [joined, Array.getElem?_append_left (by rw [Array.size_modify]; exact hv),
      Array.getElem?_modify, t.node_of_lt hv, Array.getElem?_eq_getElem hv]
    split
    · rfl
    · rfl
  rw [node, nodes_attach h, hjoined]
  rfl

/-- The hung nodes follow. -/
lemma node_attach_add (h : s < t.slotCount p) (hv : v < u.size) :
    (t.attach p s u).node (t.size + v) = (u.node v).shift t.size := by
  have hjoined : (t.joined p s u)[t.size + v]? = some ((u.node v).shift t.size) := by
    rw [joined, Array.getElem?_append_right (by simp [size]), Array.getElem?_map,
      Array.size_modify, u.node_of_lt hv]
    have hback : t.size + v - t.nodes.size = v := by simp [size]
    rw [hback, Array.getElem?_eq_getElem hv]
    rfl
  rw [node, nodes_attach h, hjoined]
  rfl

lemma label_attach_add (h : s < t.slotCount p) (hv : v < u.size) :
    (t.attach p s u).label (t.size + v) = u.label v := by
  rw [label, node_attach_add h hv]
  rfl

lemma slots_attach_add (h : s < t.slotCount p) (hv : v < u.size) :
    (t.attach p s u).slots (t.size + v) = (u.slots v).map (List.map (t.size + ·)) := by
  rw [slots, node_attach_add h hv]
  simp only [Node.shift, Nat.add_comm t.size]
  rfl

/-- A tree can be hung where there is a slot for it. -/
lemma graft_of_lt (h : s < t.slotCount p) :
    t.graft p s u = .ok (t.size, t.attach p s u) := by
  have hp : t.contains p = true := by simpa [contains] using lt_size_of_lt_slotCount h
  rw [graft, if_pos hp]
  exact if_pos h

lemma graft_of_size_le (h : t.size ≤ p) : t.graft p s u = .error (.unknownNode p t.size) := by
  rw [graft, if_neg (by simpa [contains] using h)]

lemma graft_of_slotCount_le (hp : p < t.size) (h : t.slotCount p ≤ s) :
    t.graft p s u = .error (.invalidSlot p s (t.slotCount p)) := by
  rw [graft, if_pos (by simpa [contains] using hp)]
  exact if_neg h.not_gt

lemma graft_of_not_lt (h : ¬ s < t.slotCount p) : ∃ e, t.graft p s u = .error e := by
  rcases Nat.lt_or_ge p t.size with hp | hp
  · exact ⟨_, graft_of_slotCount_le hp (Nat.le_of_not_lt h)⟩
  · exact ⟨_, graft_of_size_le hp⟩

/-! ### Hanging a single node -/

section

variable {a : α} {k : Nat}

lemma slots_single_root (a : α) (k : Nat) :
    (single a k).slots root = List.replicate k [] := rfl

lemma size_attach_single (h : s < t.slotCount p) :
    (t.attach p s (single a k)).size = t.size + 1 := size_attach h

lemma label_attach_of_lt (h : s < t.slotCount p) (hv : v < t.size) :
    (t.attach p s u).label v = t.label v := by
  rw [label, node_attach_of_lt h hv]
  split
  · rfl
  · rfl

lemma slots_attach_of_lt (h : s < t.slotCount p) (hv : v < t.size) :
    (t.attach p s u).slots v =
      if p = v then (t.slots v).modify s (· ++ [t.size]) else t.slots v := by
  rw [slots, node_attach_of_lt h hv]
  split
  · rfl
  · rfl

lemma slotCount_attach_of_lt (h : s < t.slotCount p) (hv : v < t.size) :
    (t.attach p s u).slotCount v = t.slotCount v := by
  rw [slotCount, slots_attach_of_lt h hv]
  split
  · exact List.length_modify ..
  · rfl

lemma node_attach_single_size (h : s < t.slotCount p) :
    (t.attach p s (single a k)).node t.size = .bare a k := by
  have hnode := node_attach_add (u := single a k) (v := 0) h (single a k).size_pos
  rw [Nat.add_zero] at hnode
  rw [hnode]
  simp [single, node, Node.shift, Node.bare]

lemma label_attach_single_size (h : s < t.slotCount p) :
    (t.attach p s (single a k)).label t.size = a := by
  rw [label, node_attach_single_size h]
  rfl

lemma slots_attach_single_size (h : s < t.slotCount p) :
    (t.attach p s (single a k)).slots t.size = List.replicate k [] := by
  rw [slots, node_attach_single_size h]
  rfl

end

/-! ### Room for slots -/

section

variable {a : α} {k : Nat}

/-- Whether there is a place for a node is no matter of its slots. -/
lemma addChild_cases (t : Tree α) (p s : Nat) (a : α) :
    (∃ e, ∀ k, t.addChild p s a k = .error e) ∨
      ∀ k, t.addChild p s a k = .ok (t.size, t.attach p s (single a k)) := by
  simp only [addChild, graft]
  by_cases hp : t.contains p = true
  · by_cases hs : s < t.slotCount p
    · exact .inr fun k => by rw [if_pos hp, if_pos hs]
    · exact .inl ⟨_, fun k => by rw [if_pos hp, if_neg hs]⟩
  · exact .inl ⟨_, fun k => by rw [if_neg hp]⟩

lemma addNode_of_error {e : TreeError} (h : ∀ k, t.addChild p s a k = .error e) :
    t.addNode p s a k = .error (.place e) := by
  rw [addNode, h]
  rfl

lemma addNode_of_ok (h : ∀ k, t.addChild p s a k = .ok (t.size, t.attach p s (single a k))) :
    t.addNode p s a k = if slotBytes * k < blockBound then
      .ok (t.size, t.attach p s (single a k)) else .error (.room ⟨k⟩) := by
  rw [addNode, h, h, setAside]
  split
  · rfl
  · rfl

/-- A node is added as by `addChild`, and only if there is room for its slots. -/
theorem addNode_eq_ok_iff {r : Nat × Tree α} :
    t.addNode p s a k = .ok r ↔ slotBytes * k < blockBound ∧ t.addChild p s a k = .ok r := by
  rcases t.addChild_cases p s a with ⟨e, h⟩ | h
  · rw [addNode_of_error h, h]
    simp
  · rw [addNode_of_ok h, h]
    by_cases hroom : slotBytes * k < blockBound
    · simp [hroom]
    · simp [hroom]

/-- A wrong place is reported whatever room there is. -/
theorem addNode_eq_place_iff {e : TreeError} :
    t.addNode p s a k = .error (.place e) ↔ t.addChild p s a k = .error e := by
  rcases t.addChild_cases p s a with ⟨e', h⟩ | h
  · rw [addNode_of_error h, h]
    simp
  · rw [addNode_of_ok h, h]
    split
    · simp
    · simp

end

end TreeGrammar.Tree
