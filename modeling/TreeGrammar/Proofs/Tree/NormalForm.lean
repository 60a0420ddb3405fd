/-
# Normal forms

Equality of trees sees neither how the nodes are numbered nor the empty slots at the end of a
node.  A rose tree has no numbers, and without those slots it is the normal form of all trees
that are equal to it.  Whatever labels are compared by, two nodes are equal exactly if their
normal forms have the same slots everywhere and the comparison accepts the labels in the same
places; trees whose labels are compared by identity are equal exactly if their normal forms are
identical (`Tree.structEq_comparesNormalForms`).
-/
import TreeGrammar.Proofs.Tree.Alike
import TreeGrammar.Proofs.Tree.UsedSlots
import TreeGrammar.Tree.Strict

namespace TreeGrammar

namespace Rose

variable {α : Type}

/-! ### Trimming -/

mutual

/-- The normal form of a rose tree: no node has empty slots at its end. -/
def trim : Rose α → Rose α
  | .node a slots => .node a (dropTrailingEmpty (trimSlots slots))

/-- The slots of a node with trimmed children. -/
def trimSlots : List (List (Rose α)) → List (List (Rose α))
  | [] => []
  | rs :: slots => trimAll rs :: trimSlots slots

/-- The children in a slot, trimmed. -/
def trimAll : List (Rose α) → List (Rose α)
  | [] => []
  | r :: rs => trim r :: trimAll rs

end

lemma trimAll_eq_map (rs : List (Rose α)) : trimAll rs = rs.map trim := by
  induction rs with
  | nil => rw [trimAll, List.map_nil]
  | cons r rs ih => rw [trimAll, ih, List.map_cons]

lemma trimSlots_eq_map (slots : List (List (Rose α))) :
    trimSlots slots = slots.map (List.map trim) := by
  induction slots with
  | nil => rw [trimSlots, List.map_nil]
  | cons rs slots ih => rw [trimSlots, trimAll_eq_map, ih, List.map_cons]

lemma trim_node (a : α) (slots : List (List (Rose α))) :
    (node a slots).trim = .node a (dropTrailingEmpty (slots.map (List.map trim))) := by
  rw [trim, trimSlots_eq_map]

/-- What holds of a node when it holds of all its children holds of every rose tree. -/
@[elab_as_elim]
theorem induction_node {motive : Rose α → Prop}
    (node : ∀ a slots, (∀ rs ∈ slots, ∀ r ∈ rs, motive r) → motive (.node a slots)) :
    ∀ r, motive r
  | .node a slots => node a slots fun rs _ r _ => induction_node node r
termination_by r => sizeOf r
decreasing_by
  have hr : sizeOf r < sizeOf rs := List.sizeOf_lt_of_mem ‹r ∈ rs›
  have hrs : sizeOf rs < sizeOf slots := List.sizeOf_lt_of_mem ‹rs ∈ slots›
  simp only [Rose.node.sizeOf_spec]
  omega

/-! ### Comparing labels -/

mutual

/-- Whether two rose trees have the same slots at every node and `eq` accepts the labels in the
same places. -/
def equalBy (eq : α → α → Bool) : Rose α → Rose α → Bool
  | .node a slots, .node b slots' => eq a b && slotsEqualBy eq slots slots'

/-- Whether there are as many slots on both sides, with equal children. -/
def slotsEqualBy (eq : α → α → Bool) : List (List (Rose α)) → List (List (Rose α)) → Bool
  | [], [] => true
  | rs :: slots, rs' :: slots' => allEqualBy eq rs rs' && slotsEqualBy eq slots slots'
  | [], _ :: _ => false
  | _ :: _, [] => false

/-- Whether there are as many children on both sides, and equal ones in the same places. -/
def allEqualBy (eq : α → α → Bool) : List (Rose α) → List (Rose α) → Bool
  | [], [] => true
  | r :: rs, r' :: rs' => equalBy eq r r' && allEqualBy eq rs rs'
  | [], _ :: _ => false
  | _ :: _, [] => false

end

variable {eq : α → α → Bool}

lemma allEqualBy_iff {rs rs' : List (Rose α)} :
    allEqualBy eq rs rs' = true ↔ List.Forall₂ (fun r r' => equalBy eq r r' = true) rs rs' := by
  induction rs generalizing rs' with
  | nil =>
    cases rs' with
    | nil => simp [allEqualBy]
    | cons r' rs' => simp [allEqualBy]
  | cons r rs ih =>
    cases rs' with
    | nil => simp [allEqualBy]
    | cons r' rs' => rw [allEqualBy, Bool.and_eq_true, ih, List.forall₂_cons]

lemma slotsEqualBy_iff {slots slots' : List (List (Rose α))} :
    slotsEqualBy eq slots slots' = true ↔
      List.Forall₂ (List.Forall₂ fun r r' => equalBy eq r r' = true) slots slots' := by
  induction slots generalizing slots' with
  | nil =>
    cases slots' with
    | nil => simp [slotsEqualBy]
    | cons rs' slots' => simp [slotsEqualBy]
  | cons rs slots ih =>
    cases slots' with
    | nil => simp [slotsEqualBy]
    | cons rs' slots' =>
      rw [slotsEqualBy, Bool.and_eq_true, allEqualBy_iff, ih, List.forall₂_cons]

lemma equalBy_node_iff {a b : α} {slots slots' : List (List (Rose α))} :
    equalBy eq (node a slots) (node b slots') = true ↔
      eq a b = true ∧
        List.Forall₂ (List.Forall₂ fun r r' => equalBy eq r r' = true) slots slots' := by
  rw [equalBy, Bool.and_eq_true, slotsEqualBy_iff]

lemma eq_node_iff {a b : α} {slots slots' : List (List (Rose α))} :
    node a slots = node b slots' ↔
      a = b ∧ List.Forall₂ (List.Forall₂ Eq) slots slots' := by
  rw [node.injEq, List.forall₂_eq_eq_eq, List.forall₂_eq_eq_eq]

end Rose

namespace Tree

variable {α : Type} {R : α → α → Prop} {Q : Rose α → Rose α → Prop} {t u : Tree α} {v w : Nat}

lemma trim_rose (t : Tree α) (v : Nat) :
    (t.rose v).trim = .node (t.label v)
      (dropTrailingEmpty ((t.slots v).map (List.map fun c => (t.rose c).trim))) := by
  rw [rose_eq, Rose.trim_node, List.map_map]
  simp only [Function.comp_def, List.map_map]

/-- Nodes are alike up to a relation of labels if their normal forms are in a relation that asks
for related labels and, child by child, for related slots. -/
theorem alike_iff_trim
    (hQ : ∀ a b slots slots', Q (.node a slots) (.node b slots') ↔
      R a b ∧ List.Forall₂ (List.Forall₂ Q) slots slots') :
    Alike R t u v w ↔ Q (t.rose v).trim (u.rose w).trim := by
  -- the relation of normal forms goes down the two trees as likeness does
  have step : ∀ v w, Q (t.rose v).trim (u.rose w).trim ↔ R (t.label v) (u.label w) ∧
      SameSizes (t.slots v) (u.slots w) ∧
      ∀ p ∈ pairChildren (t.slots v) (u.slots w), Q (t.rose p.1).trim (u.rose p.2).trim := by
    intro v w
    rw [trim_rose, trim_rose, hQ, forall₂_dropTrailingEmpty_iff]
  constructor
  · intro h
    induction h with
    | node hlabel hsizes _ ih => exact (step _ _).2 ⟨hlabel, hsizes, ih⟩
  · intro h
    induction v using t.induction_children generalizing w with
    | node v ih =>
      obtain ⟨hlabel, hsizes, hchildren⟩ := (step v w).1 h
      exact .node hlabel hsizes fun p hp =>
        ih p.1 (left_mem_of_mem_pairChildren hp) (hchildren p hp)

lemma structEq_eq_equalBy (eq : α → α → Bool) (t u : Tree α) (v w : Nat) :
    structEq eq t v u w = (t.rose v).trim.equalBy eq (u.rose w).trim := by
  rw [Bool.eq_iff_iff, structEq_iff_alike]
  exact alike_iff_trim (Q := fun r r' => r.equalBy eq r' = true) fun _ _ _ _ =>
    Rose.equalBy_node_iff

lemma alike_eq_iff_trim_eq : Alike Eq t u v w ↔ (t.rose v).trim = (u.rose w).trim :=
  alike_iff_trim fun _ _ _ _ => Rose.eq_node_iff

/-- The sizes of the slots and the children in one place, looked up up to the last slot of either
node. -/
lemma sameSizes_and_children_iff {S : Nat → Nat → Prop} :
    (SameSizes (t.slots v) (u.slots w) ∧
        ∀ p ∈ pairChildren (t.slots v) (u.slots w), S p.1 p.2) ↔
      ∀ s < max (t.slotCount v) (u.slotCount w), (t.slot v s).length = (u.slot w s).length ∧
        ∀ i c d, t.child? v s i = some c → u.child? w s i = some d → S c d := by
  constructor
  · rintro ⟨hsizes, hchildren⟩ s -
    exact ⟨hsizes s, fun i c d hc hd => hchildren (c, d) (mem_pairChildren_iff.2 ⟨s, i, hc, hd⟩)⟩
  · intro h
    refine ⟨sameSizes_iff.2 fun p hp => ?_, fun p hp => ?_⟩
    · obtain ⟨s, hs, rfl⟩ := mem_pairSlots_iff.1 hp
      exact (h s hs).1
    · obtain ⟨sides, hsides, hp⟩ := List.mem_flatMap.1 hp
      obtain ⟨s, hs, rfl⟩ := mem_pairSlots_iff.1 hsides
      obtain ⟨i, hi⟩ := List.mem_iff_getElem?.1 hp
      obtain ⟨hc, hd⟩ := List.getElem?_zip_eq_some.1 hi
      exact (h s hs).2 i p.1 p.2 hc hd

/-- Equality of trees with labels in `α` is equality of normal forms. -/
structure ComparesNormalForms (α : Type) : Prop where
  /-- Comparing nodes of two trees never misses a node. -/
  strict_eq : ∀ (ε : Type) (eq : α → α → Bool) (t u : Tree α) (v w : Nat), v < t.size → w < u.size →
    strictStructEq (ε := ε) eq t v u w = .ok (structEq eq t v u w)
  /-- Nodes are equal if the labels are accepted, the slots have the same sizes, up to the last
  one of either node, and the children in the same places are equal. -/
  structEq_iff : ∀ (eq : α → α → Bool) (t u : Tree α) (v w : Nat),
    structEq eq t v u w = true ↔ eq (t.label v) (u.label w) = true ∧
      ∀ s < max (t.slotCount v) (u.slotCount w), (t.slot v s).length = (u.slot w s).length ∧
        ∀ i c d, t.child? v s i = some c → u.child? w s i = some d →
          structEq eq t c u d = true
  refl : ∀ eq : α → α → Bool, (∀ a, eq a a = true) →
    ∀ (t : Tree α) (v : Nat), structEq eq t v t v = true
  symm : ∀ eq : α → α → Bool, (∀ a b, eq a b = true → eq b a = true) →
    ∀ (t u : Tree α) (v w : Nat), structEq eq t v u w = true → structEq eq u w t v = true
  trans : ∀ eq : α → α → Bool, (∀ a b c, eq a b = true → eq b c = true → eq a c = true) →
    ∀ (t u x : Tree α) (v w y : Nat),
      structEq eq t v u w = true → structEq eq u w x y = true → structEq eq t v x y = true
  /-- Only the normal forms count. -/
  structEq_eq : ∀ (eq : α → α → Bool) (t u : Tree α) (v w : Nat),
    structEq eq t v u w = (t.rose v).trim.equalBy eq (u.rose w).trim
  beq_eq : ∀ [BEq α] (t u : Tree α),
    (t == u) = (t.rose root).trim.equalBy (· == ·) (u.rose root).trim
  /-- With labels compared by identity, equal trees are those with the same normal form. -/
  beq_iff : ∀ [BEq α] [LawfulBEq α] (t u : Tree α),
    (t == u) = true ↔ (t.rose root).trim = (u.rose root).trim

/-- Trees are compared by their normal forms. -/
theorem structEq_comparesNormalForms (α : Type) : ComparesNormalForms α where
  strict_eq _ eq t u _ _ hv hw := strictStructEq_eq eq t u hv hw
  structEq_iff eq t u _ _ := Tree.structEq_iff.trans <| and_congr_right fun _ =>
    sameSizes_and_children_iff (S := fun c d => structEq eq t c u d = true)
  refl eq heq t v := structEq_iff_alike.2 (.refl heq t v)
  symm eq heq t u v w h :=
    structEq_iff_alike.2 ((structEq_iff_alike.1 h).flip.imp fun a b => heq b a)
  trans eq heq t u x v w y h h' :=
    structEq_iff_alike.2 ((structEq_iff_alike.1 h).comp (structEq_iff_alike.1 h') heq)
  structEq_eq := structEq_eq_equalBy
  beq_eq t u := structEq_eq_equalBy _ t u root root
  beq_iff t u := by
    rw [beq_iff_alike, ← alike_eq_iff_trim_eq]
    simp only [beq_iff_eq]

end Tree

end TreeGrammar
