/-
# Slots in use

The slots of a node that matter are those up to the last one with a child.  Whether two nodes
have as many children in every slot, and which children stand in one place, can be told from the
slots in use alone; and between slots in use there is nothing more to tell, since there are
equally many of them (`forall₂_dropTrailingEmpty_iff`).
-/
import TreeGrammar.Proofs.Tree.Slots
import TreeGrammar.Tree.Feed

namespace TreeGrammar

section

variable {β γ : Type}

lemma dropTrailingEmpty_append (xs : List (List β)) :
    ∃ k, xs = dropTrailingEmpty xs ++ List.replicate k [] := by
  refine ⟨(xs.rtakeWhile List.isEmpty).length, ?_⟩
  have hempty : xs.rtakeWhile List.isEmpty =
      List.replicate (xs.rtakeWhile List.isEmpty).length [] :=
    List.eq_replicate_of_mem fun ys hys => by simpa using List.mem_rtakeWhile_imp hys
  rw [← hempty]
  exact List.rdropWhile_append_rtakeWhile.symm

lemma getD_dropTrailingEmpty (xs : List (List β)) (s : Nat) :
    (dropTrailingEmpty xs).getD s [] = xs.getD s [] := by
  obtain ⟨k, hk⟩ := dropTrailingEmpty_append xs
  conv_rhs => rw [hk]
  rw [List.getD_eq_getElem?_getD, List.getD_eq_getElem?_getD, List.getElem?_append]
  split
  case isTrue => rfl
  case isFalse hs =>
    rw [List.getElem?_eq_none (by omega), List.getElem?_replicate]
    split
    · rfl
    · rfl

/-- The last slot in use is not empty. -/
lemma getD_last_ne_nil {xs : List (List β)} {s : Nat}
    (h : (dropTrailingEmpty xs).length = s + 1) : xs.getD s [] ≠ [] := by
  have hne : dropTrailingEmpty xs ≠ [] := by
    intro hnil
    simp [hnil] at h
  have hlast : ¬ ((dropTrailingEmpty xs).getLast hne).isEmpty = true :=
    List.rdropWhile_last_not List.isEmpty xs hne
  rw [← getD_dropTrailingEmpty, List.getD_eq_getElem _ _ (by omega)]
  simpa [List.getLast_eq_getElem, h] using hlast

lemma dropTrailingEmpty_map (f : β → γ) (xs : List (List β)) :
    dropTrailingEmpty (xs.map (List.map f)) = (dropTrailingEmpty xs).map (List.map f) := by
  have hempty : List.isEmpty ∘ List.map f = (List.isEmpty : List β → Bool) := by
    funext ys
    exact List.isEmpty_map
  rw [dropTrailingEmpty, ← List.map_reverse, List.dropWhile_map, hempty, ← List.map_reverse]
  rfl

lemma forall₂_dropWhile {R : β → γ → Prop} {p : β → Bool} {q : γ → Bool} {xs : List β}
    {ys : List γ} (h : List.Forall₂ R xs ys) (hpq : ∀ x y, R x y → p x = q y) :
    List.Forall₂ R (xs.dropWhile p) (ys.dropWhile q) := by
  induction h with
  | nil => exact .nil
  | @cons x y xs ys hxy hrest ih =>
    rw [List.dropWhile_cons, List.dropWhile_cons, ← hpq x y hxy]
    split
    · exact ih
    · exact .cons hxy hrest

/-- Slots that are related child by child are so in use. -/
lemma forall₂_dropTrailingEmpty {R : β → γ → Prop} {xs : List (List β)} {ys : List (List γ)}
    (h : List.Forall₂ (List.Forall₂ R) xs ys) :
    List.Forall₂ (List.Forall₂ R) (dropTrailingEmpty xs) (dropTrailingEmpty ys) := by
  have hempty : ∀ cs ds, List.Forall₂ R cs ds → cs.isEmpty = ds.isEmpty := by
    intro cs ds hcd
    cases hcd with
    | nil => rfl
    | cons _ _ => rfl
  rw [dropTrailingEmpty, dropTrailingEmpty, List.forall₂_reverse_iff]
  exact forall₂_dropWhile (List.forall₂_reverse_iff.2 h) hempty

end

lemma SameSizes.length_le {xs ys : List (List Nat)} (h : SameSizes xs ys) :
    (dropTrailingEmpty xs).length ≤ (dropTrailingEmpty ys).length := by
  by_contra hlt
  obtain ⟨s, hs⟩ : ∃ s, (dropTrailingEmpty xs).length = s + 1 :=
    ⟨(dropTrailingEmpty xs).length - 1, by omega⟩
  -- the last slot in use on the left would be empty on the right
  have hempty : ys.getD s [] = [] := by
    rw [← getD_dropTrailingEmpty, List.getD_eq_default _ _ (by omega)]
  have hsize := h s
  rw [hempty, List.length_nil, List.length_eq_zero_iff] at hsize
  exact getD_last_ne_nil hs hsize

/-- As many slots are in use on both sides. -/
lemma SameSizes.length_eq {xs ys : List (List Nat)} (h : SameSizes xs ys) :
    (dropTrailingEmpty xs).length = (dropTrailingEmpty ys).length :=
  h.length_le.antisymm h.symm.length_le

/-- The sizes of the slots in use are as good as those of all slots. -/
theorem sizes_eq_iff {xs ys : List (List Nat)} :
    (dropTrailingEmpty xs).map List.length = (dropTrailingEmpty ys).map List.length ↔
      SameSizes xs ys := by
  have hget : ∀ (zs : List (List Nat)) (s : Nat),
      (zs.getD s []).length = ((dropTrailingEmpty zs).map List.length).getD s 0 := by
    intro zs s
    rw [← getD_dropTrailingEmpty, ← List.length_nil (α := Nat), List.getD_map]
  constructor
  · intro h s
    rw [hget, hget, h]
  · intro h
    apply List.ext_getElem
    · simpa using h.length_eq
    · intro s hs hs'
      rw [← List.getD_eq_getElem _ 0 hs, ← List.getD_eq_getElem _ 0 hs', ← hget, ← hget]
      exact h s

/-! ### Slots in use side by side -/

lemma sameSizes_dropTrailingEmpty_iff {xs ys : List (List Nat)} :
    SameSizes (dropTrailingEmpty xs) (dropTrailingEmpty ys) ↔ SameSizes xs ys := by
  simp only [SameSizes, getD_dropTrailingEmpty]

lemma mem_pairChildren_dropTrailingEmpty_iff {xs ys : List (List Nat)} {p : Nat × Nat} :
    p ∈ pairChildren (dropTrailingEmpty xs) (dropTrailingEmpty ys) ↔ p ∈ pairChildren xs ys := by
  simp only [mem_pairChildren_iff, getD_dropTrailingEmpty]

lemma pairSlots_of_length_eq {xs ys : List (List Nat)} (h : xs.length = ys.length) :
    pairSlots xs ys = xs.zip ys := by
  simp [pairSlots, List.rightpad, h]

/-- Slots of equal number are related child by child if they have the same sizes and the pairs of
children are related. -/
lemma forall₂_slots_iff {S : Nat → Nat → Prop} {xs ys : List (List Nat)} :
    List.Forall₂ (List.Forall₂ S) xs ys ↔
      xs.length = ys.length ∧ SameSizes xs ys ∧ ∀ p ∈ pairChildren xs ys, S p.1 p.2 := by
  rw [List.forall₂_iff_zip]
  refine and_congr_right fun hlength => ?_
  rw [sameSizes_iff, pairChildren, pairSlots_of_length_eq hlength]
  simp only [List.forall₂_iff_zip, List.mem_flatMap]
  constructor
  · intro h
    refine ⟨fun p hp => (h hp).1, ?_⟩
    rintro q ⟨p, hp, hq⟩
    exact (h hp).2 hq
  · rintro ⟨hsizes, hpairs⟩ cs ds hp
    exact ⟨hsizes _ hp, fun hq => hpairs _ ⟨_, hp, hq⟩⟩

/-- What is put for the children of two nodes is related, but for empty slots at the end, if the
slots have the same sizes and what is put for two children in one place is related. -/
theorem forall₂_dropTrailingEmpty_iff {β γ : Type} {R : β → γ → Prop} {f : Nat → β}
    {g : Nat → γ} {xs ys : List (List Nat)} :
    List.Forall₂ (List.Forall₂ R) (dropTrailingEmpty (xs.map (List.map f)))
        (dropTrailingEmpty (ys.map (List.map g))) ↔
      SameSizes xs ys ∧ ∀ p ∈ pairChildren xs ys, R (f p.1) (g p.2) := by
  rw [dropTrailingEmpty_map, dropTrailingEmpty_map]
  simp only [List.forall₂_map_left_iff, List.forall₂_map_right_iff]
  rw [forall₂_slots_iff, sameSizes_dropTrailingEmpty_iff]
  simp only [mem_pairChildren_dropTrailingEmpty_iff]
  exact ⟨fun ⟨_, h⟩ => h, fun h => ⟨h.1.length_eq, h⟩⟩

end TreeGrammar
