/-
# Slots side by side

Where two trees are compared their slots are laid side by side, a slot that one node lacks
being empty.  A pair of children is two children in one place of one slot.  Slots have the same
sizes when no child is left without a partner; then the pairs run through all children of both
nodes.
-/
import Mathlib
import TreeGrammar.Tree.Equality

namespace TreeGrammar

lemma forall₂_imp_of_mem {β γ : Type} {R S : β → γ → Prop} {xs : List β} {ys : List γ}
    (h : ∀ x ∈ xs, ∀ y, R x y → S x y) (hR : List.Forall₂ R xs ys) : List.Forall₂ S xs ys :=
  ((List.forall₂_and_left xs ys).2 ⟨h, hR⟩).imp fun _ y ⟨hx, hxy⟩ => hx y hxy

lemma forall₂_congr_of_mem {β γ : Type} {R S : β → γ → Prop} {xs : List β}
    (h : ∀ x ∈ xs, ∀ y, R x y ↔ S x y) (ys : List γ) :
    List.Forall₂ R xs ys ↔ List.Forall₂ S xs ys :=
  ⟨forall₂_imp_of_mem fun x hx y => (h x hx y).1, forall₂_imp_of_mem fun x hx y => (h x hx y).2⟩

lemma pairSlots_eq_map_range (xs ys : List (List Nat)) :
    pairSlots xs ys =
      (List.range (max xs.length ys.length)).map fun s => (xs.getD s [], ys.getD s []) := by
  have hpad : ∀ (zs : List (List Nat)) (n s : Nat), s < n →
      (zs.rightpad n [])[s]? = some (zs.getD s []) := by
    intro zs n s hs
    rw [List.rightpad, List.getElem?_append, List.getD_eq_getElem?_getD]
    split
    case isTrue h => simp [List.getElem?_eq_getElem h]
    case isFalse h =>
      rw [List.getElem?_replicate, if_pos (by omega), List.getElem?_eq_none (by omega)]
      rfl
  apply List.ext_getElem?
  intro s
  by_cases hs : s < max xs.length ys.length
  · rw [pairSlots, List.getElem?_map, List.getElem?_range hs]
    exact List.getElem?_zip_eq_some.2 ⟨hpad xs _ s hs, hpad ys _ s hs⟩
  · rw [List.getElem?_eq_none, List.getElem?_eq_none]
    · simpa using hs
    · simp only [pairSlots, List.length_zip, List.length_rightpad]
      omega

/-- The pairs are found slot by slot; slots beyond the last one add nothing. -/
lemma pairChildren_eq_flatMap_range {xs ys : List (List Nat)} {n : Nat}
    (hn : max xs.length ys.length ≤ n) :
    pairChildren xs ys =
      (List.range n).flatMap fun s => (xs.getD s []).zip (ys.getD s []) := by
  obtain ⟨k, rfl⟩ := Nat.exists_eq_add_of_le hn
  have hbeyond : ((List.range k).map (max xs.length ys.length + ·)).flatMap
      (fun s => (xs.getD s []).zip (ys.getD s [])) = [] := by
    rw [List.flatMap_eq_nil_iff]
    intro s hs
    obtain ⟨i, -, rfl⟩ := List.mem_map.1 hs
    rw [List.getD_eq_default _ _ (by omega), List.zip_nil_left]
  rw [List.range_add, List.flatMap_append, hbeyond, List.append_nil, pairChildren,
    pairSlots_eq_map_range, List.flatMap_map]

lemma mem_pairSlots_iff {xs ys : List (List Nat)} {p : List Nat × List Nat} :
    p ∈ pairSlots xs ys ↔
      ∃ s < max xs.length ys.length, p = (xs.getD s [], ys.getD s []) := by
  rw [pairSlots_eq_map_range, List.mem_map]
  constructor
  · rintro ⟨s, hs, rfl⟩
    exact ⟨s, List.mem_range.1 hs, rfl⟩
  · rintro ⟨s, hs, rfl⟩
    exact ⟨s, List.mem_range.2 hs, rfl⟩

lemma mem_pairChildren_iff {xs ys : List (List Nat)} {p : Nat × Nat} :
    p ∈ pairChildren xs ys ↔
      ∃ s i : Nat, (xs.getD s [])[i]? = some p.1 ∧ (ys.getD s [])[i]? = some p.2 := by
  rw [pairChildren, List.mem_flatMap]
  constructor
  · rintro ⟨sides, hsides, hp⟩
    obtain ⟨s, -, rfl⟩ := mem_pairSlots_iff.1 hsides
    obtain ⟨i, hi⟩ := List.mem_iff_getElem?.1 hp
    exact ⟨s, i, List.getElem?_zip_eq_some.1 hi⟩
  · rintro ⟨s, i, hx, hy⟩
    -- a slot beyond the last one holds nothing
    have hs : s < max xs.length ys.length := by
      by_contra hs
      rw [List.getD_eq_default _ _ (by omega)] at hx
      simp at hx
    exact ⟨_, mem_pairSlots_iff.2 ⟨s, hs, rfl⟩,
      List.mem_iff_getElem?.2 ⟨i, List.getElem?_zip_eq_some.2 ⟨hx, hy⟩⟩⟩

lemma mem_pairChildren_comm {xs ys : List (List Nat)} {x y : Nat} :
    (x, y) ∈ pairChildren xs ys ↔ (y, x) ∈ pairChildren ys xs := by
  simp only [mem_pairChildren_iff, and_comm]

lemma pairChildren_of_flatten_eq_nil {xs ys : List (List Nat)} (h : xs.flatten = []) :
    pairChildren xs ys = [] := by
  rw [List.eq_nil_iff_forall_not_mem]
  intro p hp
  have := left_mem_of_mem_pairChildren hp
  simp [h] at this

lemma flatMap_snd_pairSlots (xs ys : List (List Nat)) :
    (pairSlots xs ys).flatMap (·.2) = ys.flatten := by
  rw [List.flatMap_def, pairSlots, List.map_snd_zip, flatten_rightpad_nil]
  simp only [List.length_rightpad]
  omega

/-- The right sides of the pairs are some of the children, in order. -/
lemma map_snd_pairChildren_sublist (xs ys : List (List Nat)) :
    ((pairChildren xs ys).map (·.2)).Sublist ys.flatten := by
  rw [← flatMap_take_eq, ← flatMap_snd_pairSlots xs ys]
  exact List.Sublist.flatMap_right _ fun p _ => List.take_sublist _ _

/-- Where both lists have the same numbers of children, all of the right ones are in pairs. -/
lemma map_snd_pairChildren {xs ys : List (List Nat)}
    (h : ∀ p ∈ pairSlots xs ys, p.1.length = p.2.length) :
    (pairChildren xs ys).map (·.2) = ys.flatten := by
  have htake : ∀ p ∈ pairSlots xs ys, p.2.take p.1.length = p.2 := fun p hp => by
    rw [h p hp, List.take_length]
  rw [← flatMap_take_eq, ← flatMap_snd_pairSlots xs, List.flatMap_def, List.flatMap_def,
    List.map_congr_left htake]

lemma pairChildren_swap (xs ys : List (List Nat)) :
    pairChildren ys xs = (pairChildren xs ys).map Prod.swap := by
  have hslots : pairSlots ys xs = (pairSlots xs ys).map Prod.swap := by
    rw [pairSlots, pairSlots, List.zip_swap, Nat.max_comm]
  simp only [pairChildren, hslots, List.flatMap_map, List.map_flatMap, List.zip_swap,
    Prod.fst_swap, Prod.snd_swap]

/-- The left sides of the pairs are some of the children, in order. -/
lemma map_fst_pairChildren_sublist (xs ys : List (List Nat)) :
    ((pairChildren xs ys).map (·.1)).Sublist xs.flatten := by
  have hsnd := map_snd_pairChildren_sublist ys xs
  rw [pairChildren_swap, List.map_map] at hsnd
  exact hsnd

/-- In every slot there are as many children on one side as on the other. -/
def SameSizes (xs ys : List (List Nat)) : Prop :=
  ∀ s : Nat, (xs.getD s []).length = (ys.getD s []).length

lemma sameSizes_iff {xs ys : List (List Nat)} :
    SameSizes xs ys ↔ ∀ p ∈ pairSlots xs ys, p.1.length = p.2.length := by
  constructor
  · intro h p hp
    obtain ⟨s, -, rfl⟩ := mem_pairSlots_iff.1 hp
    exact h s
  · intro h s
    by_cases hs : s < max xs.length ys.length
    · exact h _ (mem_pairSlots_iff.2 ⟨s, hs, rfl⟩)
    · rw [List.getD_eq_default _ _ (by omega), List.getD_eq_default _ _ (by omega)]

lemma SameSizes.refl (xs : List (List Nat)) : SameSizes xs xs := fun _ => rfl

lemma SameSizes.symm {xs ys : List (List Nat)} (h : SameSizes xs ys) : SameSizes ys xs :=
  fun s => (h s).symm

lemma SameSizes.trans {xs ys zs : List (List Nat)} (h : SameSizes xs ys)
    (h' : SameSizes ys zs) : SameSizes xs zs := fun s => (h s).trans (h' s)

/-- Slots without children have the same sizes, however many there are. -/
lemma SameSizes.of_flatten_eq_nil {xs ys : List (List Nat)} (hx : xs.flatten = [])
    (hy : ys.flatten = []) : SameSizes xs ys := by
  have hempty : ∀ {zs : List (List Nat)}, zs.flatten = [] → ∀ s, zs.getD s [] = [] := by
    intro zs hzs s
    rw [List.getD_eq_getElem?_getD]
    cases hs : zs[s]? with
    | none => rfl
    | some cs => exact List.flatten_eq_nil_iff.1 hzs cs (List.mem_of_getElem? hs)
  intro s
  rw [hempty hx, hempty hy]

lemma SameSizes.map_fst {xs ys : List (List Nat)} (h : SameSizes xs ys) :
    (pairChildren xs ys).map (·.1) = xs.flatten := by
  rw [← flatMap_fst_eq fun p hp => (sameSizes_iff.1 h p hp).le, flatMap_fst_pairSlots]

lemma SameSizes.map_snd {xs ys : List (List Nat)} (h : SameSizes xs ys) :
    (pairChildren xs ys).map (·.2) = ys.flatten :=
  map_snd_pairChildren (sameSizes_iff.1 h)

/-- Slots with the same sizes have as good as the same children in the same places: what is in
pairs with others on one side is so on the other side. -/
lemma SameSizes.forall₂_pairChildren {xs xs' ys ys' : List (List Nat)} (hx : SameSizes xs xs')
    (hy : SameSizes ys ys') :
    List.Forall₂
      (fun p q => (p.1, q.1) ∈ pairChildren xs xs' ∧ (p.2, q.2) ∈ pairChildren ys ys')
      (pairChildren xs ys) (pairChildren xs' ys') := by
  obtain ⟨n, hn, hn'⟩ : ∃ n, max xs.length ys.length ≤ n ∧ max xs'.length ys'.length ≤ n :=
    ⟨_, le_max_left _ _, le_max_right _ _⟩
  rw [pairChildren_eq_flatMap_range hn, pairChildren_eq_flatMap_range hn']
  refine List.rel_flatMap (R := Eq) (List.forall₂_same.2 fun s _ => rfl) ?_
  rintro s _ rfl
  refine List.forall₂_iff_get.2 ⟨?_, fun i hi hi' => ?_⟩
  · rw [List.length_zip, List.length_zip, hx s, hy s]
  · simp only [List.get_eq_getElem, List.getElem_zip, mem_pairChildren_iff]
    exact ⟨⟨s, i, List.getElem?_eq_getElem _, List.getElem?_eq_getElem _⟩,
      ⟨s, i, List.getElem?_eq_getElem _, List.getElem?_eq_getElem _⟩⟩

/-- Between two children in one place there is a third one in slots of the same sizes. -/
lemma SameSizes.exists_between {xs ys zs : List (List Nat)} (h : SameSizes xs ys)
    {p : Nat × Nat} (hp : p ∈ pairChildren xs zs) :
    ∃ y, (p.1, y) ∈ pairChildren xs ys ∧ (y, p.2) ∈ pairChildren ys zs := by
  obtain ⟨s, i, hx, hz⟩ := mem_pairChildren_iff.1 hp
  have hi : i < (ys.getD s []).length := h s ▸ (List.getElem?_eq_some_iff.1 hx).1
  have hy := List.getElem?_eq_getElem hi
  exact ⟨(ys.getD s [])[i], mem_pairChildren_iff.2 ⟨s, i, hx, hy⟩,
    mem_pairChildren_iff.2 ⟨s, i, hy, hz⟩⟩

/-! ### Slots with one content -/

section

variable {β : Type} {f g : Nat → β} {xs ys : List (List Nat)}

lemma getD_map_map (f : Nat → β) (xs : List (List Nat)) (s : Nat) :
    (xs.map (List.map f)).getD s [] = (xs.getD s []).map f := List.getD_map xs [] (List.map f)

lemma SameSizes.of_map_eq (h : xs.map (List.map f) = ys.map (List.map g)) :
    SameSizes xs ys := by
  intro s
  have hs := congrArg List.length (congrArg (fun zs => zs.getD s []) h)
  rwa [getD_map_map, getD_map_map, List.length_map, List.length_map] at hs

lemma eq_of_mem_pairChildren (h : xs.map (List.map f) = ys.map (List.map g)) {p : Nat × Nat}
    (hp : p ∈ pairChildren xs ys) : f p.1 = g p.2 := by
  obtain ⟨s, i, hx, hy⟩ := mem_pairChildren_iff.1 hp
  have hs := congrArg (fun zs : List β => zs[i]?) (congrArg (fun zs => zs.getD s []) h)
  simpa only [getD_map_map, List.getElem?_map, hx, hy, Option.map_some, Option.some.injEq]
    using hs

end

/-! ### Children with the numbers of their slots -/

section

variable {β γ : Type}

/-- All children, slot after slot, each behind the number of its slot. -/
def placed (xs : List (List β)) : List (Nat × β) :=
  xs.zipIdx.flatMap fun e => e.1.map fun c => (e.2, c)

lemma map_snd_placed (xs : List (List β)) : (placed xs).map (·.2) = xs.flatten := by
  have hblock : ∀ e : List β × Nat, (e.1.map fun c => (e.2, c)).map (·.2) = e.1 := by
    intro e
    rw [List.map_map]
    exact List.map_id _
  rw [placed, List.map_flatMap]
  simp only [hblock]
  rw [List.flatMap_def, List.zipIdx_map_fst]

lemma placed_map (f : β → γ) (xs : List (List β)) :
    placed (xs.map (List.map f)) = (placed xs).map (Prod.map id f) := by
  rw [placed, placed, List.zipIdx_map, List.flatMap_map, List.map_flatMap]
  simp only [Prod.map_fst, Prod.map_snd, id_eq, List.map_map, Function.comp_def, Prod.map_apply]

/-- What is done with the children slot by slot is done with them one after the other. -/
lemma foldlM_placed {σ : Type} {m : Type → Type} [Monad m] [LawfulMonad m]
    (f : σ → Nat × β → m σ) (xs : List (List β)) (st : σ) :
    xs.zipIdx.foldlM (fun st e => e.1.foldlM (fun st c => f st (e.2, c)) st) st =
      (placed xs).foldlM f st := by
  rw [placed]
  generalize xs.zipIdx = es
  induction es generalizing st with
  | nil => rfl
  | cons e es ih =>
    rw [List.foldlM_cons, List.flatMap_cons, List.foldlM_append, List.foldlM_map]
    exact bind_congr fun st' => ih st'

lemma lt_length_of_mem_placed {xs : List (List β)} {e : Nat × β} (h : e ∈ placed xs) :
    e.1 < xs.length := by
  obtain ⟨⟨cs, s⟩, hs, he⟩ := List.mem_flatMap.1 h
  obtain ⟨c, -, rfl⟩ := List.mem_map.1 he
  have hget := List.mk_mem_zipIdx_iff_getElem?.1 hs
  exact (List.getElem?_eq_some_iff.1 hget).1

lemma snd_mem_of_mem_placed {xs : List (List β)} {e : Nat × β} (h : e ∈ placed xs) :
    e.2 ∈ xs.flatten := by
  rw [← map_snd_placed]
  exact List.mem_map_of_mem h

/-- The slots with a further child in one of them. -/
def pushChild (xs : List (List β)) (e : Nat × β) : List (List β) :=
  xs.modify e.1 (· ++ [e.2])

lemma map_pushChild (f : β → γ) (xs : List (List β)) (s : Nat) (c : β) :
    (pushChild xs (s, c)).map (List.map f) = pushChild (xs.map (List.map f)) (s, f c) := by
  apply List.ext_getElem?
  intro i
  rw [pushChild, pushChild, List.getElem?_map, List.getElem?_modify, List.getElem?_modify,
    List.getElem?_map]
  cases xs[i]? with
  | none => rfl
  | some cs =>
    by_cases hsi : s = i
    · simp [hsi]
    · simp [hsi]

lemma foldl_pushChild_slot (cs : List β) (s : Nat) (xs : List (List β)) :
    (cs.map fun c => (s, c)).foldl pushChild xs = xs.modify s (· ++ cs) := by
  induction cs generalizing xs with
  | nil =>
    simp only [List.map_nil, List.foldl_nil, List.append_nil]
    exact (List.modify_id s xs).symm
  | cons c cs ih =>
    rw [List.map_cons, List.foldl_cons, ih, pushChild, List.modify_modify_eq]
    simp [Function.comp_def]

lemma modify_length_append (ys zs : List β) (y : β) (g : β → β) :
    (ys ++ y :: zs).modify ys.length g = ys ++ g y :: zs := by
  induction ys with
  | nil => rfl
  | cons x ys ih => simpa using ih

/-- Put in one after the other, the children fill their slots. -/
theorem foldl_pushChild_placed (xs : List (List β)) :
    (placed xs).foldl pushChild (List.replicate xs.length []) = xs := by
  -- `ys` are the slots that are full already
  have key : ∀ xs ys : List (List β),
      ((xs.zipIdx ys.length).flatMap fun e => e.1.map fun c => (e.2, c)).foldl pushChild
        (ys ++ List.replicate xs.length []) = ys ++ xs := by
    intro xs
    induction xs with
    | nil => simp
    | cons cs xs ih =>
      intro ys
      have hnext := ih (ys ++ [cs])
      rw [List.length_append, List.length_singleton, List.append_assoc, List.append_assoc]
        at hnext
      rw [List.zipIdx_cons, List.flatMap_cons, List.foldl_append, foldl_pushChild_slot,
        List.length_cons, List.replicate_succ, modify_length_append]
      exact hnext
  exact key xs []

end

end TreeGrammar
