/-
# Productions that agree

A production tells how many slots its node has, and equality of trees does not.  So the one-level
trees of two nodes are equal exactly if the productions of the nodes agree, that is, if they are
equal but for empty slots at the end (`Tree.oneLevel_beq_oneLevel`).
-/
import TreeGrammar.Corpus.Production
import TreeGrammar.Proofs.Tree.Feed
import TreeGrammar.Proofs.Tree.OneLevel
import TreeGrammar.Proofs.Tree.UsedSlots

namespace TreeGrammar

/-- Whether two productions are equal but for empty slots at the end. -/
def Production.agrees {α : Type} [BEq α] (p q : Production α) : Bool :=
  p.label == q.label && dropTrailingEmpty p.slots == dropTrailingEmpty q.slots

/-! ### Slots in use -/

section

variable {β : Type} [BEq β]

lemma beq_iff_forall₂ {xs ys : List β} :
    (xs == ys) = true ↔ List.Forall₂ (fun x y => (x == y) = true) xs ys := by
  induction xs generalizing ys with
  | nil =>
    cases ys with
    | nil => simp
    | cons y ys => simp
  | cons x xs ih =>
    cases ys with
    | nil => simp
    | cons y ys => simp [ih]

lemma slots_beq_iff_forall₂ {xs ys : List (List β)} :
    (xs == ys) = true ↔ List.Forall₂ (List.Forall₂ fun x y => (x == y) = true) xs ys := by
  simp only [beq_iff_forall₂]

lemma dropTrailingEmpty_beq {xs ys : List (List β)} (h : (xs == ys) = true) :
    (dropTrailingEmpty xs == dropTrailingEmpty ys) = true :=
  slots_beq_iff_forall₂.2 (forall₂_dropTrailingEmpty (slots_beq_iff_forall₂.1 h))

/-- Slots of labels are the same, but for empty ones at the end, if the slots have the same sizes
and pairs of children have the same labels. -/
theorem dropTrailingEmpty_beq_iff {f g : Nat → β} {xs ys : List (List Nat)} :
    (dropTrailingEmpty (xs.map (List.map f)) == dropTrailingEmpty (ys.map (List.map g))) = true ↔
      SameSizes xs ys ∧ ∀ p ∈ pairChildren xs ys, (f p.1 == g p.2) = true :=
  slots_beq_iff_forall₂.trans forall₂_dropTrailingEmpty_iff

end

namespace Production

variable {α : Type} [BEq α] [EquivBEq α] {p p' q : Production α}

lemma agrees_refl (p : Production α) : p.agrees p = true := by
  rw [agrees, BEq.refl, BEq.refl]
  rfl

/-- Equal productions agree with the same ones. -/
lemma agrees_congr_left (h : (p == p') = true) : p.agrees q = p'.agrees q := by
  obtain ⟨hlabel, hslots⟩ : (p.label == p'.label) = true ∧ (p.slots == p'.slots) = true := by
    cases p
    cases p'
    exact (Bool.and_eq_true _ _).mp h
  rw [agrees, agrees, BEq.congr_left hlabel, BEq.congr_left (dropTrailingEmpty_beq hslots)]

end Production

/-! ### Trees of one level -/

/-- The one-level trees of two nodes are equal if the productions of the nodes agree. -/
theorem Tree.oneLevel_beq_oneLevel {α : Type} [BEq α] (t u : Tree α) (v w : Nat) :
    (t.oneLevel v == u.oneLevel w) = (t.production v).agrees (u.production w) := by
  rw [Bool.eq_iff_iff, beq_iff_alike, oneLevel_alike_oneLevel_iff, Production.agrees,
    Bool.and_eq_true]
  exact and_congr_right fun _ => dropTrailingEmpty_beq_iff.symm

end TreeGrammar
