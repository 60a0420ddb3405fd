/-
# Equivalences of labels

Labels may be compared by any equivalence, not only by identity.  The comparisons of lists, of
tokens and of productions member by member are equivalences then, and what is equivalent has
one hash if that is so for labels.
-/
import Mathlib
import TreeGrammar.Corpus.Production
import TreeGrammar.Tree.Feed

namespace TreeGrammar

variable {β : Type}

instance instPartialEquivBEqList [BEq β] [PartialEquivBEq β] : PartialEquivBEq (List β) where
  symm {xs ys} h := by
    induction xs generalizing ys with
    | nil =>
      cases ys with
      | nil => rfl
      | cons y ys => simp at h
    | cons x xs ih =>
      cases ys with
      | nil => simp at h
      | cons y ys =>
        rw [List.cons_beq_cons, Bool.and_eq_true] at h ⊢
        exact ⟨BEq.symm h.1, ih h.2⟩
  trans {xs ys zs} h h' := by
    induction xs generalizing ys zs with
    | nil =>
      cases ys with
      | nil => exact h'
      | cons y ys => simp at h
    | cons x xs ih =>
      cases ys with
      | nil => simp at h
      | cons y ys =>
        cases zs with
        | nil => simp at h'
        | cons z zs =>
          rw [List.cons_beq_cons, Bool.and_eq_true] at h h' ⊢
          exact ⟨BEq.trans h.1 h'.1, ih h.2 h'.2⟩

instance instEquivBEqList [BEq β] [EquivBEq β] : EquivBEq (List β) where

instance instLawfulHashableList [BEq β] [Hashable β] [LawfulHashable β] :
    LawfulHashable (List β) where
  hash_eq xs ys h := by
    have key : ∀ (xs ys : List β) (h : UInt64), (xs == ys) = true →
        xs.foldl (fun h x => mixHash h (hash x)) h =
          ys.foldl (fun h x => mixHash h (hash x)) h := by
      intro xs
      induction xs with
      | nil =>
        intro ys h hxy
        cases ys with
        | nil => rfl
        | cons y ys => simp at hxy
      | cons x xs ih =>
        intro ys h hxy
        cases ys with
        | nil => simp at hxy
        | cons y ys =>
          rw [List.cons_beq_cons, Bool.and_eq_true] at hxy
          rw [List.foldl_cons, List.foldl_cons, hash_eq hxy.1]
          exact ih ys _ hxy.2
    exact key xs ys 7 h

instance [BEq β] [EquivBEq β] : EquivBEq (Production β) where
  symm {p q} h := by
    cases p; cases q
    change (_ && _) = true at h ⊢
    rw [Bool.and_eq_true] at h ⊢
    exact ⟨BEq.symm h.1, BEq.symm h.2⟩
  trans {p q r} h h' := by
    cases p; cases q; cases r
    change (_ && _) = true at h h' ⊢
    rw [Bool.and_eq_true] at h h' ⊢
    exact ⟨BEq.trans h.1 h'.1, BEq.trans h.2 h'.2⟩

instance [BEq β] [Hashable β] [LawfulHashable β] : LawfulHashable (Production β) where
  hash_eq p q h := by
    cases p; cases q
    change (_ && _) = true at h
    rw [Bool.and_eq_true] at h
    change mixHash _ _ = mixHash _ _
    rw [hash_eq h.2]
    congr 2
    exact hash_eq h.1

instance [BEq β] [EquivBEq β] : EquivBEq (Token β) where
  rfl {x} := by
    cases x with
    | label a => exact BEq.refl a
    | count n => exact BEq.refl n
  symm {x y} h := by
    cases x with
    | label a =>
      cases y with
      | label b => exact BEq.symm (α := β) h
      | count n => exact h
    | count m =>
      cases y with
      | label b => exact h
      | count n => exact BEq.symm (α := Nat) h
  trans {x y z} h h' := by
    cases x with
    | label a =>
      cases y with
      | label b =>
        cases z with
        | label c => exact BEq.trans (α := β) h h'
        | count n => cases h'
      | count n => cases h
    | count m =>
      cases y with
      | label b => cases h
      | count n =>
        cases z with
        | label c => cases h'
        | count n => exact BEq.trans (α := Nat) h h'

instance [BEq β] [LawfulBEq β] : LawfulBEq (Token β) where
  eq_of_beq {x y} h := by
    cases x with
    | label a =>
      cases y with
      | label b => exact congrArg Token.label (eq_of_beq (α := β) h)
      | count n => cases h
    | count m =>
      cases y with
      | label b => cases h
      | count n => exact congrArg Token.count (eq_of_beq (α := Nat) h)

instance [BEq β] [Hashable β] [LawfulHashable β] : LawfulHashable (Token β) where
  hash_eq x y h := by
    cases x with
    | label a =>
      cases y with
      | label b =>
        have hab : (a == b) = true := h
        change mixHash _ (hash a) = mixHash _ (hash b)
        rw [hash_eq hab]
      | count n => cases h
    | count m =>
      cases y with
      | label b => cases h
      | count n =>
        have hmn : (m == n) = true := h
        rw [eq_of_beq hmn]

end TreeGrammar
