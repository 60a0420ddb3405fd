/-
# Cutting a treebank apart twice

The pieces of a treebank make a treebank of their own, with its own counts.  An inner node of a
piece is rare in it under a limit exactly if its source is rare in the first treebank under the
greater of the two limits.  So cutting the pieces apart again yields the pieces for the greater
limit, and nothing happens if the second limit is not the greater one (`Treebank.pieces_pieces`).
-/
import TreeGrammar.Proofs.Corpus.Counts
import TreeGrammar.Proofs.Tree.Recutting

namespace TreeGrammar.Treebank

variable {α : Type} [BEq α] [Hashable α] [EquivBEq α] [LawfulHashable α]
variable (ts : List (Tree α)) (l₁ l₂ : Nat) {t p : Tree α} {r : Nat} {source : Nat → Nat}

omit [EquivBEq α] [LawfulHashable α] in
lemma isRare_of_isLeaf (b : Treebank α) (limit : Nat) {v : Nat} (h : t.isLeaf v = true) :
    b.isRare limit t v = false := by
  rw [isRare, h]
  rfl

omit [EquivBEq α] [LawfulHashable α] in
/-- A greater limit makes no fewer nodes rare. -/
lemma isRare_mono {b : Treebank α} {l l' : Nat} (hle : l ≤ l') {v : Nat}
    (h : b.isRare l t v = true) : b.isRare l' t v = true := by
  rw [isRare, Bool.and_eq_true, decide_eq_true_iff] at h ⊢
  exact ⟨h.1, h.2.trans_le hle⟩

variable {ts l₁}

/-- What is counted in the pieces is what was counted in the trees. -/
lemma occurrences_pieces_of_inner {v : Nat} (hleaf : t.isLeaf v = false)
    (hfrequent : (ofList ts).isRare l₁ t v = false) :
    occurrences ((ofList ts).pieces l₁) (t.production v) = occurrences ts (t.production v) ∧
      l₁ ≤ occurrences ts (t.production v) := by
  rw [isRare_ofList, hleaf, Bool.not_false, Bool.true_and, decide_eq_false_iff_not,
    Nat.not_lt] at hfrequent
  rw [occurrences_pieces, if_neg (by omega)]
  exact ⟨rfl, hfrequent⟩

/-- In a piece the rare nodes are the copies of those that are rare under the greater limit. -/
lemma isRare_pieces {i : Nat} (h : Tree.IsCopy t ((ofList ts).isRare l₁ t) r p source)
    (hi : i < p.size) (hleaf : p.isLeaf i = false) :
    (ofList ((ofList ts).pieces l₁)).isRare l₂ p i =
      (ofList ts).isRare (max l₁ l₂) t (source i) := by
  obtain ⟨hfrequent, hleaf'⟩ := (h.isLeaf_eq_false_iff hi).1 hleaf
  obtain ⟨hcount, hle⟩ := occurrences_pieces_of_inner hleaf' hfrequent
  rw [isRare_ofList, isRare_ofList, h.production_eq hi hfrequent, hcount, hleaf, hleaf']
  congr 1
  rw [decide_eq_decide]
  omega

theorem mirrors_pieces (h : Tree.IsCopy t ((ofList ts).isRare l₁ t) r p source) :
    Tree.Mirrors t ((ofList ts).isRare (max l₁ l₂) t) p
      ((ofList ((ofList ts).pieces l₁)).isRare l₂ p) source where
  label_eq := h.label_eq
  slotCount_eq i hi := h.slotCount_eq hi
  cut_or_whole i hi := by
    cases hrare : (ofList ts).isRare l₁ t (source i) with
    | true =>
      have hleaf : p.isLeaf i = true := h.isLeaf_of_stop hi hrare
      exact .inl ⟨(p.isLeaf_iff i).1 hleaf, isRare_of_isLeaf _ l₂ hleaf,
        isRare_mono (Nat.le_max_left l₁ l₂) hrare⟩
    | false =>
      refine .inr ⟨?_, h.slots_eq_of_not_stop hi hrare⟩
      by_cases hleaf : p.isLeaf i = false
      · exact isRare_pieces l₂ h hi hleaf
      · -- a leaf of a piece is a leaf of the tree, unless it was cut
        have hleaf' : t.isLeaf (source i) = true := by
          by_contra hleaf'
          exact hleaf ((h.isLeaf_eq_false_iff hi).2 ⟨hrare, by simpa using hleaf'⟩)
        rw [isRare_of_isLeaf _ l₂ (by simpa using hleaf), isRare_of_isLeaf _ _ hleaf']

variable (ts l₁)

/-- Cut apart again, the pieces for one limit become those for the greater of both limits; they
stay as they are if the second limit is not the greater one. -/
theorem pieces_pieces :
    ((ofList ((ofList ts).pieces l₁)).pieces l₂).Perm ((ofList ts).pieces (max l₁ l₂)) ∧
      (l₂ ≤ l₁ → (ofList ((ofList ts).pieces l₁)).pieces l₂ = (ofList ts).pieces l₁) := by
  -- tree after tree, the pieces are cut at what is rare among all pieces
  have htwice : (ofList ((ofList ts).pieces l₁)).pieces l₂ =
      ts.flatMap fun t => (t.split ((ofList ts).isRare l₁ t)).flatMap fun p =>
        p.split ((ofList ((ofList ts).pieces l₁)).isRare l₂ p) :=
    (pieces_ofList _ l₂).trans
      ((congrArg (List.flatMap _) (pieces_ofList ts l₁)).trans List.flatMap_assoc)
  rw [htwice]
  constructor
  · rw [pieces_ofList ts (max l₁ l₂)]
    refine List.Perm.flatMap_left _ fun t _ => ?_
    exact Tree.split_split_perm (fun v => isRare_mono (Nat.le_max_left l₁ l₂))
      fun r hr => mirrors_pieces l₂ (Tree.isCopy_of_mem_roots hr)
  · intro hle
    refine Eq.trans ?_ (pieces_ofList ts l₁).symm
    refine List.flatMap_congr fun t _ => Tree.split_split_eq ?_ ?_
    · intro r hr
      have hmirrors := mirrors_pieces l₂ (Tree.isCopy_of_mem_roots hr)
      rwa [Nat.max_eq_left hle] at hmirrors
    · intro r hr i hi
      by_cases hleaf : (t.prune ((ofList ts).isRare l₁ t) r).1.isLeaf i = false
      · rw [isRare_pieces l₂ (Tree.isCopy_of_mem_roots hr) hi hleaf, Nat.max_eq_left hle]
        exact (((Tree.isCopy_of_mem_roots hr).isLeaf_eq_false_iff hi).1 hleaf).1
      · exact isRare_of_isLeaf _ l₂ (by simpa using hleaf)

/-- The root of the longer chain stays over its child under either limit. -/
theorem pieces_pieces_chains :
    EquivBEq Nat ∧ LawfulHashable Nat ∧ 1 ≤ 2 ∧
      ((ofList ((ofList chains).pieces 2)).pieces 1).Perm ((ofList chains).pieces 2) ∧
      (ofList ((ofList chains).pieces 2)).pieces 1 = (ofList chains).pieces 2 :=
  ⟨inferInstance, inferInstance, by decide, (pieces_pieces chains 2 1).1,
    (pieces_pieces chains 2 1).2 (by decide)⟩

end TreeGrammar.Treebank
