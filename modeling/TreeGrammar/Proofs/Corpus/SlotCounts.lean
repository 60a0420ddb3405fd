/-
# Treebanks of equal trees

Equality of trees does not count empty slots at the end, but a treebank counts productions, and
these tell how many slots their nodes have.  So treebanks of trees that are equal one by one need
not have the same counts, nor the same pieces (`counts_tell_slots`).  They do if inner nodes in
the same place have as many slots (`Tree.SlotsAgree`): then the productions of inner nodes are
equal one by one, equal productions occur as often in one treebank as in the other
(`occurrences_eq_of_slotsAgree`), and so the trees lose their children at the same places.
-/
import TreeGrammar.Proofs.Corpus.Agreement
import TreeGrammar.Proofs.Corpus.Counts
import TreeGrammar.Proofs.Match.Interchange
import TreeGrammar.Proofs.Tree.Parallel

namespace TreeGrammar

variable {α : Type} [BEq α]

lemma Production.beq_of_parts {p q : Production α} (hlabel : (p.label == q.label) = true)
    (hslots : (p.slots == q.slots) = true) : (p == q) = true := by
  cases p
  cases q
  exact (Bool.and_eq_true _ _).mpr ⟨hlabel, hslots⟩

namespace Tree

/-- The trees are equal, and inner nodes in the same place have as many slots. -/
structure SlotsAgree (t u : Tree α) : Prop where
  beq : (t == u) = true
  slotCount_eq : ∀ v w, Matcher.Faces t u root v w → t.isLeaf v = false →
    t.slotCount v = u.slotCount w

variable {t u : Tree α}

lemma slotsAgree_iff :
    SlotsAgree t u ↔ (t == u) = true ∧ ∀ p ∈ Matcher.facing t u (root, root),
      t.isLeaf p.1 = false → t.slotCount p.1 = u.slotCount p.2 := by
  constructor
  · rintro ⟨hbeq, hcount⟩
    exact ⟨hbeq, fun p hp => hcount p.1 p.2 (Matcher.mem_facing_iff.1 hp)⟩
  · rintro ⟨hbeq, hcount⟩
    exact ⟨hbeq, fun v w hvw => hcount (v, w) (Matcher.mem_facing_iff.2 hvw)⟩

instance : Decidable (SlotsAgree t u) := decidable_of_iff _ slotsAgree_iff.symm

namespace SlotsAgree

variable (h : SlotsAgree t u)

include h

lemma parallel : Parallel t u (Matcher.Faces t u root) := parallel_faces (beq_iff_alike.1 h.beq)

lemma label_beq {v w : Nat} (hvw : Matcher.Faces t u root v w) :
    (t.label v == u.label w) = true := ((beq_iff_alike.1 h.beq).of_faces hvw).label

/-- Inner nodes in the same place have equal productions. -/
lemma production_beq {v w : Nat} (hvw : Matcher.Faces t u root v w)
    (hleaf : t.isLeaf v = false) : (t.production v == u.production w) = true := by
  refine Production.beq_of_parts (h.label_beq hvw) ?_
  change ((t.slots v).map (List.map t.label) == (u.slots w).map (List.map u.label)) = true
  simp only [beq_iff_forall₂, List.forall₂_map_left_iff, List.forall₂_map_right_iff]
  exact forall₂_slots_iff.2 ⟨h.slotCount_eq v w hvw hleaf, h.parallel.sameSizes v w hvw,
    fun p hp => h.label_beq (h.parallel.child v w hvw p hp)⟩

lemma forall₂_productions :
    List.Forall₂ (fun p q => (p == q) = true) t.productions u.productions := by
  have hinner : List.Forall₂ (Matcher.Faces t u root)
      ((t.preorder root).filter fun v => !t.isLeaf v)
      ((u.preorder root).filter fun w => !u.isLeaf w) :=
    List.rel_filter (fun v w hvw => by simp only [h.parallel.isLeaf_eq hvw])
      (h.parallel.forall₂_preorder .root)
  refine List.rel_map ?_ (forall₂_mem hinner)
  rintro v w ⟨hv, -, hvw⟩
  exact h.production_beq hvw (by simpa using (List.mem_filter.1 hv).2)

lemma size_eq : t.size = u.size := by
  have hplan := (h.parallel.forall₂_preorder .root).length_eq
  have hsize : ∀ x : Tree α, (x.preorder root).length = x.size := fun x =>
    x.plan_perm_ids.length_eq.trans List.length_range
  rw [← hsize t, ← hsize u, hplan]

end SlotsAgree

end Tree

namespace Treebank

variable {ts us : List (Tree α)} [EquivBEq α]

/-- Equal productions occur as often in one list of trees as in the other. -/
theorem occurrences_eq_of_slotsAgree (h : List.Forall₂ Tree.SlotsAgree ts us)
    {p q : Production α} (hpq : (p == q) = true) : occurrences ts p = occurrences us q := by
  have hproductions : List.Forall₂ (fun p q => (p == q) = true)
      (ts.flatMap Tree.productions) (us.flatMap Tree.productions) :=
    List.rel_flatMap h fun _ _ htu => htu.forall₂_productions
  rw [occurrences, occurrences, List.countP_eq_length_filter, List.countP_eq_length_filter]
  refine (List.rel_filter (fun x y hxy => ?_) hproductions).length_eq
  simp only [BEq.congr_left hxy, BEq.congr_right hpq]

variable [Hashable α] [LawfulHashable α]

/-- Trees that are equal one by one and have as many slots at their inner nodes are counted, and
cut apart, in the same way. -/
theorem ofList_congr {last : Nat} (h : List.Forall₂ Tree.SlotsAgree ts us)
    (hsize : ∀ t ∈ ts, t.size ≤ last + 1) :
    (∀ t u, Tree.SlotsAgree t u → ∀ v w, Matcher.Faces t u Tree.root v w →
      t.isLeaf v = false → (ofList ts).count t v = (ofList us).count u w) ∧
    ∀ limit, ∃ ps qs, (ofList ts).strictPieces last limit = .ok ps ∧
      (ofList us).strictPieces last limit = .ok qs ∧
      List.Forall₂ (fun p q => (p == q) = true) ps qs := by
  have hcount : ∀ t u, Tree.SlotsAgree t u → ∀ v w, Matcher.Faces t u Tree.root v w →
      t.isLeaf v = false → occurrences ts (t.production v) = occurrences us (u.production w) :=
    fun t u htu v w hvw hleaf => occurrences_eq_of_slotsAgree h (htu.production_beq hvw hleaf)
  have hsize' : ∀ u ∈ us, u.size ≤ last + 1 :=
    forall_mem_of_forall₂ h (fun _ _ htu ht => htu.size_eq ▸ ht) hsize
  refine ⟨fun t u htu v w hvw hleaf => ?_, fun limit => ⟨(ofList ts).pieces limit,
    (ofList us).pieces limit, strictPieces_eq _ limit (by rwa [trees_ofList]),
    strictPieces_eq _ limit (by rwa [trees_ofList]), ?_⟩⟩
  · rw [count_ofList, count_ofList]
    exact hcount t u htu v w hvw hleaf
  · rw [pieces_ofList_eq, pieces_ofList_eq]
    refine List.rel_flatMap h fun t u htu => ?_
    refine (htu.parallel.forall₂_split ?_ (fun v w => htu.label_beq) .root).imp
      fun p q => Tree.beq_iff_alike.2
    intro v w hvw
    rw [← htu.parallel.isLeaf_eq hvw]
    cases hleaf : t.isLeaf v with
    | true => rfl
    | false => rw [hcount t u htu v w hvw hleaf]

omit [BEq α] [EquivBEq α] [Hashable α] [LawfulHashable α]

/-- The nodes come in another order in the second tree, and its leaves have empty slots. -/
theorem ofList_congr_another_order :
    EquivBEq Nat ∧ LawfulHashable Nat ∧
      List.Forall₂ Tree.SlotsAgree
        [Tree.ofSubtrees 1 [[.ofSubtrees 2 [[.leaf 4]], .leaf 3]]]
        [(Tree.ofSubtrees 1 [[.single 2 1, .single 3 2]]).attach 1 0 (.single 4 1)] ∧
      (∀ t ∈ [Tree.ofSubtrees 1 [[.ofSubtrees 2 [[.leaf 4]], .leaf 3]]],
        t.size ≤ 4294967295 + 1) ∧
      (∀ t u, Tree.SlotsAgree t u → ∀ v w, Matcher.Faces t u Tree.root v w →
        t.isLeaf v = false →
        (ofList [Tree.ofSubtrees 1 [[.ofSubtrees 2 [[.leaf 4]], .leaf 3]]]).count t v =
          (ofList [(Tree.ofSubtrees 1 [[.single 2 1, .single 3 2]]).attach 1 0
            (.single 4 1)]).count u w) ∧
      ∀ limit, ∃ ps qs,
        (ofList [Tree.ofSubtrees 1 [[.ofSubtrees 2 [[.leaf 4]], .leaf 3]]]).strictPieces
          4294967295 limit = .ok ps ∧
        (ofList [(Tree.ofSubtrees 1 [[.single 2 1, .single 3 2]]).attach 1 0
          (.single 4 1)]).strictPieces 4294967295 limit = .ok qs ∧
        List.Forall₂ (fun p q => (p == q) = true) ps qs := by
  have hslots : List.Forall₂ Tree.SlotsAgree
      [Tree.ofSubtrees 1 [[.ofSubtrees 2 [[.leaf 4]], .leaf 3]]]
      [(Tree.ofSubtrees 1 [[.single 2 1, .single 3 2]]).attach 1 0 (.single 4 1)] := by
    decide +kernel
  have hsize : ∀ t ∈ [Tree.ofSubtrees 1 [[.ofSubtrees 2 [[.leaf 4]], .leaf 3]]],
      t.size ≤ 4294967295 + 1 := by
    decide +kernel
  exact ⟨inferInstance, inferInstance, hslots, hsize, ofList_congr hslots hsize⟩

/-- The tree `1 (2)`, with some empty slots at the end. -/
def padded (slots : Nat) : Tree Nat :=
  .ofSubtrees 1 ([.leaf 2] :: List.replicate slots [])

/-- An empty slot at the end makes equal trees differ in what is counted for their roots, and so in
whether these keep their children. -/
theorem counts_tell_slots :
    List.Forall₂ (fun t u => (t == u) = true) [padded 0, padded 0] [padded 0, padded 1] ∧
      (padded 0).isLeaf Tree.root = false ∧
      (ofList [padded 0, padded 0]).count (padded 0) Tree.root = 2 ∧
      (ofList [padded 0, padded 1]).count (padded 0) Tree.root = 1 ∧
      ((ofList [padded 0, padded 0]).pieces 2).length = 2 ∧
      ((ofList [padded 0, padded 1]).pieces 2).length = 0 := by
  refine ⟨by decide +kernel, by decide +kernel, ?_, ?_, ?_, ?_⟩
  · rw [count_ofList]
    decide +kernel
  · rw [count_ofList]
    decide +kernel
  · rw [pieces_ofList_eq]
    decide +kernel
  · rw [pieces_ofList_eq]
    decide +kernel

end Treebank

end TreeGrammar
