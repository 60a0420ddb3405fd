/-
# Orders of a treebank

What a treebank counts for a production are occurrences, node by node in all of its trees
(`Treebank.occurrences_eq_sum`).  A leaf has no production in this sense, for its slots are empty
and those of an inner node are not all so (`Tree.isLeaf_eq_of_production_beq`).  The trees may come
in any order, so that the pieces of one tree do not depend on the place at which it was added
(`Treebank.ofList_perm`).
-/
import TreeGrammar.Proofs.Corpus.Counts
import TreeGrammar.Proofs.Corpus.Agreement

namespace TreeGrammar

variable {α : Type} [BEq α]

/-- Nodes with equal productions are both leaves or both inner nodes. -/
lemma Tree.isLeaf_eq_of_production_beq {t u : Tree α} {v w : Nat}
    (h : (t.production v == u.production w) = true) : t.isLeaf v = u.isLeaf w := by
  have hslots : ((t.slots v).map (List.map t.label) == (u.slots w).map (List.map u.label)) = true :=
    ((Bool.and_eq_true _ _).mp h).2
  simp only [beq_iff_forall₂, List.forall₂_map_left_iff, List.forall₂_map_right_iff] at hslots
  exact isLeaf_eq_of_sameSizes (forall₂_slots_iff.1 hslots).2.1

namespace Treebank

/-- The inner nodes with a production are counted tree by tree. -/
lemma occurrences_eq_sum (ts : List (Tree α)) (q : Production α) :
    occurrences ts q =
      (ts.map fun u => u.ids.countP fun w => u.production w == q && !u.isLeaf w).sum := by
  rw [occurrences, List.countP_flatMap]
  congr 1
  refine List.map_congr_left fun u _ => ?_
  show u.productions.countP (· == q) = _
  rw [u.productions_perm_ids.countP_eq, List.countP_map, List.countP_filter]
  rfl

lemma occurrences_of_isLeaf (ts : List (Tree α)) {t : Tree α} {v : Nat}
    (h : t.isLeaf v = true) : occurrences ts (t.production v) = 0 := by
  rw [occurrences_eq_sum]
  refine List.sum_eq_zero fun n hn => ?_
  obtain ⟨u, -, rfl⟩ := List.mem_map.1 hn
  rw [List.countP_eq_zero]
  intro w _ hw
  obtain ⟨hproduction, hinner⟩ := Bool.and_eq_true_iff.1 hw
  rw [Tree.isLeaf_eq_of_production_beq hproduction, h] at hinner
  cases hinner

lemma occurrences_perm {ts ts' : List (Tree α)} (h : ts.Perm ts') (q : Production α) :
    occurrences ts q = occurrences ts' q :=
  (h.flatMap_right _).countP_eq _

variable [Hashable α]

/-- The pieces of one tree. -/
def group (b : Treebank α) (limit : Nat) (t : Tree α) : List (Tree α) :=
  t.split (b.isRare limit t)

/-- The treebank counts the inner nodes of the trees by their productions. -/
structure CountsOccurrences (b : Treebank α) (ts : List (Tree α)) : Prop where
  count_eq : ∀ (t : Tree α) (v : Nat), b.count t v =
    (ts.map fun u => u.ids.countP fun w => u.production w == t.production v && !u.isLeaf w).sum
  count_leaf : ∀ (t : Tree α) (v : Nat), t.isLeaf v = true → b.count t v = 0

/-- If no tree has more nodes than there are positions the pieces come group by group. -/
lemma strictPieces_ofList {last : Nat} {ts : List (Tree α)} (h : ∀ t ∈ ts, t.size ≤ last + 1)
    (limit : Nat) :
    (ofList ts).strictPieces last limit = .ok (ts.map ((ofList ts).group limit)).flatten := by
  rw [strictPieces_eq _ limit (by rwa [trees_ofList]), pieces_ofList, List.flatMap_def]
  rfl

variable [EquivBEq α] [LawfulHashable α]

lemma countsOccurrences_ofList (ts : List (Tree α)) : (ofList ts).CountsOccurrences ts where
  count_eq t v := by rw [count_ofList, occurrences_eq_sum]
  count_leaf t v h := by rw [count_ofList, occurrences_of_isLeaf ts h]

lemma count_ofList_perm {ts ts' : List (Tree α)} (h : ts.Perm ts') :
    (ofList ts').count = (ofList ts).count := by
  funext t v
  rw [count_ofList, count_ofList, occurrences_perm h]

lemma group_ofList_perm {ts ts' : List (Tree α)} (h : ts.Perm ts') (limit : Nat) :
    (ofList ts').group limit = (ofList ts).group limit := by
  have hrare : (ofList ts').isRare limit = (ofList ts).isRare limit := by
    funext t v
    rw [isRare, isRare, count_ofList_perm h]
  funext t
  rw [group, group, hrare]

/-- A treebank counts occurrences, whatever the order of its trees, and cuts every tree into the
same pieces. -/
theorem ofList_perm (ts : List (Tree α)) :
    (ofList ts).CountsOccurrences ts ∧ ∀ ts', ts.Perm ts' →
      (ofList ts').count = (ofList ts).count ∧
      ∀ last limit, (∀ t ∈ ts, t.size ≤ last + 1) →
        (ofList ts).strictPieces last limit =
          .ok (ts.map ((ofList ts).group limit)).flatten ∧
        (ofList ts').strictPieces last limit =
          .ok (ts'.map ((ofList ts).group limit)).flatten := by
  refine ⟨countsOccurrences_ofList ts, fun ts' hperm => ⟨count_ofList_perm hperm, ?_⟩⟩
  intro last limit hsize
  refine ⟨strictPieces_ofList hsize limit, ?_⟩
  have hsize' : ∀ t ∈ ts', t.size ≤ last + 1 := fun t ht => hsize t (hperm.mem_iff.2 ht)
  rw [strictPieces_ofList hsize' limit, group_ofList_perm hperm]

/-- The two chains may be added in the other order. -/
theorem ofList_perm_chains :
    EquivBEq Nat ∧ LawfulHashable Nat ∧ (ofList chains).CountsOccurrences chains ∧
      chains.Perm chains.reverse ∧ (ofList chains.reverse).count = (ofList chains).count ∧
      (∀ t ∈ chains, t.size ≤ 4294967295 + 1) ∧
      (ofList chains).strictPieces 4294967295 2 =
        .ok (chains.map ((ofList chains).group 2)).flatten ∧
      (ofList chains.reverse).strictPieces 4294967295 2 =
        .ok (chains.reverse.map ((ofList chains).group 2)).flatten := by
  have hsize : ∀ t ∈ chains, t.size ≤ 4294967295 + 1 := by decide +kernel
  have hperm : chains.Perm chains.reverse := chains.reverse_perm.symm
  obtain ⟨hcounts, hother⟩ := ofList_perm chains
  obtain ⟨hcount, hpieces⟩ := hother chains.reverse hperm
  exact ⟨inferInstance, inferInstance, hcounts, hperm, hcount, hsize,
    hpieces 4294967295 2 hsize⟩

end Treebank

end TreeGrammar
