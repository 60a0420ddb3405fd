/-
# Counts of productions

A treebank counts what it should: the inner nodes of its trees that have a production equal to
the one asked for (`Treebank.count_ofList`).  Cutting the trees apart takes the production from
no inner node but the rare ones, and so leaves a production as often as it was, or not at all
(`Treebank.occurrences_pieces`).
-/
import TreeGrammar.Proofs.Corpus.Pieces
import TreeGrammar.Proofs.Equivalence

namespace TreeGrammar

namespace Tree

variable {α : Type} {t : Tree α}

/-- The productions of the inner nodes. -/
def productions (t : Tree α) : List (Production α) :=
  (t.plan.filter fun v => !t.isLeaf v).map t.production

lemma productions_perm_ids (t : Tree α) :
    t.productions.Perm ((t.ids.filter fun v => !t.isLeaf v).map t.production) :=
  (t.plan_perm_ids.filter _).map _

lemma mem_productions_iff {q : Production α} :
    q ∈ t.productions ↔ ∃ v < t.size, t.isLeaf v = false ∧ t.production v = q := by
  rw [t.productions_perm_ids.mem_iff]
  simp [ids, and_assoc]

lemma productions_of_isLeaf_root (h : t.isLeaf root = true) : t.productions = [] := by
  rw [productions, plan, preorder_eq, (t.isLeaf_iff root).1 h]
  simp [h]

/-- A copy has the productions of those inner nodes that kept their children. -/
lemma IsCopy.productions_perm {stop : Nat → Bool} {r : Nat} {p : Tree α} {source : Nat → Nat}
    (h : IsCopy t stop r p source) (hr : t.IsTop stop r) :
    p.productions.Perm
      (((t.component stop r).filter fun v => !t.isLeaf v && !stop v).map t.production) := by
  have hinner : ∀ i ∈ p.ids, (!p.isLeaf i) = (!t.isLeaf (source i) && !stop (source i)) := by
    intro i hi
    rw [Bool.eq_iff_iff, Bool.not_eq_true', h.isLeaf_eq_false_iff (List.mem_range.1 hi)]
    simp [and_comm]
  calc p.productions.Perm ((p.ids.filter fun i => !p.isLeaf i).map p.production) :=
        p.productions_perm_ids
    List.Perm _ (((p.ids.map source).filter fun v => !t.isLeaf v && !stop v).map t.production) := by
        rw [List.filter_congr hinner, List.filter_map, List.map_map]
        refine List.Perm.of_eq (List.map_congr_left fun i hi => ?_)
        obtain ⟨hi, hkept⟩ := List.mem_filter.1 hi
        have hstop := (Bool.and_eq_true_iff.1 hkept).2
        exact h.production_eq (List.mem_range.1 hi) (by simpa using hstop)
    List.Perm _ _ := ((h.ids_perm hr).filter _).map _

/-- The pieces of a tree have the productions of those inner nodes that keep their children. -/
theorem flatMap_productions_split_perm (t : Tree α) (stop : Nat → Bool) :
    ((t.split stop).flatMap productions).Perm
      ((t.plan.filter fun v => !t.isLeaf v && !stop v).map t.production) := by
  have hdropped : ∀ p ∈ (t.roots stop).map fun r => (t.prune stop r).1,
      (!p.isLeaf root) = false → p.productions = [] :=
    fun p _ hp => productions_of_isLeaf_root (by simpa using hp)
  rw [split_eq, flatMap_filter_of_eq_nil hdropped, List.flatMap_map]
  refine (List.Perm.flatMap_left _ fun r hr =>
    (isCopy_of_mem_roots hr).productions_perm (isTop_of_mem_roots hr)).trans ?_
  rw [← List.map_flatMap, ← List.filter_flatMap]
  exact ((t.flatMap_component_roots_perm stop).filter _).map _

end Tree

namespace Treebank

variable {α : Type} [BEq α]

/-- The number of inner nodes that have a production equal to `q`. -/
def occurrences (ts : List (Tree α)) (q : Production α) : Nat :=
  (ts.flatMap Tree.productions).countP (· == q)

variable [Hashable α] [EquivBEq α] [LawfulHashable α]

/-- One more occurrence of a production. -/
def tally (counts : Std.HashMap (Production α) Nat) (p : Production α) :
    Std.HashMap (Production α) Nat :=
  counts.insert p (counts.getD p 0 + 1)

omit [EquivBEq α] [LawfulHashable α] in
lemma countTree_eq (counts : Std.HashMap (Production α) Nat) (t : Tree α) :
    countTree counts t = t.productions.foldl tally counts := by
  rw [Tree.productions, List.foldl_map]
  rfl

lemma getD_foldl_tally (ps : List (Production α)) (counts : Std.HashMap (Production α) Nat)
    (q : Production α) :
    (ps.foldl tally counts).getD q 0 = counts.getD q 0 + ps.countP (· == q) := by
  induction ps generalizing counts with
  | nil => rfl
  | cons p ps ih =>
    rw [List.foldl_cons, ih, tally, Std.HashMap.getD_insert, List.countP_cons]
    split
    case isTrue hpq =>
      rw [Std.HashMap.getD_congr hpq]
      omega
    case isFalse => rfl

omit [EquivBEq α] [LawfulHashable α] in
/-- The productions of the inner nodes are counted tree after tree. -/
lemma counts_ofList (ts : List (Tree α)) :
    (ofList ts).counts = (ts.flatMap Tree.productions).foldl tally ∅ := by
  have key : ∀ (ts : List (Tree α)) (b : Treebank α),
      (ts.foldl add b).counts = (ts.flatMap Tree.productions).foldl tally b.counts := by
    intro ts
    induction ts with
    | nil => intro b; rfl
    | cons t ts ih =>
      intro b
      rw [List.foldl_cons, ih, add, countTree_eq, List.flatMap_cons, List.foldl_append]
  exact key ts empty

lemma getD_counts_ofList (ts : List (Tree α)) (q : Production α) :
    (ofList ts).counts.getD q 0 = occurrences ts q := by
  rw [counts_ofList, getD_foldl_tally, Std.HashMap.getD_empty, Nat.zero_add, occurrences]

/-- A treebank counts the inner nodes with the same production. -/
theorem count_ofList (ts : List (Tree α)) (t : Tree α) (v : Nat) :
    (ofList ts).count t v = occurrences ts (t.production v) :=
  getD_counts_ofList ts (t.production v)

lemma isRare_ofList (ts : List (Tree α)) (limit : Nat) (t : Tree α) (v : Nat) :
    (ofList ts).isRare limit t v =
      (!t.isLeaf v && decide (occurrences ts (t.production v) < limit)) := by
  rw [isRare, count_ofList]

/-- A tree is cut apart where the production of an inner node occurs too few times. -/
lemma pieces_ofList_eq (ts : List (Tree α)) (limit : Nat) :
    (ofList ts).pieces limit = ts.flatMap fun t =>
      t.split fun v => !t.isLeaf v && decide (occurrences ts (t.production v) < limit) := by
  rw [pieces_ofList]
  refine List.flatMap_congr fun t _ => ?_
  congr 1
  funext v
  exact isRare_ofList ts limit t v

omit [Hashable α] [LawfulHashable α] in
lemma occurrences_congr (ts : List (Tree α)) {p q : Production α} (h : (p == q) = true) :
    occurrences ts p = occurrences ts q := by
  refine List.countP_congr fun x _ => ?_
  exact ⟨fun hx => BEq.trans hx h, fun hx => BEq.trans hx (BEq.symm h)⟩

/-- The pieces have those productions of the trees that are frequent enough. -/
theorem flatMap_productions_pieces_perm (ts : List (Tree α)) (limit : Nat) :
    (((ofList ts).pieces limit).flatMap Tree.productions).Perm
      ((ts.flatMap Tree.productions).filter fun p => decide (limit ≤ occurrences ts p)) := by
  rw [pieces_ofList_eq, List.flatMap_assoc, List.filter_flatMap]
  refine List.Perm.flatMap_left _ fun t _ => (t.flatMap_productions_split_perm _).trans ?_
  rw [Tree.productions, List.filter_map, List.filter_filter]
  refine List.Perm.of_eq (congrArg (List.map _) (List.filter_congr fun v _ => ?_))
  by_cases hlimit : limit ≤ occurrences ts (t.production v)
  · simp [hlimit]
  · cases t.isLeaf v <;> simp [hlimit, Nat.lt_of_not_le hlimit]

/-- Cutting leaves a production as often as it was, or not at all. -/
theorem occurrences_pieces (ts : List (Tree α)) (limit : Nat) (q : Production α) :
    occurrences ((ofList ts).pieces limit) q =
      if occurrences ts q < limit then 0 else occurrences ts q := by
  have hkept := flatMap_productions_pieces_perm ts limit
  rw [occurrences, hkept.countP_eq, List.countP_filter]
  split
  case isTrue hrare =>
    rw [List.countP_eq_zero]
    intro p _ hp
    obtain ⟨hpq, hlimit⟩ := Bool.and_eq_true_iff.1 hp
    rw [occurrences_congr ts hpq, decide_eq_true_iff] at hlimit
    omega
  case isFalse hfrequent =>
    refine List.countP_congr fun p _ => ?_
    rw [Bool.and_eq_true_iff, decide_eq_true_iff]
    refine ⟨And.left, fun hpq => ⟨hpq, ?_⟩⟩
    rw [occurrences_congr ts hpq]
    omega

end Treebank

end TreeGrammar
