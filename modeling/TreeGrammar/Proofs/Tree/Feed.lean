/-
# Trees from their tokens

The tokens of a tree tell it apart from all trees that are not equal to it.  They say for every
node how many children are in each slot up to the last one in use, so that a reader knows
where the tokens of a subtree end: `feedFrom_append_beq_iff` takes a subtree off the front of
a longer sequence.  `beq_iff_sameFeed` follows, and with it that equality of trees is an
equivalence if that of labels is one.
-/
import TreeGrammar.Proofs.Equivalence
import TreeGrammar.Proofs.Tree.Equality
import TreeGrammar.Proofs.Tree.Preorder
import TreeGrammar.Proofs.Tree.UsedSlots

namespace TreeGrammar

namespace Tree

variable {α : Type} [BEq α] {t u : Tree α}

/-! ### Reading tokens -/

lemma counts_append_beq_iff {ms ns : List Nat} (h : ms.length = ns.length)
    (xs ys : List (Token α)) :
    (ms.map .count ++ xs == ns.map .count ++ ys) = true ↔ ms = ns ∧ (xs == ys) = true := by
  induction ms generalizing ns with
  | nil =>
    obtain rfl := List.length_eq_zero_iff.1 h.symm
    simp
  | cons m ms ih =>
    cases ns with
    | nil => simp at h
    | cons n ns =>
      have hcount : ((.count m : Token α) == .count n) = (m == n) := rfl
      have hrest := ih (Nat.succ.inj h)
      simp only [List.map_cons, List.cons_append, List.cons_beq_cons, hcount, Bool.and_eq_true,
        beq_iff_eq, hrest, List.cons.injEq, and_assoc]

/-- The tokens of a node tell where they end. -/
lemma nodeFeed_append_beq_iff {v w : Nat} (xs ys : List (Token α)) :
    (t.nodeFeed v ++ xs == u.nodeFeed w ++ ys) = true ↔
      (t.label v == u.label w) = true ∧ SameSizes (t.slots v) (u.slots w) ∧
        (xs == ys) = true := by
  have hlabel : ((.label (t.label v) : Token α) == .label (u.label w)) =
      (t.label v == u.label w) := rfl
  have hcount : ∀ m n : Nat, ((.count m : Token α) == .count n) = (m == n) := fun _ _ => rfl
  have hmap : ∀ used : List (List Nat),
      used.map (fun cs => (.count cs.length : Token α)) = (used.map List.length).map .count := by
    intro used
    rw [List.map_map]
    rfl
  simp only [nodeFeed, hmap, List.cons_append, List.cons_beq_cons, hlabel, hcount,
    Bool.and_eq_true, beq_iff_eq, ← sizes_eq_iff]
  refine and_congr_right fun _ => ?_
  constructor
  · rintro ⟨hlength, h⟩
    exact (counts_append_beq_iff (by simpa using hlength) xs ys).1 h
  · rintro ⟨hsizes, h⟩
    have hlength := congrArg List.length hsizes
    exact ⟨by simpa using hlength, (counts_append_beq_iff hlength xs ys).2 ⟨hsizes, h⟩⟩

/-- The tokens of the subtree at `v`. -/
def feedFrom (t : Tree α) (v : Nat) : List (Token α) := (t.preorder v).flatMap t.nodeFeed

omit [BEq α] in
lemma feedFrom_eq (t : Tree α) (v : Nat) :
    t.feedFrom v = t.nodeFeed v ++ (t.children v).reverse.flatMap t.feedFrom := by
  rw [feedFrom, preorder_eq, List.flatMap_cons, List.flatMap_assoc]
  rfl

/-- If the tokens of a subtree tell where they end, so do those of several subtrees. -/
lemma flatMap_feedFrom_append_beq_iff (ps : List (Nat × Nat))
    (h : ∀ p ∈ ps, ∀ xs ys, (t.feedFrom p.1 ++ xs == u.feedFrom p.2 ++ ys) = true ↔
      structEq (· == ·) t p.1 u p.2 = true ∧ (xs == ys) = true) (xs ys : List (Token α)) :
    ((ps.map (·.1)).flatMap t.feedFrom ++ xs == (ps.map (·.2)).flatMap u.feedFrom ++ ys) =
        true ↔
      (∀ p ∈ ps, structEq (· == ·) t p.1 u p.2 = true) ∧ (xs == ys) = true := by
  induction ps with
  | nil => simp
  | cons p ps ih =>
    obtain ⟨hp, hps⟩ := List.forall_mem_cons.1 h
    simp only [List.map_cons, List.flatMap_cons, List.append_assoc, hp, ih hps,
      List.forall_mem_cons, and_assoc]

/-- A subtree can be read off the front of a sequence of tokens: what is read is the same when
the subtrees are equal, and the rest is what is behind them. -/
theorem feedFrom_append_beq_iff (t u : Tree α) (v w : Nat) (xs ys : List (Token α)) :
    (t.feedFrom v ++ xs == u.feedFrom w ++ ys) = true ↔
      structEq (· == ·) t v u w = true ∧ (xs == ys) = true := by
  induction v using t.induction_children generalizing w xs ys with
  | node v ih =>
    rw [feedFrom_eq, feedFrom_eq, List.append_assoc, List.append_assoc, nodeFeed_append_beq_iff,
      structEq_iff, and_assoc, and_assoc]
    refine and_congr_right fun _ => and_congr_right fun hsizes => ?_
    -- the children come in pairs, and are read from the last to the first
    have hread := flatMap_feedFrom_append_beq_iff (t := t) (u := u)
      (pairChildren (t.slots v) (u.slots w)).reverse
      (fun p hp => ih p.1 (left_mem_of_mem_pairChildren (List.mem_reverse.1 hp)) p.2) xs ys
    simp only [List.map_reverse, hsizes.map_fst, hsizes.map_snd, List.mem_reverse] at hread
    exact hread

/-- Two subtrees have the same tokens when they are equal. -/
lemma feedFrom_beq_iff (t u : Tree α) (v w : Nat) :
    (t.feedFrom v == u.feedFrom w) = true ↔ structEq (· == ·) t v u w = true := by
  have h := feedFrom_append_beq_iff t u v w [] []
  rw [List.append_nil, List.append_nil] at h
  exact h.trans (and_iff_left rfl)

/-- Trees are equal exactly when they feed the same tokens, whatever the order of their nodes
and the number of empty slots at the end. -/
theorem beq_iff_sameFeed (t u : Tree α) : (t == u) = true ↔ t.sameFeed u = true :=
  (feedFrom_beq_iff t u root root).symm

instance [EquivBEq α] : EquivBEq (Tree α) where
  rfl {t} := (feedFrom_beq_iff t t root root).1 BEq.rfl
  symm {t u} h := (feedFrom_beq_iff u t root root).1
    (BEq.symm ((feedFrom_beq_iff t u root root).2 h))
  trans {t u w} h h' := (feedFrom_beq_iff t w root root).1
    (BEq.trans ((feedFrom_beq_iff t u root root).2 h) ((feedFrom_beq_iff u w root root).2 h'))

end Tree

end TreeGrammar
