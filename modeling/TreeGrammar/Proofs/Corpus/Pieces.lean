/-
# The pieces of a treebank

Copies grow where they should: a node on the stack has a copy with as many slots, and no copy
gets more nodes than the tree has.  So cutting a treebank apart never fails
(`Treebank.strictPieces_eq`), and tree after tree it yields the components of what is left
when all rare nodes lose their children (`Treebank.pieces_dissect`).
-/
import TreeGrammar.Corpus.Strict
import TreeGrammar.Proofs.Tree.Dissection

namespace TreeGrammar

namespace Tree

variable {α : Type} {t copy : Tree α} {last : Nat}

/-! ### Room for copies -/

lemma weight_eq_subtreeSize (t : Tree α) (v : Nat) : t.weight v = t.subtreeSize v := by
  induction v using t.induction_children with
  | node v ih =>
    have hforest : ∀ vs : List Nat, t.forestWeight vs = (vs.map t.weight).sum := by
      intro vs
      induction vs with
      | nil => rfl
      | cons v vs ihvs => rw [forestWeight_cons, ihvs, List.map_cons, List.sum_cons]
    rw [weight_eq, subtreeSize_eq, hforest, List.map_congr_left ih]

lemma weight_le_size {v : Nat} (h : v < t.size) : t.weight v ≤ t.size := by
  have hlength := (below_root h).isInfix_preorder.length_le
  have hplan := t.plan_perm_ids.length_eq
  rw [ids, List.length_range, plan] at hplan
  rw [weight_eq_subtreeSize, subtreeSize]
  omega

lemma length_le_forestWeight (t : Tree α) (vs : List Nat) :
    vs.length ≤ t.forestWeight vs := by
  induction vs with
  | nil => exact Nat.zero_le _
  | cons v vs ih =>
    have := t.weight_eq v
    rw [forestWeight_cons, List.length_cons]
    omega

/-! ### Growing copies -/

lemma addChildUpTo_eq {p s : Nat} (hs : s < t.slotCount p) (hsize : t.size ≤ last) (label : α)
    (k : Nat) :
    t.addChildUpTo last p s label k = .ok (t.size, t.attach p s (single label k)) := by
  rw [addChildUpTo, addChild, graft_of_lt hs, mapError_ok, ok_bind, if_pos hsize]
  rfl

/-- A tree that gets another node has the slot for it. -/
lemma attach_of_addChildUpTo {p s k : Nat} {label : α} {grown : Nat × Tree α}
    (h : t.addChildUpTo last p s label k = .ok grown) :
    s < t.slotCount p ∧ grown = (t.size, t.attach p s (single label k)) := by
  by_cases hs : s < t.slotCount p
  · rw [addChildUpTo, addChild, graft_of_lt hs, mapError_ok, ok_bind] at h
    split at h
    case isTrue =>
      cases h
      exact ⟨hs, rfl⟩
    case isFalse => cases h
  · obtain ⟨e, he⟩ := graft_of_not_lt (u := single label k) hs
    rw [addChildUpTo, addChild, he, mapError_error, error_bind] at h
    cases h

lemma strictHang_eq {dst s c : Nat} (hc : c < t.size) (hs : s < copy.slotCount dst)
    (hsize : copy.size ≤ last) (todo : List (Nat × Nat)) :
    t.strictHang last dst s (copy, todo) c =
      .ok (t.attachPlaced dst copy (s, c), (c, copy.size) :: todo) := by
  rw [strictHang, t.guard_of_lt hc, ok_bind, addChildUpTo_eq hs hsize]
  rfl

lemma foldlM_strictHang_eq {dst : Nat} {es : List (Nat × Nat)}
    (hes : ∀ e ∈ es, e.1 < copy.slotCount dst ∧ e.2 < t.size)
    (hroom : copy.size + es.length ≤ last + 1) (todo : List (Nat × Nat)) :
    es.foldlM (fun st e => t.strictHang last dst e.1 st e.2) (copy, todo) =
      .ok (es.foldl (t.attachPlaced dst) copy,
        ((es.map (·.2)).zipIdx copy.size).reverse ++ todo) := by
  induction es generalizing copy todo with
  | nil => rfl
  | cons e es ih =>
    obtain ⟨s, c⟩ := e
    obtain ⟨⟨hs, hc⟩, hes⟩ := List.forall_mem_cons.1 hes
    rw [List.length_cons] at hroom
    have hcount : (t.attachPlaced dst copy (s, c)).slotCount dst = copy.slotCount dst :=
      slotCount_attach_of_lt hs (lt_size_of_lt_slotCount hs)
    have hsize : (t.attachPlaced dst copy (s, c)).size = copy.size + 1 := size_attach_single hs
    have hrest : (t.attachPlaced dst copy (s, c)).size + es.length ≤ last + 1 := by omega
    rw [List.foldlM_cons, strictHang_eq hc hs (by omega), ok_bind, ih (by rwa [hcount]) hrest,
      hsize]
    simp

variable {stop : Nat → Bool} {strictStop : Nat → Strict GrowthError Bool} {names : List Nat}
  {todo : List (Nat × Nat)}

lemma Copying.size_attachChildren {src dst : Nat}
    (h : Copying t stop ((src, dst) :: todo) copy names) (hsrc : stop src = false) :
    (t.attachChildren src copy dst).size = copy.size + (t.children src).length := by
  rw [← (h.expand hsrc).named.length_eq, List.length_append, h.named.length_eq]

/-- The children of a node on the stack are hung where they belong, if there is room. -/
lemma Copying.strictHangAll_eq {src dst : Nat}
    (h : Copying t stop ((src, dst) :: todo) copy names)
    (hroom : copy.size + (t.children src).length ≤ last + 1) :
    t.strictHangAll last src dst (copy, todo) =
      .ok (t.attachChildren src copy dst,
        ((t.children src).zipIdx copy.size).reverse ++ todo) := by
  have hplaced : (placed (t.slots src)).length = (t.children src).length := by
    rw [children_eq_flatten, ← map_snd_placed, List.length_map]
  have hslots : ∀ e ∈ placed (t.slots src), e.1 < copy.slotCount dst ∧ e.2 < t.size := by
    intro e he
    rw [h.slotCount_eq List.mem_cons_self]
    exact ⟨lt_length_of_mem_placed he, t.child_lt_size (snd_mem_of_mem_placed he)⟩
  rw [strictHangAll,
    foldlM_placed (fun st e => t.strictHang last dst e.1 st e.2) (t.slots src),
    foldlM_strictHang_eq hslots (by omega), ← attachChildren_eq, map_snd_placed]
  rfl

/-- A copy grows as long as it has to.  Nodes on the stack have got their positions already, and
there have to be positions for what is below them. -/
theorem Copying.strictCopyUntil_eq (h : Copying t stop todo copy names)
    (hstop : ∀ v < t.size, strictStop v = .ok (stop v)) (htodo : ∀ p ∈ todo, p.1 < t.size)
    (hroom : copy.size + t.forestWeight (todo.map (·.1)) ≤ last + 1 + todo.length)
    (cut : List Nat) :
    t.strictCopyUntil last strictStop todo copy cut = .ok (t.copyUntil stop todo copy cut) := by
  fun_induction Tree.copyUntil t stop todo copy cut generalizing names with
  | case1 copy cut => rw [strictCopyUntil]
  | case2 src dst todo copy cut hsrc ih =>
    obtain ⟨hlt, htodo⟩ := List.forall_mem_cons.1 htodo
    have hweight := t.weight_eq src
    simp only [List.map_cons, forestWeight_cons, List.length_cons] at hroom
    rw [strictCopyUntil_of_stop (by rw [hstop src hlt, hsrc])]
    exact ih (h.skip hsrc) htodo (by omega)
  | case3 src dst todo copy cut hsrc children =>
    rename_i ih
    have hsrc : stop src = false := by simpa using hsrc
    obtain ⟨hlt, htodo⟩ := List.forall_mem_cons.1 htodo
    have hweight := t.weight_eq src
    have hchildren := t.length_le_forestWeight (t.children src)
    have hrest := t.length_le_forestWeight (todo.map (·.1))
    rw [List.length_map] at hrest
    simp only [List.map_cons, forestWeight_cons, List.length_cons] at hroom
    have hnext : ∀ p ∈ children.reverse ++ todo, p.1 < t.size := by
      intro p hp
      rcases List.mem_append.1 hp with hp | hp
      · exact t.child_lt_size (List.fst_mem_of_mem_zipIdx (List.mem_reverse.1 hp))
      · exact htodo p hp
    rw [strictCopyUntil_of_not_stop (by rw [hstop src hlt, hsrc]), h.strictHangAll_eq (by omega),
      ok_bind]
    refine ih (h.expand hsrc) hnext ?_
    simp only [children, h.size_attachChildren hsrc, List.map_append, List.map_reverse,
      List.zipIdx_map_fst, forestWeight_append, forestWeight_reverse, List.length_append,
      List.length_reverse, List.length_zipIdx]
    omega

/-! ### Pieces -/

section

variable (hstop : ∀ v < t.size, strictStop v = .ok (stop v)) (hsize : t.size ≤ last + 1)
include hstop hsize

lemma strictPrune_eq {v : Nat} (hv : v < t.size) :
    t.strictPrune last strictStop v = .ok (t.prune stop v) := by
  have hroom : (single (t.label v) (t.slotCount v)).size + t.forestWeight [v] ≤ last + 1 + 1 := by
    have := weight_le_size hv
    have hone : (single (t.label v) (t.slotCount v)).size = 1 := rfl
    rw [hone, forestWeight_cons, forestWeight_nil]
    omega
  rw [strictPrune, t.guard_of_lt hv, ok_bind,
    (copying_start t stop v).strictCopyUntil_eq hstop (by simpa using hv) hroom]
  rfl

lemma strictSplitFrom_eq (queue : List Nat) (hqueue : ∀ v ∈ queue, v < t.size)
    (out : List (Tree α)) :
    t.strictSplitFrom last strictStop queue out = .ok (t.splitFrom stop queue out) := by
  fun_induction Tree.splitFrom t stop queue out with
  | case1 out => rw [strictSplitFrom]
  | case2 v queue out p ih =>
    obtain ⟨hv, hqueue⟩ := List.forall_mem_cons.1 hqueue
    have hnext : ∀ w ∈ queue ++ p.2, w < t.size := by
      intro w hw
      rcases List.mem_append.1 hw with hw | hw
      · exact hqueue w hw
      · exact lt_size_of_mem_cutOff (t.prune_snd stop v ▸ hw)
    rw [strictSplitFrom_cons, strictPrune_eq hstop hsize hv, ok_bind]
    exact ih hnext

end

end Tree

namespace Treebank

variable {α : Type} [BEq α] [Hashable α]

lemma trees_ofList (ts : List (Tree α)) : (ofList ts).trees.toList = ts := by
  have key : ∀ (ts : List (Tree α)) (b : Treebank α),
      (ts.foldl add b).trees.toList = b.trees.toList ++ ts := by
    intro ts
    induction ts with
    | nil => intro b; simp
    | cons t ts ih => intro b; rw [List.foldl_cons, ih]; simp [add]
  exact key ts empty

lemma pieces_ofList (ts : List (Tree α)) (limit : Nat) :
    (ofList ts).pieces limit = ts.flatMap fun t => t.split ((ofList ts).isRare limit t) := by
  rw [pieces, trees_ofList]

/-- Cutting a treebank apart never fails, if no tree has more nodes than there are positions. -/
theorem strictPieces_eq {last : Nat} (b : Treebank α) (limit : Nat)
    (h : ∀ t ∈ b.trees.toList, t.size ≤ last + 1) :
    b.strictPieces last limit = .ok (b.pieces limit) := by
  have hsplit : ∀ t ∈ b.trees.toList, t.strictSplit last (b.strictIsRare limit t) =
      .ok (t.split (b.isRare limit t)) := fun t ht =>
    Tree.strictSplitFrom_eq (fun v hv => b.strictIsRare_eq limit t hv) (h t ht) _
      (by simpa using t.root_lt_size) []
  rw [strictPieces, pieces]
  generalize b.trees.toList = ts at hsplit
  have hgroups : ts.mapM (fun t => t.strictSplit last (b.strictIsRare limit t)) =
      .ok (ts.map fun t => t.split (b.isRare limit t)) := by
    induction ts with
    | nil => rfl
    | cons t ts ih =>
      obtain ⟨ht, hts⟩ := List.forall_mem_cons.1 hsplit
      rw [List.mapM_cons, ht, ih hts]
      rfl
  rw [hgroups, List.flatMap_def]
  rfl

/-- Tree after tree, the pieces of a treebank are copies of the components of what is left
when all rare nodes lose their children. -/
theorem pieces_dissect {last : Nat} (ts : List (Tree α)) (limit : Nat)
    (h : ∀ t ∈ ts, t.size ≤ last + 1) :
    (ofList ts).strictPieces last limit = .ok ((ofList ts).pieces limit) ∧
      ∃ ds : List (Tree.Dissection α),
        List.Forall₂ (fun t d => t.Dissects ((ofList ts).isRare limit t) d) ts ds ∧
          (ofList ts).pieces limit = ds.flatMap Tree.Dissection.pieces := by
  refine ⟨strictPieces_eq _ limit (by rwa [trees_ofList]),
    ts.map fun t => t.dissection ((ofList ts).isRare limit t), ?_, ?_⟩
  · rw [List.forall₂_map_right_iff, List.forall₂_same]
    exact fun t _ => t.dissects_dissection _
  · rw [pieces_ofList, List.flatMap_map]
    simp only [Tree.split_eq_pieces]

/-- The trees `1 (2 (3))` and `1 (2)`. -/
def chains : List (Tree Nat) :=
  [.ofSubtrees 1 [[.ofSubtrees 2 [[.leaf 3]]]], .ofSubtrees 1 [[.leaf 2]]]

/-- Under the limit 2 the longer chain is cut below its second node. -/
theorem pieces_dissect_chains :
    (∀ t ∈ chains, t.size ≤ 4294967295 + 1) ∧
      (ofList chains).strictPieces 4294967295 2 = .ok ((ofList chains).pieces 2) ∧
      ∃ ds : List (Tree.Dissection Nat),
        List.Forall₂ (fun t d => t.Dissects ((ofList chains).isRare 2 t) d) chains ds ∧
          (ofList chains).pieces 2 = ds.flatMap Tree.Dissection.pieces :=
  ⟨by decide +kernel, pieces_dissect chains 2 (by decide +kernel)⟩

end Treebank

end TreeGrammar
