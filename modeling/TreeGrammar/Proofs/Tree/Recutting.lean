/-
# Cutting pieces again

A piece is cut where its tree would be cut if more nodes lost their children.  Then a copy of
a part of the piece is a copy of a part of the tree: how a copy is numbered depends on labels,
slots and the order of children only, so that the two copies are one and the same tree
(`Mirrors.prune_eq`).  And the roots of the parts of all pieces are the roots of the parts of
the tree (`roots_perm`), so that cutting twice yields what cutting once at all the nodes does
(`split_split_perm`).
-/
import TreeGrammar.Proofs.Tree.Dissection

namespace TreeGrammar.Tree

variable {α : Type} {t p : Tree α} {stop again : Nat → Bool} {source : Nat → Nat}

/-- `p` looks like a part of `t`: each of its nodes is like the one to which `source` takes it,
and is in `again` if that one is in `stop`, unless it lost its children already. -/
structure Mirrors (t : Tree α) (stop : Nat → Bool) (p : Tree α) (again : Nat → Bool)
    (source : Nat → Nat) : Prop where
  label_eq : ∀ i < p.size, p.label i = t.label (source i)
  slotCount_eq : ∀ i < p.size, p.slotCount i = t.slotCount (source i)
  cut_or_whole : ∀ i < p.size,
    (p.children i = [] ∧ again i = false ∧ stop (source i) = true) ∨
      (again i = stop (source i) ∧ (p.slots i).map (List.map source) = t.slots (source i))

lemma attachChildren_of_children_eq_nil {i : Nat} (h : t.children i = []) (copy : Tree α)
    (dst : Nat) : t.attachChildren i copy dst = copy := by
  have hplaced : placed (t.slots i) = [] := by
    rw [← List.map_eq_nil_iff, map_snd_placed]
    exact h
  rw [Tree.attachChildren_eq, hplaced]
  rfl

namespace Mirrors

/-! ### The same copies -/

lemma map_children (h : Mirrors t stop p again source) {i : Nat} (hi : i < p.size)
    (hstop : stop (source i) = false) : (p.children i).map source = t.children (source i) := by
  obtain ⟨-, -, hcut⟩ | ⟨-, hslots⟩ := h.cut_or_whole i hi
  · rw [hstop] at hcut
    cases hcut
  · rw [children_eq_flatten, List.map_flatten, hslots]
    rfl

lemma again_eq_false (h : Mirrors t stop p again source) {i : Nat} (hi : i < p.size)
    (hstop : stop (source i) = false) : again i = false := by
  obtain ⟨-, hagain, -⟩ | ⟨hagain, -⟩ := h.cut_or_whole i hi
  · exact hagain
  · rw [hagain, hstop]

lemma attachChildren_eq (h : Mirrors t stop p again source) {i : Nat} (hi : i < p.size)
    (hstop : stop (source i) = false) (copy : Tree α) (dst : Nat) :
    p.attachChildren i copy dst = t.attachChildren (source i) copy dst := by
  obtain ⟨-, -, hcut⟩ | ⟨-, hslots⟩ := h.cut_or_whole i hi
  · rw [hstop] at hcut
    cases hcut
  · rw [Tree.attachChildren_eq, Tree.attachChildren_eq, ← hslots, placed_map, List.foldl_map]
    refine List.foldl_ext _ _ _ fun copy e he => ?_
    have hlt : e.2 < p.size := p.child_lt_size (snd_mem_of_mem_placed he)
    rw [attachPlaced, attachPlaced, Prod.map_snd, ← h.label_eq _ hlt, ← h.slotCount_eq _ hlt]
    rfl

theorem copyUntil_eq (h : Mirrors t stop p again source) (todo : List (Nat × Nat))
    (htodo : ∀ e ∈ todo, e.1 < p.size) (copy : Tree α) (cut cut' : List Nat) :
    (p.copyUntil again todo copy cut).1 =
      (t.copyUntil stop (todo.map (Prod.map source id)) copy cut').1 := by
  fun_induction Tree.copyUntil p again todo copy cut generalizing cut' with
  | case1 copy cut =>
    rw [List.map_nil, copyUntil]
  | case2 src dst todo copy cut hsrc ih =>
    obtain ⟨hlt, htodo⟩ := List.forall_mem_cons.1 htodo
    have hstop : stop (source src) = true := by
      by_contra hstop
      have hagain := h.again_eq_false hlt (by simpa using hstop)
      rw [hsrc] at hagain
      cases hagain
    rw [List.map_cons, Prod.map_apply, copyUntil, if_pos hstop]
    exact ih htodo _
  | case3 src dst todo copy cut hsrc children ih =>
    obtain ⟨hlt, htodo⟩ := List.forall_mem_cons.1 htodo
    rw [List.map_cons, Prod.map_apply, copyUntil]
    by_cases hstop : stop (source src) = true
    · -- the node lost its children before, and has nothing to copy
      have hnil : p.children src = [] := by
        obtain ⟨hnil, -⟩ | ⟨hagain, -⟩ := h.cut_or_whole src hlt
        · exact hnil
        · exact absurd (hagain.trans hstop) hsrc
      rw [if_pos hstop]
      simp only [children, hnil, List.zipIdx_nil, List.reverse_nil, List.nil_append,
        attachChildren_of_children_eq_nil hnil] at ih ⊢
      exact ih htodo _
    · have hstop : stop (source src) = false := by simpa using hstop
      have hnext : ∀ e ∈ children.reverse ++ todo, e.1 < p.size := by
        intro e he
        rcases List.mem_append.1 he with he | he
        · exact p.child_lt_size (List.fst_mem_of_mem_zipIdx (List.mem_reverse.1 he))
        · exact htodo e he
      rw [if_neg (by simp [hstop]), ih hnext cut', h.attachChildren_eq hlt hstop,
        List.map_append, List.map_reverse, List.map_zipIdx, h.map_children hlt hstop]
      rfl

/-- A part of a piece and the part of the tree have one copy. -/
theorem prune_eq (h : Mirrors t stop p again source) {i : Nat} (hi : i < p.size) :
    (p.prune again i).1 = (t.prune stop (source i)).1 := by
  have hcopy := h.copyUntil_eq [(i, root)] (by simpa using hi)
    (single (p.label i) (p.slotCount i)) [] []
  change (p.copyUntil again [(i, root)] (single (p.label i) (p.slotCount i)) []).1 = _
  rw [hcopy, h.label_eq i hi, h.slotCount_eq i hi]
  rfl

end Mirrors

/-! ### The same roots -/

section

variable {first : Nat → Bool} {r : Nat}

/-- Nodes of a copy at which parts begin are copies of nodes at which parts begin. -/
lemma Mirrors.isTop_iff (h : Mirrors t stop p again source) (hcopy : IsCopy t first r p source)
    (hmore : ∀ v, first v = true → stop v = true) {i : Nat} (hi : i < p.size) :
    p.IsTop again i ↔ t.IsTop stop (source i) := by
  constructor
  · rintro htop w ⟨hw, hc⟩
    have hfirst : first w = false := by
      by_contra hfirst
      rw [hmore w (by simpa using hfirst)] at hw
      cases hw
    -- the parent is in the same component, so that it has a copy as well
    have hconnected : t.Connected first r w :=
      (hcopy.bijOn.mapsTo hi).trans _ _ _ ((Relation.EqvGen.rel _ _ ⟨hfirst, hc⟩).symm _ _)
    obtain ⟨j, hj, rfl⟩ := hcopy.bijOn.surjOn hconnected
    rw [← h.map_children hj hw] at hc
    obtain ⟨i', hi', heq⟩ := List.mem_map.1 hc
    obtain rfl := hcopy.bijOn.injOn (p.child_lt_size hi') hi heq
    exact htop j ⟨h.again_eq_false hj hw, hi'⟩
  · rintro htop j ⟨hj, hi'⟩
    have hlt := p.lt_size_of_mem_children hi'
    obtain ⟨hnil, -⟩ | ⟨hagain, hslots⟩ := h.cut_or_whole j hlt
    · rw [hnil] at hi'
      cases hi'
    · have hstop : stop (source j) = false := hagain ▸ hj
      refine htop (source j) ⟨hstop, ?_⟩
      rw [← h.map_children hlt hstop]
      exact List.mem_map_of_mem hi'

end

section

variable {first : Nat → Bool} {again : Tree α → Nat → Bool}

/-- The roots of the parts of all components are the roots of the parts of the tree. -/
theorem roots_perm (hmore : ∀ v, first v = true → stop v = true)
    (hmirrors : ∀ r ∈ t.roots first,
      Mirrors t stop (t.prune first r).1 (again (t.prune first r).1) (t.source first r)) :
    ((t.roots first).flatMap fun r =>
      ((t.prune first r).1.roots (again (t.prune first r).1)).map (t.source first r)).Perm
      (t.roots stop) := by
  refine (List.perm_ext_iff_of_nodup ?_ (t.nodup_roots stop)).2 fun v => ?_
  · rw [List.nodup_flatMap]
    constructor
    · intro r hr
      refine (nodup_roots _ _).map_on fun i hi j hj hij => ?_
      exact (isCopy_of_mem_roots hr).bijOn.injOn (mem_roots_iff.1 hi).1 (mem_roots_iff.1 hj).1
        hij
    · refine List.Pairwise.imp_of_mem ?_ (t.nodup_roots first)
      intro r r' hr hr' hne v hv hv'
      obtain ⟨i, hi, rfl⟩ := List.mem_map.1 hv
      obtain ⟨j, hj, heq⟩ := List.mem_map.1 hv'
      have hconnected := (isCopy_of_mem_roots hr).bijOn.mapsTo (mem_roots_iff.1 hi).1
      have hconnected' := (isCopy_of_mem_roots hr').bijOn.mapsTo (mem_roots_iff.1 hj).1
      rw [heq] at hconnected'
      exact hne (root_unique hr hr' hconnected hconnected')
  · rw [List.mem_flatMap, mem_roots_iff]
    constructor
    · rintro ⟨r, hr, hv⟩
      obtain ⟨i, hi, rfl⟩ := List.mem_map.1 hv
      obtain ⟨hlt, htop⟩ := mem_roots_iff.1 hi
      have hconnected := (isCopy_of_mem_roots hr).bijOn.mapsTo hlt
      have hbelow := below_of_mem_component
        ((connected_iff_mem_component (isTop_of_mem_roots hr)).1 hconnected)
      exact ⟨hbelow.lt_size (mem_roots_iff.1 hr).1,
        ((hmirrors r hr).isTop_iff (isCopy_of_mem_roots hr) hmore hlt).1 htop⟩
    · rintro ⟨hlt, htop⟩
      obtain ⟨r, hr, hconnected⟩ := exists_root first hlt
      obtain ⟨i, hi, rfl⟩ := (isCopy_of_mem_roots hr).bijOn.surjOn hconnected
      have htop := ((hmirrors r hr).isTop_iff (isCopy_of_mem_roots hr) hmore hi).2 htop
      exact ⟨r, hr, List.mem_map_of_mem (mem_roots_iff.2 ⟨hi, htop⟩)⟩

/-! ### The same pieces -/

/-- A component that is dropped has no parts to keep. -/
lemma split_eq_nil {p : Tree α} (h : p.isLeaf root = true) (stop : Nat → Bool) :
    p.split stop = [] := by
  rw [split_eq, List.filter_eq_nil_iff, List.forall_mem_map]
  intro r hr
  -- an inner node of a copy is one of `p`, but `p` has a single node
  have hcopy := isCopy_of_mem_roots hr
  have hinner : ¬ (p.prune stop r).1.isLeaf root = false := by
    intro hinner
    have hsize := two_le_size_of_inner ((hcopy.isLeaf_eq_false_iff (root_lt_size _)).1 hinner).2
    rw [(isLeaf_root_eq_false_iff p).2 hsize] at h
    cases h
  simpa using hinner

/-- Cutting the pieces again yields what cutting more at once does. -/
theorem split_split_perm (hmore : ∀ v, first v = true → stop v = true)
    (hmirrors : ∀ r ∈ t.roots first,
      Mirrors t stop (t.prune first r).1 (again (t.prune first r).1) (t.source first r)) :
    ((t.split first).flatMap fun p => p.split (again p)).Perm (t.split stop) := by
  have hparts : ∀ r ∈ t.roots first,
      (t.prune first r).1.split (again (t.prune first r).1) =
        ((((t.prune first r).1.roots (again (t.prune first r).1)).map (t.source first r)).map
          fun v => (t.prune stop v).1).filter fun q => !q.isLeaf root := by
    intro r hr
    rw [split_eq, List.map_map]
    congr 1
    exact List.map_congr_left fun i hi => (hmirrors r hr).prune_eq (mem_roots_iff.1 hi).1
  have hdropped : ∀ p ∈ (t.roots first).map fun r => (t.prune first r).1,
      (!p.isLeaf root) = false → p.split (again p) = [] :=
    fun p _ hp => split_eq_nil (by simpa using hp) _
  rw [t.split_eq first, flatMap_filter_of_eq_nil hdropped, List.flatMap_map,
    List.flatMap_congr hparts, ← List.filter_flatMap, ← List.map_flatMap, split_eq]
  exact ((roots_perm hmore hmirrors).map _).filter _

/-- Pieces in which no node is to lose its children stay as they are. -/
theorem split_split_eq
    (hmirrors : ∀ r ∈ t.roots first,
      Mirrors t first (t.prune first r).1 (again (t.prune first r).1) (t.source first r))
    (hkept : ∀ r ∈ t.roots first, ∀ i < (t.prune first r).1.size,
      again (t.prune first r).1 i = false) :
    ((t.split first).flatMap fun p => p.split (again p)) = t.split first := by
  have hself : ∀ p ∈ t.split first, p.split (again p) = [p] := by
    intro p hp
    rw [split_eq] at hp
    obtain ⟨hp, hinner⟩ := List.mem_filter.1 hp
    obtain ⟨r, hr, rfl⟩ := List.mem_map.1 hp
    have hprune := (hmirrors r hr).prune_eq (root_lt_size _)
    rw [(isCopy_of_mem_roots hr).source_root] at hprune
    rw [split_eq, roots_of_forall_not_stop (hkept r hr), List.map_singleton, hprune]
    exact List.filter_eq_self.2 (by simpa using hinner)
  rw [List.flatMap_congr hself, List.flatMap_singleton']

end

end TreeGrammar.Tree
