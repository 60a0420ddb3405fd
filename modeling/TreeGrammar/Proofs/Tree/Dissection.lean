/-
# Taking a tree apart

A tree is cut apart with a queue of roots.  The component of the first one is copied, and the
children that it lost queue up behind the others.  So the queue runs through the highest
nodes of all components, each of them once (`mem_roots_iff`, `nodup_roots`), and every node of
the tree is in the component of one of them.

`Dissects` says how a tree is to be taken apart.  That is what the queue does
(`dissects_dissection`), and the pieces are the copies it makes (`split_eq_pieces`).
-/
import TreeGrammar.Corpus.Treebank
import TreeGrammar.Proofs.Tree.Pruning

namespace TreeGrammar.Tree

variable {α : Type} {t : Tree α} {stop : Nat → Bool}

/-! ### The queue -/

/-- The nodes that come to the front of the queue. -/
def rootsFrom (t : Tree α) (stop : Nat → Bool) : List Nat → List Nat
  | [] => []
  | v :: queue => v :: t.rootsFrom stop (queue ++ t.cutOff stop v)
termination_by queue => t.forestWeight queue
decreasing_by
  have hlt := t.forestWeight_prune_lt stop v
  rw [prune_snd] at hlt
  simp only [forestWeight_append, forestWeight_cons]
  omega

/-- The nodes at which pieces begin, in the order of the pieces. -/
def roots (t : Tree α) (stop : Nat → Bool) : List Nat := t.rootsFrom stop [root]

theorem splitFrom_eq (t : Tree α) (stop : Nat → Bool) (queue : List Nat) (out : List (Tree α)) :
    t.splitFrom stop queue out = out.reverse ++
      ((t.rootsFrom stop queue).map fun r => (t.prune stop r).1).filter
        fun p => !p.isLeaf root := by
  induction queue, out using splitFrom.induct t stop with
  | case1 out =>
    rw [splitFrom, rootsFrom]
    exact (List.append_nil _).symm
  | case2 v queue out p ih =>
    rw [prune_snd, dite_eq_ite] at ih
    rw [splitFrom, rootsFrom, List.map_cons, prune_snd]
    refine ih.trans ?_
    change List.reverse (if (t.prune stop v).1.isLeaf root = true then out else _) ++ _ = _
    by_cases hleaf : (t.prune stop v).1.isLeaf root = true
    · rw [if_pos hleaf, List.filter_cons_of_neg (by simp [hleaf])]
    · rw [if_neg hleaf, List.filter_cons_of_pos (by simpa using hleaf), List.reverse_cons,
        List.append_assoc]
      rfl

lemma flatMap_filter_of_eq_nil {β γ : Type} {q : β → Bool} {f : β → List γ} {xs : List β}
    (h : ∀ x ∈ xs, q x = false → f x = []) : (xs.filter q).flatMap f = xs.flatMap f := by
  induction xs with
  | nil => rfl
  | cons x xs ih =>
    obtain ⟨hx, hxs⟩ := List.forall_mem_cons.1 h
    rw [List.flatMap_cons, ← ih hxs, List.filter_cons]
    split
    case isTrue => exact List.flatMap_cons
    case isFalse hq => rw [hx (by simpa using hq), List.nil_append]

theorem split_eq (t : Tree α) (stop : Nat → Bool) :
    t.split stop =
      ((t.roots stop).map fun r => (t.prune stop r).1).filter fun p => !p.isLeaf root :=
  t.splitFrom_eq stop [root] []

/-- Behind what is in the queue comes what is cut off from all that passes through it. -/
theorem rootsFrom_eq (t : Tree α) (stop : Nat → Bool) (queue : List Nat) :
    t.rootsFrom stop queue = queue ++ (t.rootsFrom stop queue).flatMap (t.cutOff stop) := by
  induction queue using rootsFrom.induct t stop with
  | case1 => simp [rootsFrom]
  | case2 v queue ih =>
    rw [rootsFrom, List.flatMap_cons, List.cons_append]
    conv_lhs => rw [ih, List.append_assoc]

theorem flatMap_component_perm (t : Tree α) (stop : Nat → Bool) (queue : List Nat) :
    ((t.rootsFrom stop queue).flatMap (t.component stop)).Perm (queue.flatMap t.preorder) := by
  induction queue using rootsFrom.induct t stop with
  | case1 => simp [rootsFrom]
  | case2 v queue ih =>
    rw [List.flatMap_append] at ih
    rw [rootsFrom, List.flatMap_cons, List.flatMap_cons]
    -- what is cut off from `v` moves up to the component of `v`
    refine (ih.append_left _).trans ((List.perm_append_comm.append_left _).trans ?_)
    rw [← List.append_assoc]
    exact (t.component_append_cutOff_perm stop v).append_right _

lemma isTop_of_mem_cutOff {v c : Nat} (h : c ∈ t.cutOff stop v) : t.IsTop stop c := by
  obtain ⟨w, hw, hc⟩ := List.mem_flatMap.1 h
  exact isTop_of_mem_children (List.mem_filter.1 hw).2 hc

lemma isTop_of_mem_roots {r : Nat} (h : r ∈ t.roots stop) : t.IsTop stop r := by
  rw [roots, rootsFrom_eq] at h
  rcases List.mem_append.1 h with h | h
  · rw [List.mem_singleton.1 h]
    exact t.isTop_root stop
  · obtain ⟨v, -, hv⟩ := List.mem_flatMap.1 h
    exact isTop_of_mem_cutOff hv

lemma isCopy_of_mem_roots {r : Nat} (h : r ∈ t.roots stop) :
    IsCopy t stop r (t.prune stop r).1 (t.source stop r) := isCopy_prune (isTop_of_mem_roots h)

/-- The components of the roots share out the nodes of the tree. -/
theorem flatMap_component_roots_perm (t : Tree α) (stop : Nat → Bool) :
    ((t.roots stop).flatMap (t.component stop)).Perm t.plan := by
  have hperm := t.flatMap_component_perm stop [root]
  rw [List.flatMap_singleton] at hperm
  exact hperm

theorem nodup_roots (t : Tree α) (stop : Nat → Bool) : (t.roots stop).Nodup := by
  have hnodup := (t.flatMap_component_roots_perm stop).nodup_iff.2 (t.nodup_preorder root)
  refine (List.nodup_flatMap.1 hnodup).2.imp ?_
  rintro v w hdisjoint rfl
  exact hdisjoint (t.self_mem_component stop v) (t.self_mem_component stop v)

lemma exists_root (stop : Nat → Bool) {v : Nat} (h : v < t.size) :
    ∃ r ∈ t.roots stop, t.Connected stop r v := by
  have hv := (t.flatMap_component_roots_perm stop).mem_iff.2 (mem_plan_iff.2 h)
  obtain ⟨r, hr, hrv⟩ := List.mem_flatMap.1 hv
  exact ⟨r, hr, (connected_iff_mem_component (isTop_of_mem_roots hr)).2 hrv⟩

lemma root_unique {r r' v : Nat} (hr : r ∈ t.roots stop) (hr' : r' ∈ t.roots stop)
    (h : t.Connected stop r v) (h' : t.Connected stop r' v) : r = r' :=
  top_unique (isTop_of_mem_roots hr) (isTop_of_mem_roots hr') h h'

/-- Pieces begin at the nodes to which no link leads that is left. -/
theorem mem_roots_iff {r : Nat} : r ∈ t.roots stop ↔ r < t.size ∧ t.IsTop stop r := by
  constructor
  · intro h
    refine ⟨?_, isTop_of_mem_roots h⟩
    rw [← mem_plan_iff, ← (t.flatMap_component_roots_perm stop).mem_iff]
    exact List.mem_flatMap.2 ⟨r, h, t.self_mem_component stop r⟩
  · rintro ⟨hlt, htop⟩
    obtain ⟨r', hr', hconnected⟩ := exists_root stop hlt
    rwa [top_unique htop (isTop_of_mem_roots hr') (.refl r) hconnected]

lemma roots_of_forall_not_stop (h : ∀ v < t.size, stop v = false) : t.roots stop = [root] := by
  have hcut : t.cutOff stop root = [] := by
    rw [cutOff, List.filter_eq_nil_iff.2, List.flatMap_nil]
    intro v hv
    rw [h v ((below_of_mem_component hv).lt_size t.root_lt_size)]
    exact Bool.false_ne_true
  rw [roots, rootsFrom, hcut, List.append_nil, rootsFrom]

/-! ### The pieces -/

/-- A tree taken apart into components. -/
structure Dissection (α : Type) where
  /-- The highest nodes of the components, component after component. -/
  roots : List Nat
  /-- The nodes of a component, given by its highest node, that lost their children. -/
  bereft : Nat → List Nat
  /-- The copy of a component. -/
  copy : Nat → Tree α
  /-- The node of the tree of which a node of the copy of a component is a copy. -/
  source : Nat → Nat → Nat

/-- The copies of the components that have at least two nodes. -/
def Dissection.pieces (d : Dissection α) : List (Tree α) :=
  (d.roots.filter fun r => decide (2 ≤ (d.copy r).size)).map d.copy

/-- `d` takes `t` apart: all links from the nodes in `stop` to their children are deleted. -/
structure Dissects (t : Tree α) (stop : Nat → Bool) (d : Dissection α) : Prop where
  /-- The root comes first.  Behind it, component after component, come the nodes cut off from
  it, those of one parent together and in order. -/
  roots_eq : d.roots = root :: d.roots.flatMap fun r => (d.bereft r).flatMap t.children
  nodup_roots : d.roots.Nodup
  /-- The parents within one component are taken in preorder. -/
  bereft_sublist : ∀ r ∈ d.roots, (d.bereft r).Sublist t.plan
  mem_bereft_iff : ∀ r ∈ d.roots, ∀ v, v ∈ d.bereft r ↔ stop v = true ∧ t.Connected stop r v
  /-- Every node is in one component. -/
  existsUnique_root : ∀ v < t.size, ∃! r, r ∈ d.roots ∧ t.Connected stop r v
  isCopy : ∀ r ∈ d.roots, IsCopy t stop r (d.copy r) (d.source r)
  /-- An inner node that keeps its children is an inner node of one piece. -/
  existsUnique_inner : ∀ v < t.size, t.isLeaf v = false → stop v = false →
    ∃! r, r ∈ d.roots ∧ 2 ≤ (d.copy r).size ∧
      ∃ i < (d.copy r).size, d.source r i = v ∧ (d.copy r).isLeaf i = false
  /-- There are no other inner nodes in pieces, and these have the productions of their
  sources. -/
  of_inner : ∀ r ∈ d.roots, ∀ i < (d.copy r).size, (d.copy r).isLeaf i = false →
    stop (d.source r i) = false ∧ t.isLeaf (d.source r i) = false ∧
      (d.copy r).production i = t.production (d.source r i)

/-- The tree taken apart with a queue. -/
def dissection (t : Tree α) (stop : Nat → Bool) : Dissection α where
  roots := t.roots stop
  bereft r := (t.component stop r).filter stop
  copy r := (t.prune stop r).1
  source := t.source stop

lemma two_le_size_of_inner {v : Nat} (h : t.isLeaf v = false) : 2 ≤ t.size := by
  rw [← Bool.not_eq_true, isLeaf_iff] at h
  obtain ⟨c, hc⟩ := List.exists_mem_of_ne_nil _ h
  have hlt := t.lt_of_mem_children hc
  have hsize := t.child_lt_size hc
  omega

lemma isLeaf_root_eq_false_iff (t : Tree α) : t.isLeaf root = false ↔ 2 ≤ t.size := by
  refine ⟨two_le_size_of_inner, fun h => ?_⟩
  -- the second node is nobody's child but the root's
  obtain ⟨v, hv⟩ := exists_parent (show 1 < t.size by omega) (by simp [root])
  have hroot : v = root := Nat.lt_one_iff.1 (t.lt_of_mem_children hv)
  rw [← Bool.not_eq_true, isLeaf_iff]
  intro hnil
  rw [hroot, hnil] at hv
  cases hv

/-- The pieces of a tree are the copies of its components. -/
theorem split_eq_pieces (t : Tree α) (stop : Nat → Bool) :
    t.split stop = (t.dissection stop).pieces := by
  have hsize : ∀ p : Tree α, (!p.isLeaf root) = decide (2 ≤ p.size) := by
    intro p
    rw [Bool.eq_iff_iff, decide_eq_true_iff, ← p.isLeaf_root_eq_false_iff, Bool.not_eq_true']
  rw [split_eq, List.filter_map]
  simp only [hsize]
  rfl

/-- Taken apart with a queue, a tree falls apart into its components. -/
theorem dissects_dissection (t : Tree α) (stop : Nat → Bool) :
    t.Dissects stop (t.dissection stop) := by
  constructor
  case roots_eq => exact t.rootsFrom_eq stop [root]
  case nodup_roots => exact t.nodup_roots stop
  case bereft_sublist =>
    intro r hr
    have hbelow := below_root (mem_roots_iff.1 hr).1
    exact (List.filter_sublist.trans (t.component_sublist_preorder stop r)).trans
      hbelow.isInfix_preorder.sublist
  case mem_bereft_iff =>
    intro r hr v
    rw [connected_iff_mem_component (isTop_of_mem_roots hr)]
    exact List.mem_filter.trans and_comm
  case existsUnique_root =>
    intro v hv
    obtain ⟨r, hr, hrv⟩ := exists_root stop hv
    exact ⟨r, ⟨hr, hrv⟩, fun r' ⟨hr', hrv'⟩ => root_unique hr' hr hrv' hrv⟩
  case isCopy => exact fun r hr => isCopy_of_mem_roots hr
  case existsUnique_inner =>
    intro v hv hleaf hstop
    obtain ⟨r, hr, hrv⟩ := exists_root stop hv
    obtain ⟨i, hi, hiv⟩ := (isCopy_of_mem_roots hr).bijOn.surjOn hrv
    have hi : i < (t.prune stop r).1.size := hi
    have hinner : (t.prune stop r).1.isLeaf i = false := by
      rw [(isCopy_of_mem_roots hr).isLeaf_eq_false_iff hi, hiv]
      exact ⟨hstop, hleaf⟩
    refine ⟨r, ⟨hr, two_le_size_of_inner hinner, i, hi, hiv, hinner⟩, ?_⟩
    rintro r' ⟨hr', -, i', hi', hiv', -⟩
    have hrv' : t.Connected stop r' v := by
      rw [← hiv']
      exact (isCopy_of_mem_roots hr').bijOn.mapsTo hi'
    exact root_unique hr' hr hrv' hrv
  case of_inner =>
    intro r hr i hi hinner
    obtain ⟨hstop, hleaf⟩ := ((isCopy_of_mem_roots hr).isLeaf_eq_false_iff hi).1 hinner
    exact ⟨hstop, hleaf, (isCopy_of_mem_roots hr).production_eq hi hstop⟩

end TreeGrammar.Tree
