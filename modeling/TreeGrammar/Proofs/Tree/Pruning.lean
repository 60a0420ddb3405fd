/-
# Copies of components

A part of a tree is copied with a stack of nodes whose copies are still without children.  The
invariant of the loop (`Copying`) names the node behind every copy and says which children the
copy has: none as long as it is on the stack, and those of its node afterwards, if the node is
to keep them.

When the stack is empty the component of the node at which the loop began has been copied
(`isCopy_prune`), and what its nodes lost is handed back (`prune_snd`).
-/
import TreeGrammar.Corpus.Production
import TreeGrammar.Proofs.Tree.Component
import TreeGrammar.Proofs.Tree.Growth
import TreeGrammar.Proofs.Tree.Slots
import TreeGrammar.Tree.Copy

namespace TreeGrammar.Tree

variable {α : Type} {t copy : Tree α} {names : List Nat} {stop : Nat → Bool}

/-! ### Hanging all children of a node -/

/-- `copy` with a childless copy of the node `e.2` of `t` hung under its node `dst`, in slot
`e.1`. -/
def attachPlaced (t : Tree α) (dst : Nat) (copy : Tree α) (e : Nat × Nat) : Tree α :=
  copy.attach dst e.1 (single (t.label e.2) (t.slotCount e.2))

lemma attachChildren_eq (t : Tree α) (src : Nat) (copy : Tree α) (dst : Nat) :
    t.attachChildren src copy dst =
      (placed (t.slots src)).foldl (t.attachPlaced dst) copy := by
  rw [placed, List.foldl_flatMap, attachChildren]
  simp only [List.foldl_map, attachPlaced]

lemma lt_size_of_mem_slots (t : Tree α) {v c : Nat} {cs : List Nat} (hcs : cs ∈ t.slots v)
    (hc : c ∈ cs) : c < t.size := by
  refine t.child_lt_size (v := v) ?_
  rw [children_eq_flatten]
  exact List.mem_flatten.2 ⟨cs, hcs, hc⟩

/-- The slots of a node of the copy, every child replaced by the node of which it is a copy. -/
def sourceSlots (copy : Tree α) (names : List Nat) (i : Nat) : List (List Nat) :=
  (copy.slots i).map (List.map fun j => names.getD j 0)

lemma length_sourceSlots (copy : Tree α) (names : List Nat) (i : Nat) :
    (sourceSlots copy names i).length = copy.slotCount i := by
  rw [sourceSlots, List.length_map]
  rfl

lemma sourceSlots_of_slots_eq_replicate {i k : Nat}
    (h : copy.slots i = List.replicate k []) :
    sourceSlots copy names i = List.replicate k [] := by
  simp [sourceSlots, h]

lemma sourceSlots_append (hlength : names.length = copy.size) (more : List Nat) (i : Nat) :
    sourceSlots copy (names ++ more) i = sourceSlots copy names i := by
  refine List.map_congr_left fun cs hcs => List.map_congr_left fun j hj => ?_
  have hlt : j < names.length := hlength ▸ copy.lt_size_of_mem_slots hcs hj
  exact List.getD_append names more 0 j hlt

/-- The nodes of `copy` are copies of the nodes in `names`, as far as labels go. -/
structure Named (t copy : Tree α) (names : List Nat) : Prop where
  length_eq : names.length = copy.size
  label_eq : ∀ i v, names[i]? = some v → copy.label i = t.label v

section

variable {dst s c : Nat}

lemma Named.attach (h : Named t copy names) (hs : s < copy.slotCount dst) :
    Named t (t.attachPlaced dst copy (s, c)) (names ++ [c]) where
  length_eq := by
    rw [attachPlaced, size_attach_single hs, List.length_append, h.length_eq]
    rfl
  label_eq i v hi := by
    rw [List.getElem?_append] at hi
    split at hi
    case isTrue hlt =>
      rw [attachPlaced, label_attach_of_lt hs (h.length_eq ▸ hlt)]
      exact h.label_eq i v hi
    case isFalse hge =>
      obtain ⟨hsize, rfl⟩ : i = copy.size ∧ c = v := by
        rw [List.getElem?_singleton] at hi
        split at hi
        · exact ⟨by have := h.length_eq; omega, Option.some.inj hi⟩
        · cases hi
      rw [hsize, attachPlaced, label_attach_single_size hs]

lemma Named.sourceSlots_attach (h : Named t copy names) (hs : s < copy.slotCount dst)
    {i : Nat} (hi : i < copy.size) :
    sourceSlots (t.attachPlaced dst copy (s, c)) (names ++ [c]) i =
      if dst = i then pushChild (sourceSlots copy names i) (s, c)
      else sourceSlots copy names i := by
  have hlast : (names ++ [c]).getD copy.size 0 = c := by
    rw [← h.length_eq]
    simp
  rw [← sourceSlots_append h.length_eq [c] i, sourceSlots, sourceSlots, attachPlaced,
    slots_attach_of_lt hs hi]
  split
  case isTrue =>
    have hmap := map_pushChild (fun j => (names ++ [c]).getD j 0) (copy.slots i) s copy.size
    simp only [hlast] at hmap
    exact hmap
  case isFalse => rfl

lemma sourceSlots_attach_size (hs : s < copy.slotCount dst) (names : List Nat) :
    sourceSlots (t.attachPlaced dst copy (s, c)) names copy.size =
      List.replicate (t.slotCount c) [] :=
  sourceSlots_of_slots_eq_replicate (slots_attach_single_size hs)

/-- What becomes of a copy when some children are hung under its node `dst`. -/
structure Hung (t copy : Tree α) (names : List Nat) (dst : Nat) (es : List (Nat × Nat))
    (copy' : Tree α) : Prop where
  named : Named t copy' (names ++ es.map (·.2))
  /-- The slots of `dst` are filled. -/
  filled : sourceSlots copy' (names ++ es.map (·.2)) dst =
    es.foldl pushChild (sourceSlots copy names dst)
  /-- Other nodes keep their children. -/
  kept : ∀ i < copy.size, i ≠ dst →
    sourceSlots copy' (names ++ es.map (·.2)) i = sourceSlots copy names i
  /-- The new nodes are childless. -/
  bare : ∀ i v, copy.size ≤ i → (names ++ es.map (·.2))[i]? = some v →
    sourceSlots copy' (names ++ es.map (·.2)) i = List.replicate (t.slotCount v) []

theorem Named.foldl_attachPlaced (h : Named t copy names) (hdst : dst < copy.size)
    {es : List (Nat × Nat)} (hes : ∀ e ∈ es, e.1 < copy.slotCount dst) :
    Hung t copy names dst es (es.foldl (t.attachPlaced dst) copy) := by
  induction es generalizing copy names with
  | nil =>
    rw [List.foldl_nil]
    constructor
    case named => simpa using h
    case filled => simp
    case kept => simp
    case bare =>
      intro i v hi hv
      rw [List.map_nil, List.append_nil, List.getElem?_eq_none (h.length_eq ▸ hi)] at hv
      cases hv
  | cons e es ih =>
    obtain ⟨s, c⟩ := e
    obtain ⟨hs, hes⟩ := List.forall_mem_cons.1 hes
    have hsize : (t.attachPlaced dst copy (s, c)).size = copy.size + 1 := size_attach_single hs
    have hcount : (t.attachPlaced dst copy (s, c)).slotCount dst = copy.slotCount dst :=
      slotCount_attach_of_lt hs hdst
    have hnames : names ++ [c] ++ es.map (·.2) = names ++ ((s, c) :: es).map (·.2) := by simp
    have hnamed : Named t (t.attachPlaced dst copy (s, c)) (names ++ [c]) := h.attach hs
    have hrest := ih hnamed (by omega) (by rwa [hcount])
    rw [List.foldl_cons]
    constructor
    case named => exact hnames ▸ hrest.named
    case filled =>
      rw [← hnames, hrest.filled, h.sourceSlots_attach hs hdst, if_pos rfl]
      rfl
    case kept =>
      intro i hi hne
      rw [← hnames, hrest.kept i (by omega) hne, h.sourceSlots_attach hs hi,
        if_neg (Ne.symm hne)]
    case bare =>
      intro i v hi hv
      rw [← hnames] at hv ⊢
      by_cases hnew : i = copy.size
      · -- the node that was hung first
        subst hnew
        have hlt : copy.size < (names ++ [c]).length := by simp [h.length_eq]
        rw [List.getElem?_append_left hlt, ← h.length_eq, List.getElem?_concat_length] at hv
        rw [hrest.kept _ (by omega) (by omega), sourceSlots_attach_size hs, Option.some.inj hv]
      · exact hrest.bare i v (by omega) hv

/-- A node whose copy is childless gets its children. -/
theorem Named.attachChildren (h : Named t copy names) (hdst : dst < copy.size) {src : Nat}
    (hbare : sourceSlots copy names dst = List.replicate (t.slotCount src) []) :
    Hung t copy names dst (placed (t.slots src)) (t.attachChildren src copy dst) ∧
      (placed (t.slots src)).foldl pushChild (sourceSlots copy names dst) = t.slots src := by
  have hcount : copy.slotCount dst = t.slotCount src := by
    rw [← length_sourceSlots copy names, hbare, List.length_replicate]
  constructor
  · rw [attachChildren_eq]
    refine h.foldl_attachPlaced hdst fun e he => ?_
    rw [hcount]
    exact lt_length_of_mem_placed he
  · rw [hbare]
    exact foldl_pushChild_placed _

end

/-! ### The loop -/

/-- The copy so far: `names` has the nodes that were copied, in the order of their copies.  A
copy has the children that its node keeps, unless it is still on the stack. -/
structure Copying (t : Tree α) (stop : Nat → Bool) (todo : List (Nat × Nat)) (copy : Tree α)
    (names : List Nat) : Prop where
  named : Named t copy names
  nodup_todo : (todo.map (·.2)).Nodup
  names_todo : ∀ p ∈ todo, names[p.2]? = some p.1
  slots_eq : ∀ i v, names[i]? = some v → sourceSlots copy names i =
    if stop v = true ∨ i ∈ todo.map (·.2) then List.replicate (t.slotCount v) [] else t.slots v

lemma copying_start (t : Tree α) (stop : Nat → Bool) (v : Nat) :
    Copying t stop [(v, root)] (single (t.label v) (t.slotCount v)) [v] where
  named := by
    refine ⟨rfl, fun i w hi => ?_⟩
    rw [List.getElem?_singleton] at hi
    split at hi
    case isTrue hzero =>
      obtain rfl : v = w := Option.some.inj hi
      rw [hzero]
      rfl
    case isFalse => cases hi
  nodup_todo := by simp
  names_todo := by simp [root]
  slots_eq i w hi := by
    rw [List.getElem?_singleton] at hi
    split at hi
    case isTrue hzero =>
      obtain rfl : v = w := Option.some.inj hi
      rw [hzero, if_pos (.inr (by simp [root]))]
      exact sourceSlots_of_slots_eq_replicate rfl
    case isFalse => cases hi

section

variable {todo : List (Nat × Nat)} {v i : Nat}

/-- A copy has as many slots as its node, also when it has no children yet. -/
lemma Copying.slotCount_eq (h : Copying t stop todo copy names) (hmem : (v, i) ∈ todo) :
    copy.slotCount i = t.slotCount v := by
  rw [← length_sourceSlots copy names, h.slots_eq i v (h.names_todo _ hmem),
    if_pos (.inr (List.mem_map_of_mem hmem)), List.length_replicate]

/-- A node that loses its children leaves the stack. -/
lemma Copying.skip (h : Copying t stop ((v, i) :: todo) copy names) (hstop : stop v = true) :
    Copying t stop todo copy names where
  named := h.named
  nodup_todo := (List.nodup_cons.1 h.nodup_todo).2
  names_todo p hp := h.names_todo p (List.mem_cons_of_mem _ hp)
  slots_eq j w hj := by
    rw [h.slots_eq j w hj]
    by_cases hji : j = i
    · have hvw : some v = some w := by
        rw [← hj, hji]
        exact (h.names_todo (v, i) List.mem_cons_self).symm
      rw [← Option.some.inj hvw]
      simp [hstop]
    · simp only [List.map_cons, List.mem_cons, hji, false_or]

lemma map_snd_pending (cs : List Nat) (n : Nat) :
    ((cs.zipIdx n).reverse ++ todo).map (·.2) =
      (List.range' n cs.length).reverse ++ todo.map (·.2) := by
  rw [List.map_append, List.map_reverse, List.zipIdx_map_snd]

lemma mem_map_snd_pending {cs : List Nat} {n j : Nat} :
    j ∈ ((cs.zipIdx n).reverse ++ todo).map (·.2) ↔
      (n ≤ j ∧ j < n + cs.length) ∨ j ∈ todo.map (·.2) := by
  rw [map_snd_pending, List.mem_append, List.mem_reverse, List.mem_range'_1]

lemma Copying.lt_size_of_mem_todo (h : Copying t stop todo copy names) {j : Nat}
    (hj : j ∈ todo.map (·.2)) : j < copy.size := by
  obtain ⟨p, hp, rfl⟩ := List.mem_map.1 hj
  exact h.named.length_eq ▸ (List.getElem?_eq_some_iff.1 (h.names_todo p hp)).1

/-- The children of a node can be hung under its copy. -/
lemma Copying.hung (h : Copying t stop ((v, i) :: todo) copy names) :
    Hung t copy names i (placed (t.slots v)) (t.attachChildren v copy i) ∧
      (placed (t.slots v)).foldl pushChild (sourceSlots copy names i) = t.slots v := by
  refine h.named.attachChildren (h.lt_size_of_mem_todo (by simp)) ?_
  rw [h.slots_eq i v (h.names_todo (v, i) List.mem_cons_self), if_pos (.inr (by simp))]

/-- Once the children of a node hang under its copy, this has all of them, and theirs have none. -/
lemma Copying.sourceSlots_attachChildren (h : Copying t stop ((v, i) :: todo) copy names)
    (hstop : stop v = false) {j w : Nat} (hj : (names ++ t.children v)[j]? = some w) :
    sourceSlots (t.attachChildren v copy i) (names ++ t.children v) j =
      if stop w = true ∨ (copy.size ≤ j ∧ j < copy.size + (t.children v).length) ∨
          j ∈ todo.map (·.2) then
        List.replicate (t.slotCount w) []
      else t.slots w := by
  obtain ⟨⟨-, hdst, hkept, hnew⟩, hfilled⟩ := h.hung
  rw [map_snd_placed, ← children_eq_flatten] at hdst hkept hnew
  have hlength := h.named.length_eq
  by_cases hjlt : j < copy.size
  · have hjw : names[j]? = some w := by
      rwa [List.getElem?_append_left (hlength ▸ hjlt)] at hj
    by_cases hji : j = i
    · subst hji
      obtain rfl : v = w := by
        rw [h.names_todo (v, j) List.mem_cons_self] at hjw
        exact Option.some.inj hjw
      have hnotin : j ∉ todo.map (·.2) := (List.nodup_cons.1 h.nodup_todo).1
      rw [hdst, hfilled, if_neg]
      simp only [hstop, Bool.false_eq_true, false_or, not_or, not_and]
      exact ⟨by omega, hnotin⟩
    · rw [hkept j hjlt hji, h.slots_eq j w hjw]
      simp only [List.map_cons, List.mem_cons, hji, Nat.not_le_of_lt hjlt, false_and, false_or]
  · have hjlen := (List.getElem?_eq_some_iff.1 hj).1
    rw [List.length_append, hlength] at hjlen
    rw [hnew j w (by omega) hj, if_pos (.inr (.inl ⟨by omega, by omega⟩))]

/-- A node that keeps its children hands its place on the stack to them. -/
theorem Copying.expand (h : Copying t stop ((v, i) :: todo) copy names)
    (hstop : stop v = false) :
    Copying t stop (((t.children v).zipIdx copy.size).reverse ++ todo)
      (t.attachChildren v copy i) (names ++ t.children v) where
  named := by
    have hnamed := h.hung.1.named
    rwa [map_snd_placed, ← children_eq_flatten] at hnamed
  nodup_todo := by
    rw [map_snd_pending, List.nodup_append', List.nodup_reverse]
    refine ⟨List.nodup_range', (List.nodup_cons.1 h.nodup_todo).2, fun j hj hj' => ?_⟩
    rw [List.mem_reverse, List.mem_range'_1] at hj
    have := h.lt_size_of_mem_todo (List.mem_cons_of_mem _ hj')
    omega
  names_todo p hp := by
    rcases List.mem_append.1 hp with hp | hp
    · obtain ⟨hle, hget⟩ := List.mk_mem_zipIdx_iff_le_and_getElem?_sub.1 (List.mem_reverse.1 hp)
      have hlength := h.named.length_eq
      rw [List.getElem?_append_right (by omega), hlength]
      exact hget
    · have hget := h.names_todo p (List.mem_cons_of_mem _ hp)
      rwa [List.getElem?_append_left (List.getElem?_eq_some_iff.1 hget).1]
  slots_eq j w hj := by
    simp only [mem_map_snd_pending]
    exact h.sourceSlots_attachChildren hstop hj

end

/-- The nodes that get a copy after those on the stack, in the order of their copies. -/
def copied (t : Tree α) (stop : Nat → Bool) (vs : List Nat) : List Nat :=
  ((vs.flatMap (t.component stop)).filter fun v => !stop v).flatMap t.children

lemma copied_cons_of_stop {v : Nat} {vs : List Nat} (h : stop v = true) :
    t.copied stop (v :: vs) = t.copied stop vs := by
  rw [copied, List.flatMap_cons, component_of_stop h, copied]
  simp [h]

lemma copied_cons_of_not_stop {v : Nat} {vs : List Nat} (h : stop v = false) :
    t.copied stop (v :: vs) =
      t.children v ++ t.copied stop ((t.children v).reverse ++ vs) := by
  rw [copied, List.flatMap_cons, component_of_not_stop h, copied, List.flatMap_append,
    List.cons_append, List.filter_cons_of_pos (by simp [h])]
  rfl

/-- When the stack is empty the components of all nodes on it have been copied. -/
theorem Copying.copyUntil {todo : List (Nat × Nat)} (h : Copying t stop todo copy names)
    (cut : List Nat) :
    Copying t stop [] (t.copyUntil stop todo copy cut).1
      (names ++ t.copied stop (todo.map (·.1))) := by
  fun_induction Tree.copyUntil t stop todo copy cut generalizing names with
  | case1 copy cut => simpa [copied] using h
  | case2 src dst todo copy cut hstop ih =>
    rw [List.map_cons, copied_cons_of_stop hstop]
    exact ih (h.skip hstop)
  | case3 src dst todo copy cut hstop children =>
    rename_i ih
    have hstop : stop src = false := by simpa using hstop
    have hrest := ih (h.expand hstop)
    rw [List.map_append, List.map_reverse, List.zipIdx_map_fst] at hrest
    rw [List.map_cons, copied_cons_of_not_stop hstop, ← List.append_assoc]
    exact hrest

/-- What was cut off comes in the order in which the nodes that lost it were visited. -/
theorem copyUntil_cut (t : Tree α) (stop : Nat → Bool) (todo : List (Nat × Nat))
    (copy : Tree α) (cut : List Nat) :
    (t.copyUntil stop todo copy cut).2 =
      ((todo.map (·.1)).flatMap (t.cutOff stop)).reverse ++ cut := by
  induction todo, copy, cut using copyUntil.induct t stop with
  | case1 copy cut =>
    rw [Tree.copyUntil]
    rfl
  | case2 src dst todo copy cut hstop ih =>
    rw [Tree.copyUntil, if_pos hstop, ih, List.map_cons, List.flatMap_cons,
      cutOff_of_stop hstop, List.reverse_append, List.append_assoc]
  | case3 src dst todo copy cut hstop children ih =>
    have hstop : stop src = false := by simpa using hstop
    rw [Tree.copyUntil, if_neg (by simp [hstop]), ih, List.map_append, List.map_reverse,
      List.zipIdx_map_fst, List.flatMap_append, ← cutOff_of_not_stop hstop, List.map_cons,
      List.flatMap_cons]

/-- What pruning hands back is what the nodes of the component lost. -/
theorem prune_snd (t : Tree α) (stop : Nat → Bool) (v : Nat) :
    (t.prune stop v).2 = t.cutOff stop v := by
  change (t.copyUntil stop [(v, root)] (single (t.label v) (t.slotCount v)) []).2.reverse = _
  rw [copyUntil_cut, List.append_nil, List.reverse_reverse]
  exact List.append_nil _

/-! ### Copies of components -/

/-- `p` is a copy of the component of `r`: `source` takes its nodes, one to one, to those of
which they are copies. -/
structure IsCopy (t : Tree α) (stop : Nat → Bool) (r : Nat) (p : Tree α)
    (source : Nat → Nat) : Prop where
  source_root : source root = r
  bijOn : Set.BijOn source {i | i < p.size} {w | t.Connected stop r w}
  label_eq : ∀ i < p.size, p.label i = t.label (source i)
  /-- The children are copied slot by slot and in order; those that were cut off leave empty
  slots. -/
  slots_eq : ∀ i < p.size, (p.slots i).map (List.map source) =
    if stop (source i) then List.replicate (t.slotCount (source i)) [] else t.slots (source i)

/-- The nodes of the component of `v`, in the order of their copies. -/
def sources (t : Tree α) (stop : Nat → Bool) (v : Nat) : List Nat := v :: t.copied stop [v]

/-- The node of which node `i` of the copy of the component of `v` is the copy. -/
def source (t : Tree α) (stop : Nat → Bool) (v i : Nat) : Nat := (t.sources stop v).getD i 0

/-- A component is its highest node and the children of those that keep them. -/
lemma sources_perm_component (t : Tree α) (stop : Nat → Bool) (v : Nat) :
    (t.sources stop v).Perm (t.component stop v) := by
  induction v using t.induction_children with
  | node v ih =>
    by_cases hstop : stop v = true
    · rw [sources, copied_cons_of_stop hstop, component_of_stop hstop]
      exact List.Perm.refl _
    · have hstop : stop v = false := by simpa using hstop
      have hsplit : (t.children v ++ t.copied stop (t.children v).reverse).Perm
          ((t.children v).reverse.flatMap (t.sources stop)) := by
        have hperm := List.flatMap_append_perm (t.children v).reverse (fun c => [c])
          fun c => t.copied stop [c]
        rw [List.flatMap_singleton'] at hperm
        have hcopied : t.copied stop (t.children v).reverse =
            (t.children v).reverse.flatMap fun c => t.copied stop [c] := by
          simp only [copied, List.filter_flatMap, List.flatMap_assoc, List.flatMap_singleton]
        rw [hcopied]
        exact ((List.reverse_perm _).symm.append_right _).trans hperm
      rw [sources, copied_cons_of_not_stop hstop, List.append_nil,
        component_of_not_stop hstop]
      refine (hsplit.trans ?_).cons v
      exact List.Perm.flatMap_left _ fun c hc => ih c (List.mem_reverse.1 hc)

lemma nodup_sources (t : Tree α) (stop : Nat → Bool) (v : Nat) : (t.sources stop v).Nodup :=
  (t.sources_perm_component stop v).nodup_iff.2 (t.nodup_component stop v)

lemma bijOn_getD {xs : List Nat} (h : xs.Nodup) :
    Set.BijOn (fun i => xs.getD i 0) {i | i < xs.length} {x | x ∈ xs} := by
  have hget : ∀ i (hi : i < xs.length), xs.getD i 0 = xs[i] := fun i hi =>
    List.getD_eq_getElem xs 0 hi
  refine ⟨fun i hi => ?_, fun i hi j hj hij => ?_, fun x hx => ?_⟩
  · change xs.getD i 0 ∈ xs
    rw [hget i hi]
    exact List.getElem_mem hi
  · change xs.getD i 0 = xs.getD j 0 at hij
    rw [hget i hi, hget j hj] at hij
    exact (h.getElem_inj_iff).1 hij
  · obtain ⟨i, hi, rfl⟩ := List.getElem_of_mem hx
    exact ⟨i, hi, hget i hi⟩

/-- Pruning copies the component of the node it starts from. -/
theorem isCopy_prune {r : Nat} (hr : t.IsTop stop r) :
    IsCopy t stop r (t.prune stop r).1 (t.source stop r) := by
  have hcopying : Copying t stop [] (t.prune stop r).1 (t.sources stop r) :=
    (copying_start t stop r).copyUntil []
  have hlength := hcopying.named.length_eq
  have hget : ∀ i < (t.prune stop r).1.size,
      (t.sources stop r)[i]? = some (t.source stop r i) := by
    intro i hi
    have hi' : i < (t.sources stop r).length := hlength ▸ hi
    rw [source, List.getD_eq_getElem _ 0 hi', List.getElem?_eq_getElem hi']
  constructor
  case source_root => rfl
  case bijOn =>
    have hbij := bijOn_getD (t.nodup_sources stop r)
    have hmem : {w | w ∈ t.sources stop r} = {w | t.Connected stop r w} := by
      ext w
      exact (t.sources_perm_component stop r).mem_iff.trans
        (connected_iff_mem_component hr).symm
    rw [hlength, hmem] at hbij
    exact hbij
  case label_eq =>
    intro i hi
    exact hcopying.named.label_eq i _ (hget i hi)
  case slots_eq =>
    intro i hi
    have hslots := hcopying.slots_eq i _ (hget i hi)
    simp only [List.map_nil, List.not_mem_nil, or_false] at hslots
    exact hslots

namespace IsCopy

variable {r i : Nat} {p : Tree α} {source : Nat → Nat}

/-- The nodes of a copy are those of the component. -/
lemma ids_perm (h : IsCopy t stop r p source) (hr : t.IsTop stop r) :
    (p.ids.map source).Perm (t.component stop r) := by
  refine (List.perm_ext_iff_of_nodup ?_ (t.nodup_component stop r)).2 fun v => ?_
  · refine List.nodup_range.map_on fun i hi j hj hij => ?_
    exact h.bijOn.injOn (List.mem_range.1 hi) (List.mem_range.1 hj) hij
  · rw [← connected_iff_mem_component hr, List.mem_map]
    constructor
    · rintro ⟨i, hi, rfl⟩
      exact h.bijOn.mapsTo (List.mem_range.1 hi)
    · intro hv
      obtain ⟨i, hi, rfl⟩ := h.bijOn.surjOn hv
      exact ⟨i, List.mem_range.2 hi, rfl⟩

lemma slotCount_eq (h : IsCopy t stop r p source) (hi : i < p.size) :
    p.slotCount i = t.slotCount (source i) := by
  have hlength := congrArg List.length (h.slots_eq i hi)
  rw [List.length_map] at hlength
  rw [slotCount, hlength]
  split
  · exact List.length_replicate
  · rfl

lemma slots_eq_of_not_stop (h : IsCopy t stop r p source) (hi : i < p.size)
    (hstop : stop (source i) = false) :
    (p.slots i).map (List.map source) = t.slots (source i) := by
  rw [h.slots_eq i hi, if_neg (by simp [hstop])]

lemma map_children (h : IsCopy t stop r p source) (hi : i < p.size) :
    (p.children i).map source = if stop (source i) then [] else t.children (source i) := by
  rw [children_eq_flatten, List.map_flatten, h.slots_eq i hi]
  split
  · exact List.flatten_replicate_nil
  · rfl

/-- Inner nodes of a copy are copies of inner nodes that keep their children. -/
lemma isLeaf_eq_false_iff (h : IsCopy t stop r p source) (hi : i < p.size) :
    p.isLeaf i = false ↔ stop (source i) = false ∧ t.isLeaf (source i) = false := by
  have hmap := h.map_children hi
  rw [← Bool.not_eq_true, ← Bool.not_eq_true (t.isLeaf _), isLeaf_iff, isLeaf_iff,
    ← List.map_eq_nil_iff, hmap]
  cases stop (source i) with
  | true => simp
  | false => simp

lemma isLeaf_of_stop (h : IsCopy t stop r p source) (hi : i < p.size)
    (hstop : stop (source i) = true) : p.isLeaf i = true := by
  have hmap := h.map_children hi
  rw [if_pos hstop] at hmap
  exact (p.isLeaf_iff i).2 (List.map_eq_nil_iff.1 hmap)

/-- Where a node keeps its children its copy has the same production. -/
lemma production_eq (h : IsCopy t stop r p source) (hi : i < p.size)
    (hstop : stop (source i) = false) : p.production i = t.production (source i) := by
  have hslots : (p.slots i).map (List.map p.label) =
      (t.slots (source i)).map (List.map t.label) := by
    rw [← h.slots_eq_of_not_stop hi hstop, List.map_map]
    refine List.map_congr_left fun cs hcs => ?_
    rw [Function.comp_apply, List.map_map]
    refine List.map_congr_left fun j hj => ?_
    exact h.label_eq j (p.lt_size_of_mem_slots hcs hj)
  rw [production, production, h.label_eq i hi]
  exact congrArg (Production.mk _) hslots

end IsCopy

end TreeGrammar.Tree
