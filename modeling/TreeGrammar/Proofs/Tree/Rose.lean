/-
# Rose trees of trees that were put together

Hanging a tree under a node changes the rose trees at and above that node and no others, and
what was hung has the rose tree that it had on its own.  So a root over some subtrees has
their rose trees as children (`rose_ofSubtrees`), and a subtree that is copied out has the
rose tree of the node it was copied from (`rose_subtree`).
-/
import TreeGrammar.Proofs.Tree.Alike
import TreeGrammar.Proofs.Tree.Pruning

namespace TreeGrammar.Tree

variable {α : Type} {t u : Tree α} {p s v w : Nat}

/-- The rose trees of the children, slot by slot. -/
def roses (t : Tree α) (v : Nat) : List (List (Rose α)) := (t.slots v).map (List.map t.rose)

lemma rose_eq_node (t : Tree α) (v : Nat) : t.rose v = .node (t.label v) (t.roses v) :=
  t.rose_eq v

lemma map_rose_congr {f : Nat → Nat} (h : ∀ c ∈ u.children v, t.rose (f c) = u.rose c) :
    ((u.slots v).map (List.map f)).map (List.map t.rose) = u.roses v := by
  rw [roses, List.map_map]
  refine List.map_congr_left fun cs hcs => ?_
  rw [Function.comp_apply, List.map_map]
  refine List.map_congr_left fun c hc => h c ?_
  rw [children_eq_flatten]
  exact List.mem_flatten.2 ⟨cs, hcs, hc⟩

lemma roses_congr (h : ∀ c ∈ u.children v, t.rose c = u.rose c) :
    (u.slots v).map (List.map t.rose) = u.roses v := by
  simpa using map_rose_congr (f := id) h

/-! ### Hanging a tree -/

/-- What is hung keeps its rose tree. -/
lemma rose_attach_add (h : s < t.slotCount p) (hw : w < u.size) :
    (t.attach p s u).rose (t.size + w) = u.rose w := by
  induction w using u.induction_children with
  | node w ih =>
    rw [rose_eq_node, rose_eq_node, label_attach_add h hw, roses, slots_attach_add h hw,
      map_rose_congr fun c hc => ih c hc (u.child_lt_size hc)]

/-- A node that is not above the place where a tree is hung keeps its rose tree. -/
lemma rose_attach_of_not_below (h : s < t.slotCount p) (hv : v < t.size)
    (hp : ¬ t.Below v p) : (t.attach p s u).rose v = t.rose v := by
  induction v using t.induction_children with
  | node v ih =>
    have hne : p ≠ v := by
      rintro rfl
      exact hp (.refl p)
    rw [rose_eq_node, rose_eq_node, label_attach_of_lt h hv, roses, slots_attach_of_lt h hv,
      if_neg hne,
      roses_congr fun c hc => ih c hc (t.child_lt_size hc) fun hc' => hp (.of_child hc hc')]

/-- The root gets what is hung under it as a new last child. -/
lemma roses_attach_root (h : s < t.slotCount root) :
    (t.attach root s u).roses root = pushChild (t.roses root) (s, u.rose root) := by
  have hslots : (t.attach root s u).slots root = pushChild (t.slots root) (s, t.size) := by
    rw [slots_attach_of_lt h t.root_lt_size, if_pos rfl]
    rfl
  have hold : (t.slots root).map (List.map (t.attach root s u).rose) = t.roses root :=
    roses_congr fun c hc =>
      rose_attach_of_not_below h (t.child_lt_size hc) (not_below_of_mem_children hc)
  have hnew : (t.attach root s u).rose t.size = u.rose root :=
    rose_attach_add h u.root_lt_size
  rw [roses, hslots, map_pushChild, hold, hnew]

/-! ### A root over subtrees -/

lemma foldl_attach_root {es : List (Nat × Tree α)} (h : ∀ e ∈ es, e.1 < t.slotCount root) :
    (es.foldl (fun t e => t.attach root e.1 e.2) t).label root = t.label root ∧
      (es.foldl (fun t e => t.attach root e.1 e.2) t).roses root =
        (es.map (Prod.map id fun u => u.rose root)).foldl pushChild (t.roses root) := by
  induction es generalizing t with
  | nil => exact ⟨rfl, rfl⟩
  | cons e es ih =>
    obtain ⟨he, hes⟩ := List.forall_mem_cons.1 h
    have hcount := slotCount_attach_of_lt (u := e.2) he t.root_lt_size
    obtain ⟨hlabel, hroses⟩ := ih (t := t.attach root e.1 e.2) (by rwa [hcount])
    rw [List.foldl_cons, hlabel, hroses, label_attach_of_lt he t.root_lt_size,
      roses_attach_root he]
    exact ⟨rfl, rfl⟩

lemma size_foldl_attach_root {es : List (Nat × Tree α)} (h : ∀ e ∈ es, e.1 < t.slotCount root) :
    (es.foldl (fun t e => t.attach root e.1 e.2) t).size = t.size + (es.map (·.2.size)).sum := by
  induction es generalizing t with
  | nil => rfl
  | cons e es ih =>
    obtain ⟨he, hes⟩ := List.forall_mem_cons.1 h
    have hcount := slotCount_attach_of_lt (u := e.2) he t.root_lt_size
    rw [List.foldl_cons, ih (t := t.attach root e.1 e.2) (by rwa [hcount]), size_attach he,
      List.map_cons, List.sum_cons, Nat.add_assoc]

lemma ofSubtrees_eq (a : α) (slots : List (List (Tree α))) :
    ofSubtrees a slots =
      (placed slots).foldl (fun t e => t.attach root e.1 e.2) (single a slots.length) := by
  rw [placed, List.foldl_flatMap, ofSubtrees]
  simp only [List.foldl_map]

/-- The root has a slot for every given subtree. -/
lemma lt_slotCount_of_mem_placed (a : α) {slots : List (List (Tree α))} :
    ∀ e ∈ placed slots, e.1 < (single a slots.length).slotCount root := by
  intro e he
  rw [slotCount, slots_single_root, List.length_replicate]
  exact lt_length_of_mem_placed he

/-- The children of the root are the given subtrees. -/
theorem rose_ofSubtrees (a : α) (slots : List (List (Tree α))) :
    (ofSubtrees a slots).rose root =
      .node a (slots.map (List.map fun u => u.rose root)) := by
  have hbare : (single a slots.length).roses root =
      List.replicate (slots.map (List.map fun u => u.rose root)).length [] := by
    rw [List.length_map]
    exact List.map_replicate
  obtain ⟨hlabel, hroses⟩ := foldl_attach_root (lt_slotCount_of_mem_placed a)
  rw [rose_eq_node, ofSubtrees_eq, hlabel, hroses, hbare, ← placed_map, foldl_pushChild_placed]
  rfl

/-! ### Copying out -/

/-- If nothing is cut off, a finished copy has the rose trees of what was copied. -/
lemma Copying.rose_eq {copy : Tree α} {names : List Nat}
    (h : Copying t (fun _ => false) [] copy names) {i : Nat} (hi : names[i]? = some v) :
    copy.rose i = t.rose v := by
  induction i using copy.induction_children generalizing v with
  | node i ih =>
    have hslots : sourceSlots copy names i = t.slots v := by
      rw [h.slots_eq i v hi, if_neg (by simp)]
    have hchildren : ∀ c ∈ copy.children i, t.rose (names.getD c 0) = copy.rose c := by
      intro c hc
      have hlt : c < names.length := h.named.length_eq ▸ copy.child_lt_size hc
      rw [List.getD_eq_getElem _ 0 hlt]
      exact (ih c hc (List.getElem?_eq_getElem hlt)).symm
    rw [rose_eq_node, rose_eq_node, h.named.label_eq i v hi, roses.eq_1 t, ← hslots, sourceSlots,
      map_rose_congr hchildren]

/-- A subtree on its own has the rose tree of the node it was copied from. -/
theorem rose_subtree (t : Tree α) (v : Nat) : (t.subtree v).rose root = t.rose v :=
  ((copying_start t (fun _ => false) v).copyUntil []).rose_eq rfl

/-- The root of a subtree on its own is alike the node it was copied from. -/
lemma alike_subtree (t : Tree α) (v : Nat) : Alike Eq (t.subtree v) t root v :=
  .of_rose_eq (t.rose_subtree v)

end TreeGrammar.Tree
