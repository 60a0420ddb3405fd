/-
# Labelled trees kept in an array

A tree is an array of nodes, addressed by position.  Every node has a label and a fixed
number of child slots, and every slot holds an ordered list of children.  Two nodes with
the same label and the same subtrees are still two nodes: whatever is recorded per node
is recorded per position.

The root stands at position 0.  A child stands after its parent, and every position but
the root's is a child exactly once; the type `Tree` carries both facts, so that walks
over a tree end and never meet a node twice.  A tree grows in one way only, by hanging a
copy of another tree under one of its slots (`Tree.attach`).
-/
import TreeGrammar.Memory

namespace TreeGrammar

/-- How messages name the node at a position. -/
def nodeName (v : Nat) : String := "NodeId(" ++ toString v ++ ")"

/-- A label and, slot by slot, the children in order. -/
structure Node (α : Type) where
  /-- What the node is called. -/
  label : α
  /-- The children, one list for each slot. -/
  slots : List (List Nat)
deriving DecidableEq

namespace Node

variable {α : Type}

/-- The children of all slots, slot after slot. -/
def children (n : Node α) : List Nat := n.slots.flatten

/-- A node with `k` slots and no child. -/
def bare (label : α) (k : Nat) : Node α := ⟨label, List.replicate k []⟩

/-- The node with `c` as a new last child in slot `s`. -/
def addChild (n : Node α) (s : Nat) (c : Nat) : Node α :=
  { n with slots := n.slots.modify s (· ++ [c]) }

/-- The node with every child moved `k` positions on. -/
def shift (n : Node α) (k : Nat) : Node α :=
  { n with slots := n.slots.map fun ids => ids.map (· + k) }

@[simp] theorem children_bare (label : α) (k : Nat) : (bare label k).children = [] := by
  simp [children, bare]

@[simp] theorem children_shift (n : Node α) (k : Nat) :
    (n.shift k).children = n.children.map (· + k) := by
  simp [children, shift, List.map_flatten]

end Node

/-- All links of an array of nodes: the children of all nodes, node after node. -/
def links {α : Type} (nodes : Array (Node α)) : List Nat :=
  nodes.toList.flatMap Node.children

/-- Changing one member so that its image gains `c` makes the whole image gain `c`. -/
theorem flatMap_modify_perm {β γ : Type} {g : β → List γ} {f : β → β} {c : γ}
    {l : List β} {i : Nat} {b : β} (hi : l[i]? = some b)
    (hf : (g (f b)).Perm (g b ++ [c])) :
    ((l.modify i f).flatMap g).Perm (l.flatMap g ++ [c]) := by
  induction l generalizing i with
  | nil => simp at hi
  | cons a l ih =>
    cases i with
    | zero =>
      obtain rfl : a = b := by simpa using hi
      simp only [List.modify_zero_cons, List.flatMap_cons, List.append_assoc]
      refine (hf.append_right _).trans ?_
      rw [List.append_assoc]
      exact List.perm_append_comm.append_left _
    | succ i =>
      simp only [List.modify_succ_cons, List.flatMap_cons, List.append_assoc]
      exact (ih (by simpa using hi)).append_left _

namespace Node

variable {α : Type}

theorem children_addChild_perm (n : Node α) {s : Nat} (h : s < n.slots.length) (c : Nat) :
    (n.addChild s c).children.Perm (n.children ++ [c]) := by
  have := flatMap_modify_perm (g := id) (f := (· ++ [c])) (c := c)
    (List.getElem?_eq_getElem h) (List.Perm.refl _)
  simpa [children, addChild, List.flatMap_id] using this

end Node

/-- A rooted ordered tree of labelled nodes with child slots. -/
structure Tree (α : Type) where
  /-- The nodes, the root first. -/
  nodes : Array (Node α)
  /-- There is a root. -/
  nonempty : 0 < nodes.size
  /-- Children stand after their parent. -/
  forward : ∀ (v : Nat) (n : Node α), nodes[v]? = some n → ∀ c ∈ n.children, v < c
  /-- Every position but the root's is a child exactly once. -/
  links_perm : (links nodes).Perm (List.range' 1 (nodes.size - 1))

/-- Why a tree cannot be hung where it was asked to be. -/
inductive TreeError where
  /-- The parent is no node of the tree, which has `size` nodes. -/
  | unknownNode (node : Nat) (size : Nat)
  /-- The parent has `count` slots, and `slot` is none of them. -/
  | invalidSlot (node : Nat) (slot count : Nat)
deriving DecidableEq

/-- The wording of a `TreeError`. -/
def TreeError.message : TreeError → String
  | .unknownNode node size =>
    "Unknown node: " ++ nodeName node ++ " (tree has " ++ toString size ++ " nodes)"
  | .invalidSlot node slot count =>
    "Invalid property " ++ toString slot ++ " on " ++ nodeName node ++
      " (node has " ++ toString count ++ " properties)"

/-- Why a tree does not get another node: there is no such place, or no room for its slots. -/
inductive NodeError where
  | place (e : TreeError)
  | room (e : NoRoom)
deriving DecidableEq

namespace Tree

variable {α : Type}

/-! ### Looking at a tree

An id that is no position of the tree is read as a childless node without slots, under the
root's label; `contains` tells such ids apart. -/

/-- The position of the root. -/
def root : Nat := 0

/-- Number of nodes. -/
def size (t : Tree α) : Nat := t.nodes.size

/-- Whether `v` is a position of the tree. -/
def contains (t : Tree α) (v : Nat) : Bool := decide (v < t.size)

/-- All positions, in order. -/
def ids (t : Tree α) : List Nat := List.range t.size

/-- The label of the root. -/
def rootLabel (t : Tree α) : α :=
  have := t.nonempty
  t.nodes[0].label

/-- The node at a position. -/
def node (t : Tree α) (v : Nat) : Node α := t.nodes[v]?.getD (.bare t.rootLabel 0)

/-- The label of a node. -/
def label (t : Tree α) (v : Nat) : α := (t.node v).label

/-- The children of a node, slot by slot. -/
def slots (t : Tree α) (v : Nat) : List (List Nat) := (t.node v).slots

/-- Number of slots of a node. -/
def slotCount (t : Tree α) (v : Nat) : Nat := (t.slots v).length

/-- The children in one slot; a slot that the node lacks is empty. -/
def slot (t : Tree α) (v : Nat) (s : Nat) : List Nat := (t.slots v).getD s []

/-- The child at place `i` of slot `s`. -/
def child? (t : Tree α) (v : Nat) (s i : Nat) : Option Nat := (t.slot v s)[i]?

/-- The children of all slots, slot after slot. -/
def children (t : Tree α) (v : Nat) : List Nat := (t.node v).children

/-- Whether no slot of the node holds a child. -/
def isLeaf (t : Tree α) (v : Nat) : Bool := (t.slots v).all List.isEmpty

theorem size_pos (t : Tree α) : 0 < t.size := t.nonempty

theorem root_lt_size (t : Tree α) : root < t.size := t.nonempty

theorem children_eq_flatten (t : Tree α) (v : Nat) :
    t.children v = (t.slots v).flatten := rfl

theorem node_of_lt (t : Tree α) {v : Nat} (h : v < t.nodes.size) :
    t.node v = t.nodes[v] := by
  simp [node, h]

theorem slots_of_size_le (t : Tree α) {v : Nat} (h : t.size ≤ v) : t.slots v = [] := by
  simp [slots, node, Array.getElem?_eq_none h, Node.bare]

theorem children_of_size_le (t : Tree α) {v : Nat} (h : t.size ≤ v) :
    t.children v = [] := by
  simp [children_eq_flatten, t.slots_of_size_le h]

theorem lt_size_of_mem_children (t : Tree α) {v c : Nat} (h : c ∈ t.children v) :
    v < t.size := by
  apply Nat.lt_of_not_le
  intro hv
  simp [t.children_of_size_le hv] at h

theorem mem_links_of_mem_children (t : Tree α) {v c : Nat} (h : c ∈ t.children v) :
    c ∈ links t.nodes := by
  have hv := t.lt_size_of_mem_children h
  rw [children, t.node_of_lt hv] at h
  exact List.mem_flatMap.2 ⟨_, Array.getElem_mem_toList hv, h⟩

/-- A child stands after its parent. -/
theorem lt_of_mem_children (t : Tree α) {v c : Nat} (h : c ∈ t.children v) : v < c := by
  have hv := t.lt_size_of_mem_children h
  rw [children, t.node_of_lt hv] at h
  exact t.forward v _ (Array.getElem?_eq_getElem hv) c h

/-- A child is a node of the tree. -/
theorem child_lt_size (t : Tree α) {v c : Nat} (h : c ∈ t.children v) : c < t.size := by
  have := t.links_perm.mem_iff.1 (t.mem_links_of_mem_children h)
  have hs := t.nonempty
  simp only [List.mem_range'_1] at this
  simp only [size]
  omega

theorem isLeaf_iff (t : Tree α) (v : Nat) : t.isLeaf v = true ↔ t.children v = [] := by
  simp [isLeaf, children_eq_flatten, List.flatten_eq_nil_iff]

/-! ### Growing a tree -/

/-- The tree of a single node with `k` empty slots. -/
def single (label : α) (k : Nat) : Tree α where
  nodes := #[.bare label k]
  nonempty := by simp
  forward v n h c hc := by
    have : n = .bare label k := by
      cases v with
      | zero => simpa using h.symm
      | succ v => simp at h
    simp [this] at hc
  links_perm := by simp [links]

/-- The tree of a single node without slots. -/
def leaf (label : α) : Tree α := single label 0

theorem links_append (xs ys : Array (Node α)) : links (xs ++ ys) = links xs ++ links ys := by
  simp [links]

theorem links_shift (xs : Array (Node α)) (k : Nat) :
    links (xs.map (·.shift k)) = (links xs).map (· + k) := by
  simp [links, List.flatMap_map, List.map_flatMap]

theorem links_modify_perm {nodes : Array (Node α)} {p s : Nat} {n : Node α}
    (hp : nodes[p]? = some n) (hs : s < n.slots.length) (c : Nat) :
    (links (nodes.modify p (·.addChild s c))).Perm (links nodes ++ [c]) := by
  have hp' : nodes.toList[p]? = some n := by simpa using hp
  simpa [links] using
    flatMap_modify_perm (g := Node.children) hp' (n.children_addChild_perm hs c)

theorem node?_of_lt_slots (t : Tree α) {p s : Nat} (h : s < (t.slots p).length) :
    t.nodes[p]? = some (t.node p) := by
  have hp : p < t.size := by
    apply Nat.lt_of_not_le
    intro hp
    simp [t.slots_of_size_le hp] at h
  rw [t.node_of_lt hp]
  exact Array.getElem?_eq_getElem hp

/-- The nodes of `t` with those of `u` behind them, the root of `u` being a new last child
of `p` in slot `s`. -/
def joined (t : Tree α) (p s : Nat) (u : Tree α) : Array (Node α) :=
  let k := t.size
  t.nodes.modify p (·.addChild s k) ++ u.nodes.map (·.shift k)

theorem size_joined (t : Tree α) (p s : Nat) (u : Tree α) :
    (t.joined p s u).size = t.size + u.size := by
  simp [joined, size]

theorem joined_forward (t : Tree α) {p s : Nat} (u : Tree α) (h : s < (t.slots p).length)
    (v : Nat) (n : Node α) (hn : (t.joined p s u)[v]? = some n) (c : Nat)
    (hc : c ∈ n.children) : v < c := by
  have hp := t.node?_of_lt_slots h
  have hpt : p < t.nodes.size := (Array.getElem?_eq_some_iff.1 hp).1
  rw [joined, Array.getElem?_append] at hn
  split at hn
  case isTrue hv =>
    rw [Array.size_modify] at hv
    rw [Array.getElem?_modify] at hn
    split at hn
    case isTrue hpv =>
      subst hpv
      rw [hp, Option.map_some, Option.some.injEq] at hn
      subst hn
      rcases List.mem_append.1 ((Node.children_addChild_perm _ h _).mem_iff.1 hc) with hc | hc
      · exact t.forward p _ hp c hc
      · rw [List.mem_singleton.1 hc]
        exact hpt
    case isFalse => exact t.forward v n hn c hc
  case isFalse hv =>
    rw [Array.size_modify] at hv hn
    rw [Array.getElem?_map] at hn
    obtain ⟨m, hm, rfl⟩ := Option.map_eq_some_iff.1 hn
    rw [Node.children_shift, List.mem_map] at hc
    obtain ⟨d, hd, rfl⟩ := hc
    have := u.forward _ m hm d hd
    simp only [size]
    omega

theorem joined_links_perm (t : Tree α) {p s : Nat} (u : Tree α)
    (h : s < (t.slots p).length) :
    (links (t.joined p s u)).Perm (List.range' 1 ((t.joined p s u).size - 1)) := by
  rw [size_joined, joined, links_append, links_shift]
  have ht := (links_modify_perm (t.node?_of_lt_slots h) h t.size).trans
    (t.links_perm.append_right _)
  have hu : ((links u.nodes).map (· + t.size)).Perm
      (List.range' (t.size + 1) (u.size - 1)) := by
    refine (u.links_perm.map _).trans (List.Perm.of_eq ?_)
    rw [show (fun x => x + t.size) = (t.size + ·) from funext fun x => Nat.add_comm ..,
      List.map_add_range']
    rfl
  refine (ht.append hu).trans (List.Perm.of_eq ?_)
  have h1 := t.size_pos
  have h2 := u.size_pos
  obtain ⟨a, ha⟩ : ∃ a, t.size = a + 1 := ⟨t.size - 1, by omega⟩
  obtain ⟨b, hb⟩ : ∃ b, u.size = b + 1 := ⟨u.size - 1, by omega⟩
  have hn : t.nodes.size = a + 1 := ha
  rw [ha, hb, hn, List.append_assoc]
  simp only [Nat.add_sub_cancel]
  rw [show a + 1 + (b + 1) - 1 = a + (1 + b) by omega, ← List.range'_append_1,
    ← List.range'_append_1]
  simp [Nat.add_comm]

/-- `t` with a copy of `u` hung under node `p`, as the last child in slot `s`.  Where there
is no such slot the tree stays as it is. -/
def attach (t : Tree α) (p s : Nat) (u : Tree α) : Tree α :=
  if h : s < (t.slots p).length then
    { nodes := t.joined p s u
      nonempty := by have := t.size_pos; rw [size_joined]; omega
      forward := t.joined_forward u h
      links_perm := t.joined_links_perm u h }
  else t

/-- Hangs a copy of `u` under node `p`, as the last child in slot `s`: the position of the
copy's root, and the grown tree. -/
def graft (t : Tree α) (p s : Nat) (u : Tree α) : Except TreeError (Nat × Tree α) :=
  if t.contains p then
    let count := t.slotCount p
    if s < count then
      let v := t.size
      .ok (v, t.attach p s u)
    else .error (.invalidSlot p s count)
  else .error (.unknownNode p t.size)

/-- Adds a node with `k` empty slots under node `p`, as the last child in slot `s`. -/
def addChild (t : Tree α) (p s : Nat) (label : α) (k : Nat) :
    Except TreeError (Nat × Tree α) :=
  t.graft p s (single label k)

/-- A root over the given subtrees, one list for each slot; the nodes of the subtrees follow
the root, subtree after subtree. -/
def ofSubtrees (label : α) (slots : List (List (Tree α))) : Tree α :=
  slots.zipIdx.foldl (fun t (us, s) => us.foldl (fun t u => t.attach root s u) t)
    (single label slots.length)

/-! ### Room for slots -/

/-- What a slot takes, which is kept as a list of positions. -/
def slotBytes : Nat := 24

/-- The tree of a single node with `k` empty slots, if there is room for them. -/
def new (label : α) (k : Nat) : Except NoRoom (Tree α) := do
  setAside slotBytes k
  return single label k

/-- Adds a node under node `p` as `addChild` does, if there is room for its slots.  Whether there
is such a place is found out first. -/
def addNode (t : Tree α) (p s : Nat) (label : α) (k : Nat) :
    Except NodeError (Nat × Tree α) := do
  let _ ← (t.addChild p s label 0).mapError .place
  (setAside slotBytes k).mapError .room
  (t.addChild p s label k).mapError .place

end Tree

end TreeGrammar
