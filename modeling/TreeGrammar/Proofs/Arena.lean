/-
# Arenas that are trees

The operations on arenas do nothing but what the operations on trees do.  Nodes are linked in the
same way (`Arena.graft_nodes`, `Arena.addChild_nodes`, `Arena.ofSubtrees_nodes`), and a copying
loop runs as the strict loop does, which stops at the first position that is no node and never
comes to one (`Arena.copyUntil_of_strictCopyUntil`).  So whatever the operations make of one
another, beginning with single nodes, are the nodes of some tree (`Arena.Built.exists_nodes_eq`):
every node but the first is linked once, by an earlier one, and there is one path to it
(`Arena.isTree_of_built`).
-/
import TreeGrammar.Proofs.Corpus.Pieces
import TreeGrammar.Proofs.Tree.Paths
import TreeGrammar.Proofs.Tree.Rose
import TreeGrammar.Tree.Arena

namespace TreeGrammar

namespace Arena

variable {α : Type} {t u : Tree α} {p s v : Nat}

/-! ### Looking -/

lemma getElem?_nodes (h : v < t.size) : t.nodes[v]? = some (t.node v) := by
  rw [t.node_of_lt h]
  exact Array.getElem?_eq_getElem h

lemma lt_size_of_getElem?_eq_some {n : Node α} (h : t.nodes[v]? = some n) : v < t.size :=
  (Array.getElem?_eq_some_iff.1 h).1

lemma child?_nodes (t : Tree α) (v s i : Nat) : child? t.nodes v s i = t.child? v s i := by
  rw [child?, Tree.child?, Tree.slot]
  by_cases hv : v < t.size
  · rw [getElem?_nodes hv]
    rfl
  · rw [t.slots_of_size_le (Nat.le_of_not_lt hv),
      Array.getElem?_eq_none (Nat.le_of_not_lt hv)]
    rfl

lemma follow_nodes (t : Tree α) (v : Nat) (path : List (Nat × Nat)) :
    follow t.nodes v path = t.follow v path := by
  rw [follow, Tree.follow]
  simp only [child?_nodes]

lemma hasSlot_nodes : hasSlot t.nodes p s = true ↔ s < t.slotCount p := by
  rw [hasSlot]
  by_cases hp : p < t.size
  · rw [getElem?_nodes hp]
    exact decide_eq_true_iff
  · rw [Array.getElem?_eq_none (Nat.le_of_not_lt hp), Tree.slotCount,
      t.slots_of_size_le (Nat.le_of_not_lt hp)]
    simp

lemma walk_nodes (t : Tree α) (todo seen : List Nat) (h : ∀ v ∈ todo, v < t.size) :
    walk t.nodes todo seen = some (t.walk todo seen) := by
  induction todo, seen using Tree.walk.induct t with
  | case1 seen => rw [walk, Tree.walk]
  | case2 v todo seen ih =>
    obtain ⟨hv, htodo⟩ := List.forall_mem_cons.1 h
    have hnext : ∀ w ∈ (t.children v).reverse ++ todo, w < t.size := by
      intro w hw
      rcases List.mem_append.1 hw with hw | hw
      · exact t.child_lt_size (List.mem_reverse.1 hw)
      · exact htodo w hw
    rw [walk, Tree.walk, getElem?_nodes hv]
    exact ih hnext

/-! ### Growing -/

/-- A link from a node of the tree does not touch what is behind the tree. -/
lemma link_append (h : s < t.slotCount p) (ys : Array (Node α)) (c : Nat) :
    link (t.nodes ++ ys) p s c = some (t.nodes.modify p (·.addChild s c) ++ ys) := by
  have hp : p < t.size := Tree.lt_size_of_lt_slotCount h
  have hslot : hasSlot (t.nodes ++ ys) p s = true := by
    rw [hasSlot, Array.getElem?_append_left hp, ← hasSlot, hasSlot_nodes]
    exact h
  rw [link, if_pos hslot]
  congr 1
  apply Array.ext_getElem?
  intro i
  rw [Array.getElem?_modify, Array.getElem?_append, Array.getElem?_append, Array.size_modify,
    Array.getElem?_modify]
  by_cases hi : i < t.nodes.size
  · simp [hi]
  · have hne : p ≠ i := fun hpi => hi (hpi ▸ hp)
    simp [hi, hne]

lemma link_append_nodes (h : s < t.slotCount p) (u : Tree α) :
    link (append t.nodes u.nodes) p s t.size = some (t.attach p s u).nodes := by
  rw [append, Tree.nodes_attach h]
  exact link_append h _ t.size

/-- A grafted tree hangs in the arena where it hangs in the tree, and fails to where it does. -/
theorem graft_nodes (t : Tree α) (p s : Nat) (u : Tree α) :
    graft t.nodes p s u.nodes = (t.graft p s u).toOption.map fun g => (g.1, g.2.nodes) := by
  rw [graft]
  by_cases h : s < t.slotCount p
  · rw [if_pos (hasSlot_nodes.2 h), Tree.graft_of_lt h]
    show (link (append t.nodes u.nodes) p s t.size).bind _ = _
    rw [link_append_nodes h]
    rfl
  · obtain ⟨e, he⟩ := Tree.graft_of_not_lt (u := u) h
    rw [if_neg (mt hasSlot_nodes.1 h), he]
    rfl

lemma link_push_bare (h : s < t.slotCount p) (label : α) (k : Nat) :
    link (t.nodes.push (.bare label k)) p s t.size =
      some (t.attach p s (.single label k)).nodes := by
  rw [← link_append_nodes h]
  simp [append, Tree.single, Node.bare, Node.shift]

lemma hang_nodes (h : s < t.slotCount p) (label : α) (k : Nat) :
    hang t.nodes p s label k = some (t.size, (t.attach p s (.single label k)).nodes) := by
  show (link (t.nodes.push (.bare label k)) p s t.size).bind _ = _
  rw [link_push_bare h]
  rfl

theorem addChild_nodes (t : Tree α) (p s : Nat) (label : α) (k : Nat) :
    addChild t.nodes p s label k =
      (t.addChild p s label k).toOption.map fun g => (g.1, g.2.nodes) := by
  rw [addChild, Tree.addChild]
  by_cases h : s < t.slotCount p
  · rw [if_pos (hasSlot_nodes.2 h), hang_nodes h, Tree.graft_of_lt h]
    rfl
  · obtain ⟨e, he⟩ := Tree.graft_of_not_lt (u := .single label k) h
    rw [if_neg (mt hasSlot_nodes.1 h), he]
    rfl

lemma foldlM_link_nodes {es : List (Nat × Tree α)} (h : ∀ e ∈ es, e.1 < t.slotCount Tree.root) :
    es.foldlM (fun xs e => link (append xs e.2.nodes) Tree.root e.1 xs.size) t.nodes =
      some (es.foldl (fun t e => t.attach Tree.root e.1 e.2) t).nodes := by
  induction es generalizing t with
  | nil => rfl
  | cons e es ih =>
    obtain ⟨he, hes⟩ := List.forall_mem_cons.1 h
    have hcount := Tree.slotCount_attach_of_lt (u := e.2) he t.root_lt_size
    have hlink := link_append_nodes he e.2
    rw [List.foldlM_cons, List.foldl_cons, ← ih (t := t.attach Tree.root e.1 e.2) (by rwa [hcount])]
    show (link (append t.nodes e.2.nodes) Tree.root e.1 t.size).bind _ = _
    rw [hlink]
    rfl

lemma ofSubtrees_nodes (label : α) (slots : List (List (Tree α))) :
    ofSubtrees label (slots.map (List.map Tree.nodes)) =
      some (Tree.ofSubtrees label slots).nodes := by
  rw [ofSubtrees]
  refine (foldlM_placed (fun xs e => link (append xs e.2) Tree.root e.1 xs.size) _ _).trans ?_
  rw [placed_map, List.foldlM_map, List.length_map, Tree.ofSubtrees_eq,
    ← foldlM_link_nodes (Tree.lt_slotCount_of_mem_placed label)]
  rfl

/-! ### Copying -/

/-- What makes a step of one computation makes a step of the other. -/
lemma foldlM_of_foldlM {σ τ β ε : Type} {f : σ → β → Except ε σ} {g : τ → β → Option τ}
    {φ : σ → τ} (h : ∀ st st' x, f st x = .ok st' → g (φ st) x = some (φ st')) {xs : List β}
    {st st' : σ} (hf : xs.foldlM f st = .ok st') : xs.foldlM g (φ st) = some (φ st') := by
  induction xs generalizing st with
  | nil =>
    cases hf
    rfl
  | cons x xs ih =>
    rw [List.foldlM_cons] at hf
    obtain ⟨st₁, h₁, hf⟩ := bind_eq_ok.1 hf
    rw [List.foldlM_cons, h _ _ _ h₁]
    exact ih hf

/-- Where the parent has the slot, `grow` hangs a single node there. -/
def Grows (grow : Arena α → Nat → Nat → α → Nat → Option (Nat × Arena α)) : Prop :=
  ∀ (t : Tree α) (p s : Nat) (label : α) (k : Nat), s < t.slotCount p →
    grow t.nodes p s label k = some (t.size, (t.attach p s (.single label k)).nodes)

lemma grows_hang : Grows (α := α) hang := fun _ _ _ label k h => hang_nodes h label k

lemma grows_addChild : Grows (α := α) addChild := by
  intro t p s label k h
  rw [addChild, if_pos (hasSlot_nodes.2 h), hang_nodes h]

/-- The state of a copying loop as it is in the arena. -/
def ofState (st : Tree α × List (Nat × Nat)) : Arena α × List (Nat × Nat) := (st.1.nodes, st.2)

variable {grow : Arena α → Nat → Nat → α → Nat → Option (Nat × Arena α)} {last : Nat}

lemma copyChild_of_strictHang (hgrow : Grows grow) {dst s c : Nat}
    {st st' : Tree α × List (Nat × Nat)} (h : t.strictHang last dst s st c = .ok st') :
    copyChild grow t.nodes dst s (ofState st) c = some (ofState st') := by
  obtain ⟨_, hguard, h⟩ := bind_eq_ok.1 h
  obtain ⟨grown, hgrown, h⟩ := bind_eq_ok.1 h
  cases h
  obtain ⟨hslot, rfl⟩ := Tree.attach_of_addChildUpTo (mapError_eq_ok.1 hgrown)
  rw [copyChild, getElem?_nodes (Tree.lt_size_of_guard hguard)]
  show (grow st.1.nodes dst s (t.label c) (t.slotCount c)).bind _ = _
  rw [hgrow _ _ _ _ _ hslot]
  rfl

lemma copyChildren_of_strictHangAll (hgrow : Grows grow) {src dst : Nat} (hsrc : src < t.size)
    {st st' : Tree α × List (Nat × Nat)} (h : t.strictHangAll last src dst st = .ok st') :
    copyChildren grow t.nodes src dst (ofState st) = some (ofState st') := by
  have hslot : ∀ (st st' : Tree α × List (Nat × Nat)) (e : List Nat × Nat),
      e.1.foldlM (t.strictHang last dst e.2) st = .ok st' →
      e.1.foldlM (copyChild grow t.nodes dst e.2) (ofState st) = some (ofState st') :=
    fun _ _ _ h => foldlM_of_foldlM (fun _ _ _ => copyChild_of_strictHang hgrow) h
  rw [copyChildren, getElem?_nodes hsrc]
  exact foldlM_of_foldlM hslot h

/-- `stop` with a check. -/
def guarded (t : Tree α) (stop : Nat → Bool) (v : Nat) : Strict GrowthError Bool := do
  t.guard v
  return stop v

variable {stop : Nat → Bool}

lemma guarded_eq (h : v < t.size) : guarded t stop v = .ok (stop v) := by
  rw [guarded, t.guard_of_lt h]
  rfl

lemma guarded_eq_ok {b : Bool} (h : guarded t stop v = .ok b) : v < t.size ∧ stop v = b := by
  obtain ⟨_, hguard, h⟩ := bind_eq_ok.1 h
  cases h
  exact ⟨Tree.lt_size_of_guard hguard, rfl⟩

/-- Where a strict copy comes to an end, so does the copy in the arena. -/
theorem copyUntil_of_strictCopyUntil (hgrow : Grows grow) {todo : List (Nat × Nat)}
    {copy : Tree α} {cut : List Nat} {p : Tree α × List Nat}
    (h : t.strictCopyUntil last (guarded t stop) todo copy cut = .ok p) (queue : List Nat) :
    copyUntil grow t.nodes stop todo copy.nodes (queue ++ cut.reverse) =
      some (p.1.nodes, queue ++ p.2.reverse) := by
  induction todo, copy, cut using Tree.strictCopyUntil.induct last t (guarded t stop) with
  | case1 copy cut =>
    rw [Tree.strictCopyUntil] at h
    cases h
    rw [copyUntil]
  | case2 src dst todo copy cut e hstop =>
    rw [Tree.strictCopyUntil, hstop] at h
    cases h
  | case3 src dst todo copy cut hstop ih =>
    obtain ⟨hsrc, hstops⟩ := guarded_eq_ok hstop
    rw [Tree.strictCopyUntil_of_stop hstop] at h
    have hrest := ih h
    rw [List.reverse_append, List.reverse_reverse, ← List.append_assoc] at hrest
    rw [copyUntil, if_pos hstops, getElem?_nodes hsrc]
    exact hrest
  | case4 src dst todo copy cut hstop e hhang =>
    rw [Tree.strictCopyUntil_of_not_stop hstop, hhang] at h
    cases h
  | case5 src dst todo copy cut hstop st hhang ih =>
    obtain ⟨hsrc, hstops⟩ := guarded_eq_ok hstop
    rw [Tree.strictCopyUntil_of_not_stop hstop, hhang] at h
    have hchildren := copyChildren_of_strictHangAll hgrow hsrc hhang
    rw [copyUntil, if_neg (by simp [hstops])]
    show (copyChildren grow t.nodes src dst (ofState (copy, todo))).bind _ = _
    rw [hchildren]
    exact ih h

/-- Nodes are copied out of a tree, and queue up, as they should. -/
theorem prune_nodes (hgrow : Grows grow) (h : v < t.size) (stop : Nat → Bool)
    (queue : List Nat) :
    prune grow t.nodes stop v queue =
      some ((t.prune stop v).1.nodes, queue ++ (t.prune stop v).2) := by
  have hstop : ∀ w < t.size, guarded t stop w = .ok (stop w) := fun w hw => guarded_eq hw
  have hstrict := Tree.strictPrune_eq hstop (Nat.le_succ t.size) h
  obtain ⟨-, -, hstrict⟩ := bind_eq_ok.1 hstrict
  obtain ⟨p, hcopy, hp⟩ := bind_eq_ok.1 hstrict
  have hrun := copyUntil_of_strictCopyUntil hgrow hcopy queue
  rw [List.reverse_nil, List.append_nil] at hrun
  rw [prune, getElem?_nodes h, ← Except.ok.inj hp]
  exact hrun

theorem subtree_nodes (t : Tree α) (v : Nat) :
    subtree t.nodes v = if t.contains v then some (t.subtree v).nodes else none := by
  rw [subtree]
  split
  case isTrue hv =>
    rw [prune_nodes grows_hang (by simpa [Tree.contains] using hv)]
    rfl
  case isFalse hv =>
    have hv : t.size ≤ v := by simpa [Tree.contains] using hv
    rw [prune, Array.getElem?_eq_none hv]
    rfl

theorem oneLevel_nodes (t : Tree α) (v : Nat) :
    oneLevel t.nodes v = if t.contains v then some (t.oneLevel v).nodes else none := by
  rw [oneLevel]
  split
  case isTrue hv =>
    have hv : v < t.size := by simpa [Tree.contains] using hv
    have hroom : (Tree.single (t.label v) (t.slotCount v)).size + (t.children v).length ≤
        (t.children v).length + 1 := by
      rw [Nat.add_comm]
      rfl
    have hstrict := (Tree.copying_start t (fun _ => false) v).strictHangAll_eq hroom
    have hchildren := copyChildren_of_strictHangAll grows_hang hv hstrict
    rw [getElem?_nodes hv]
    show (copyChildren hang t.nodes v Tree.root
      (ofState (Tree.single (t.label v) (t.slotCount v), []))).bind _ = _
    rw [hchildren]
    rfl
  case isFalse hv =>
    have hv : t.size ≤ v := by simpa [Tree.contains] using hv
    rw [Array.getElem?_eq_none hv]
    rfl

lemma splitFrom_nodes (t : Tree α) (stop : Nat → Bool) (queue : List Nat)
    (hqueue : ∀ v ∈ queue, v < t.size) (out : List (Tree α)) :
    splitFrom t.nodes stop queue (out.map Tree.nodes) =
      some ((t.splitFrom stop queue out).map Tree.nodes) := by
  induction queue, out using Tree.splitFrom.induct t stop with
  | case1 out => rw [splitFrom, Tree.splitFrom, List.map_reverse]
  | case2 v queue out p ih =>
    obtain ⟨hv, hqueue⟩ := List.forall_mem_cons.1 hqueue
    have hnext : ∀ w ∈ queue ++ p.2, w < t.size := by
      intro w hw
      rcases List.mem_append.1 hw with hw | hw
      · exact hqueue w hw
      · exact Tree.lt_size_of_mem_cutOff (t.prune_snd stop v ▸ hw)
    have hout : (if p.1.isLeaf Tree.root then out.map Tree.nodes
        else p.1.nodes :: out.map Tree.nodes) =
        (if p.1.isLeaf Tree.root then out else p.1 :: out).map Tree.nodes := by
      split
      · rfl
      · rfl
    rw [splitFrom, prune_nodes grows_addChild hv, Tree.splitFrom]
    show (p.1.nodes[Tree.root]?).bind _ = _
    rw [getElem?_nodes p.1.root_lt_size]
    show splitFrom t.nodes stop (queue ++ p.2) (if p.1.isLeaf Tree.root then out.map Tree.nodes
      else p.1.nodes :: out.map Tree.nodes) = _
    rw [hout]
    exact ih hnext

theorem split_nodes (t : Tree α) (stop : Nat → Bool) :
    split t.nodes stop = some ((t.split stop).map Tree.nodes) :=
  splitFrom_nodes t stop [Tree.root] (by simpa using t.root_lt_size) []

/-! ### What makes an arena a tree -/

/-- `c` is in some slot of `v`. -/
def Child (xs : Arena α) (v c : Nat) : Prop := ∃ n, xs[v]? = some n ∧ c ∈ n.children

/-- The nodes of the arena hang together as a tree, with the first one as its root. -/
structure IsTree (xs : Arena α) : Prop where
  nonempty : 0 < xs.size
  /-- Children are there and come later than their parents. -/
  child_range : ∀ v c, xs.Child v c → v < c ∧ c < xs.size
  root_not_mem : Tree.root ∉ links xs
  /-- Every other node is linked once, in one slot of one node. -/
  count_links : ∀ c, Tree.root < c → c < xs.size → (links xs).count c = 1
  existsUnique_path : ∀ v < xs.size, ∃! path, xs.follow Tree.root path = some v
  /-- A walk ends, wherever it begins. -/
  walk_ends : ∀ v < xs.size, ∃ vs, xs.walk [v] [] = some vs
  /-- No way down goes on for ever. -/
  child_wellFounded : WellFounded fun c v => xs.Child v c

lemma child_nodes_iff {c : Nat} : Child t.nodes v c ↔ c ∈ t.children v := by
  constructor
  · rintro ⟨n, hn, hc⟩
    rw [getElem?_nodes (lt_size_of_getElem?_eq_some hn), Option.some.injEq] at hn
    rw [← hn] at hc
    exact hc
  · intro hc
    exact ⟨t.node v, getElem?_nodes (t.lt_size_of_mem_children hc), hc⟩

theorem isTree_nodes (t : Tree α) : IsTree t.nodes where
  nonempty := t.nonempty
  child_range v c hc :=
    have hc := child_nodes_iff.1 hc
    ⟨t.lt_of_mem_children hc, t.child_lt_size hc⟩
  root_not_mem := by
    rw [t.links_perm.mem_iff, List.mem_range'_1]
    exact fun h => absurd h.1 (Nat.not_succ_le_zero 0)
  count_links c hpos hc := by
    refine List.count_eq_one_of_mem t.nodup_links ?_
    rw [t.links_perm.mem_iff, List.mem_range'_1]
    have hpos : 0 < c := hpos
    omega
  existsUnique_path v hv := by
    simp only [follow_nodes]
    exact Tree.existsUnique_path hv
  walk_ends v hv := ⟨_, walk_nodes t [v] [] (by simpa [Tree.size] using hv)⟩
  child_wellFounded := by
    refine ⟨fun v => ?_⟩
    induction v using t.induction_children with
    | node v ih => exact ⟨v, fun c hc => ih c (child_nodes_iff.1 hc)⟩

/-! ### Whatever is built -/

/-- The arenas that the operations make of one another. -/
inductive Built : Arena α → Prop
  | single (label : α) (k : Nat) : Built (single label k)
  | ofSubtrees {label : α} {slots : List (List (Arena α))} {xs : Arena α}
      (hslots : ∀ yss ∈ slots, ∀ ys ∈ yss, Built ys)
      (h : Arena.ofSubtrees label slots = some xs) : Built xs
  | addChild {xs ys : Arena α} {p s k c : Nat} {label : α} (hxs : Built xs)
      (h : Arena.addChild xs p s label k = some (c, ys)) : Built ys
  | graft {xs ys zs : Arena α} {p s c : Nat} (hxs : Built xs) (hys : Built ys)
      (h : Arena.graft xs p s ys = some (c, zs)) : Built zs
  | subtree {xs ys : Arena α} {v : Nat} (hxs : Built xs) (h : Arena.subtree xs v = some ys) :
      Built ys
  | oneLevel {xs ys : Arena α} {v : Nat} (hxs : Built xs) (h : Arena.oneLevel xs v = some ys) :
      Built ys
  | piece {xs ys : Arena α} {stop : Nat → Bool} {pieces : List (Arena α)} (hxs : Built xs)
      (h : Arena.split xs stop = some pieces) (hys : ys ∈ pieces) : Built ys

/-- No operation makes anything but the nodes of a tree. -/
theorem Built.exists_nodes_eq {xs : Arena α} (h : Built xs) : ∃ t : Tree α, t.nodes = xs := by
  induction h with
  | single label k => exact ⟨.single label k, rfl⟩
  | @ofSubtrees label slots _ _ h ih =>
    obtain ⟨slots', rfl⟩ : ∃ slots' : List (List (Tree α)),
        slots'.map (List.map Tree.nodes) = slots := by
      have hmem : slots ∈ Set.range (List.map (List.map (Tree.nodes (α := α)))) := by
        rw [Set.range_list_map]
        intro yss hyss
        rw [Set.range_list_map]
        exact fun ys hys => ih yss hyss ys hys
      exact hmem
    rw [ofSubtrees_nodes] at h
    exact ⟨_, Option.some.inj h⟩
  | addChild _ h ih =>
    obtain ⟨t, rfl⟩ := ih
    rw [addChild_nodes] at h
    obtain ⟨g, -, hg⟩ := Option.map_eq_some_iff.1 h
    exact ⟨g.2, congrArg Prod.snd hg⟩
  | graft _ _ h ihx ihy =>
    obtain ⟨t, rfl⟩ := ihx
    obtain ⟨u, rfl⟩ := ihy
    rw [graft_nodes] at h
    obtain ⟨g, -, hg⟩ := Option.map_eq_some_iff.1 h
    exact ⟨g.2, congrArg Prod.snd hg⟩
  | @subtree _ _ v _ h ih =>
    obtain ⟨t, rfl⟩ := ih
    rw [subtree_nodes] at h
    obtain ⟨-, h⟩ := Option.ite_none_right_eq_some.1 h
    exact ⟨t.subtree v, Option.some.inj h⟩
  | @oneLevel _ _ v _ h ih =>
    obtain ⟨t, rfl⟩ := ih
    rw [oneLevel_nodes] at h
    obtain ⟨-, h⟩ := Option.ite_none_right_eq_some.1 h
    exact ⟨t.oneLevel v, Option.some.inj h⟩
  | piece _ h hys ih =>
    obtain ⟨t, rfl⟩ := ih
    rw [split_nodes, Option.some.injEq] at h
    rw [← h] at hys
    obtain ⟨p, -, hp⟩ := List.mem_map.1 hys
    exact ⟨p, hp⟩

/-- Whatever the operations make of one another is a tree. -/
theorem isTree_of_built {xs : Arena α} (h : Built xs) :
    IsTree xs ∧ ∃ t : Tree α, t.nodes = xs := by
  obtain ⟨t, rfl⟩ := h.exists_nodes_eq
  exact ⟨isTree_nodes t, t, rfl⟩

/-- A node with one slot is hung under itself, and what comes of it under its own last node. -/
theorem isTree_of_built_from_itself :
    Built (α := Nat) #[⟨1, [[1]]⟩, ⟨1, [[2]]⟩, ⟨1, [[3]]⟩, ⟨1, [[]]⟩] ∧
      IsTree (α := Nat) #[⟨1, [[1]]⟩, ⟨1, [[2]]⟩, ⟨1, [[3]]⟩, ⟨1, [[]]⟩] ∧
      ∃ t : Tree Nat, t.nodes = #[⟨1, [[1]]⟩, ⟨1, [[2]]⟩, ⟨1, [[3]]⟩, ⟨1, [[]]⟩] := by
  have hpair : Built (α := Nat) #[⟨1, [[1]]⟩, ⟨1, [[]]⟩] :=
    .graft (p := 0) (s := 0) (c := 1) (.single 1 1) (.single 1 1) (by decide +kernel)
  have hchain : Built (α := Nat) #[⟨1, [[1]]⟩, ⟨1, [[2]]⟩, ⟨1, [[3]]⟩, ⟨1, [[]]⟩] :=
    .graft (p := 1) (s := 0) (c := 2) hpair hpair (by decide +kernel)
  exact ⟨hchain, isTree_of_built hchain⟩

end Arena

end TreeGrammar
