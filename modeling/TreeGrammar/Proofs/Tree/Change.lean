/-
# What growing changes

A node or a tree is hung in an array in four steps: the place is checked, the room is checked,
the nodes are written and the link is.  The array is touched only after both checks, and the last
step never finds its slot missing, so that a call either fails and has changed nothing or hangs
the tree (`Change.outcome_graft`, `Change.outcome_addChild`).

A tree that was hung (`Tree.Grown`) is its own copy at the new position; the old nodes keep what
they had, but for one child more; and what is below a node becomes larger exactly at the nodes
above the new one (`Tree.subtreeSize_attach_of_below`).
-/
import TreeGrammar.Proofs.Arena
import TreeGrammar.Tree.Change

namespace TreeGrammar

variable {α β γ : Type}

/-! ### Sizes of subtrees -/

/-- If one summand grows, the sum grows as much. -/
lemma sum_map_eq_add_of_mem {xs : List Nat} {f g : Nat → Nat} {c k : Nat} (hc : c ∈ xs)
    (hnodup : xs.Nodup) (hgrown : g c = f c + k) (hkept : ∀ x ∈ xs, x ≠ c → g x = f x) :
    (xs.map g).sum = (xs.map f).sum + k := by
  have hrest : (xs.erase c).map g = (xs.erase c).map f := by
    refine List.map_congr_left fun x hx => ?_
    obtain ⟨hne, hx⟩ := hnodup.mem_erase_iff.1 hx
    exact hkept x hx hne
  rw [← List.sum_map_erase f hc, ← List.sum_map_erase g hc, hrest, hgrown]
  omega

namespace Tree

variable {t u : Tree α} {p s v : Nat}

lemma children_attach_of_ne (h : s < t.slotCount p) (hv : v < t.size) (hne : v ≠ p) :
    (t.attach p s u).children v = t.children v := by
  rw [children_eq_flatten, slots_attach_of_lt h hv, if_neg hne.symm]
  rfl

lemma children_attach_self_perm (h : s < t.slotCount p) :
    ((t.attach p s u).children p).Perm (t.children p ++ [t.size]) := by
  rw [children, node_attach_of_lt h (lt_size_of_lt_slotCount h), if_pos rfl]
  exact Node.children_addChild_perm _ h _

/-- What is hung is as large as on its own. -/
lemma subtreeSize_attach_add (h : s < t.slotCount p) (hv : v < u.size) :
    (t.attach p s u).subtreeSize (t.size + v) = u.subtreeSize v := by
  induction v using u.induction_children with
  | node v ih =>
    have hsizes : ((t.attach p s u).children (t.size + v)).map (t.attach p s u).subtreeSize =
        (u.children v).map u.subtreeSize := by
      rw [children_eq_flatten, slots_attach_add h hv, ← List.map_flatten, List.map_map]
      exact List.map_congr_left fun c hc => ih c hc (u.child_lt_size hc)
    rw [subtreeSize_eq, subtreeSize_eq, hsizes]

/-- Below a node that is not above the place nothing is added. -/
lemma subtreeSize_attach_of_not_below (h : s < t.slotCount p) (hv : v < t.size)
    (hp : ¬ t.Below v p) : (t.attach p s u).subtreeSize v = t.subtreeSize v := by
  induction v using t.induction_children with
  | node v ih =>
    have hne : v ≠ p := by
      rintro rfl
      exact hp (.refl v)
    rw [subtreeSize_eq, subtreeSize_eq, children_attach_of_ne h hv hne,
      List.map_congr_left fun c hc =>
        ih c hc (t.child_lt_size hc) fun hc' => hp (.of_child hc hc')]

/-- Below the nodes above the place everything is added. -/
theorem subtreeSize_attach_of_below (h : s < t.slotCount p) (hp : t.Below v p) :
    (t.attach p s u).subtreeSize v = t.subtreeSize v + u.size := by
  induction v using t.induction_children with
  | node v ih =>
    rcases hp.cases_child with rfl | ⟨c, hc, hcp⟩
    · -- the node itself has one child more
      have hold : (t.children v).map (t.attach v s u).subtreeSize =
          (t.children v).map t.subtreeSize :=
        List.map_congr_left fun c hc => subtreeSize_attach_of_not_below h (t.child_lt_size hc)
          (not_below_of_mem_children hc)
      have hnew : (t.attach v s u).subtreeSize t.size = u.size := by
        rw [← u.subtreeSize_root]
        exact subtreeSize_attach_add h u.root_lt_size
      rw [subtreeSize_eq, subtreeSize_eq, ((children_attach_self_perm h).map _).sum_eq,
        List.map_append, List.sum_append, hold, List.map_singleton, hnew]
      simp only [List.sum_singleton]
      omega
    · -- one of the children is above the place, and no other one is
      have hne : v ≠ p := by
        rintro rfl
        exact not_below_of_mem_children hc hcp
      have hkept : ∀ d ∈ t.children v, d ≠ c →
          (t.attach p s u).subtreeSize d = t.subtreeSize d := by
        intro d hd hdc
        refine subtreeSize_attach_of_not_below h (t.child_lt_size hd) fun hdp => ?_
        exact hdc (child_unique hd hc hdp hcp)
      rw [subtreeSize_eq, subtreeSize_eq,
        children_attach_of_ne h (t.lt_size_of_mem_children hc) hne,
        sum_map_eq_add_of_mem hc (t.nodup_children v) (ih c hc hcp) hkept, Nat.add_assoc]

/-! ### Local growth -/

/-- `t'` is `t` with `u` as a new last child of `p` in slot `s`. -/
structure Grown (t : Tree α) (p s : Nat) (u t' : Tree α) : Prop where
  size_eq : t'.size = t.size + u.size
  node_eq : ∀ v < t.size, v ≠ p → t'.node v = t.node v
  label_eq : t'.label p = t.label p
  slotCount_eq : t'.slotCount p = t.slotCount p
  slot_self_eq : t'.slot p s = t.slot p s ++ [t.size]
  slot_eq : ∀ i, i ≠ s → t'.slot p i = t.slot p i
  /-- The new nodes come behind the others, with their children moved along. -/
  node_add_eq : ∀ v < u.size, t'.node (t.size + v) = (u.node v).shift t.size
  rose_eq : (t'.subtree t.size).rose root = u.rose root
  subtreeSize_above : ∀ v, t.Below v p → t'.subtreeSize v = t.subtreeSize v + u.size
  subtreeSize_elsewhere : ∀ v < t.size, ¬ t.Below v p → t'.subtreeSize v = t.subtreeSize v

lemma slot_attach_self (h : s < t.slotCount p) (i : Nat) :
    (t.attach p s u).slot p i = if i = s then t.slot p s ++ [t.size] else t.slot p i := by
  have hs : (t.slots p)[s]? = some (t.slot p s) := by
    rw [slot, List.getD_eq_getElem _ _ h]
    exact List.getElem?_eq_getElem h
  rw [slot, slots_attach_of_lt h (lt_size_of_lt_slotCount h), if_pos rfl,
    List.getD_eq_getElem?_getD, List.getElem?_modify]
  split
  case isTrue hi =>
    rw [if_pos hi.symm, ← hi, hs]
    rfl
  case isFalse hi =>
    rw [if_neg (Ne.symm hi), slot, List.getD_eq_getElem?_getD, id_map']

theorem grown_attach (h : s < t.slotCount p) : Grown t p s u (t.attach p s u) where
  size_eq := size_attach h
  node_eq v hv hne := by rw [node_attach_of_lt h hv, if_neg hne.symm]
  label_eq := label_attach_of_lt h (lt_size_of_lt_slotCount h)
  slotCount_eq := slotCount_attach_of_lt h (lt_size_of_lt_slotCount h)
  slot_self_eq := by rw [slot_attach_self h, if_pos rfl]
  slot_eq i hi := by rw [slot_attach_self h, if_neg hi]
  node_add_eq v hv := node_attach_add h hv
  rose_eq := by
    rw [rose_subtree]
    exact rose_attach_add h u.root_lt_size
  subtreeSize_above v hv := subtreeSize_attach_of_below h hv
  subtreeSize_elsewhere v hv hp := subtreeSize_attach_of_not_below h hv hp

end Tree

namespace Change

variable {t u : Tree α} {last p s : Nat}

/-! ### Steps -/

lemma outcome_bind_ok {f : Change α β} {g : β → Change α γ} {xs ys : Arena α} {x : β}
    (h : f.outcome xs = some (.ok x, ys)) : (f >>= g).outcome xs = (g x).outcome ys := by
  show (f.outcome xs).bind _ = _
  rw [h]
  rfl

lemma outcome_bind_error {f : Change α β} {g : β → Change α γ} {xs ys : Arena α}
    {e : GrowthError} (h : f.outcome xs = some (.error e, ys)) :
    (f >>= g).outcome xs = some (.error e, ys) := by
  show (f.outcome xs).bind _ = _
  rw [h]
  rfl

lemma outcome_get (xs : Arena α) : (get : Change α (Arena α)).outcome xs = some (.ok xs, xs) := rfl

/-- The place is good if a tree can be hung there. -/
lemma outcome_checkSlot (t : Tree α) (p s : Nat) (u : Tree α) :
    (checkSlot p s).outcome t.nodes =
      some (((t.graft p s u).mapError .place).map fun _ => (), t.nodes) := by
  rcases Nat.lt_or_ge p t.size with hp | hp
  · have hsome : t.nodes[p]? = some (t.node p) := Arena.getElem?_nodes hp
    rw [checkSlot]
    refine (outcome_bind_ok (outcome_get _)).trans ?_
    rw [hsome]
    show (if t.slotCount p ≤ s then _ else _ : Change α Unit).outcome t.nodes = _
    split
    case isTrue hs =>
      rw [Tree.graft_of_slotCount_le hp hs]
      rfl
    case isFalse hs =>
      rw [Tree.graft_of_lt (Nat.lt_of_not_le hs)]
      rfl
  · have hnone : t.nodes[p]? = none := Array.getElem?_eq_none hp
    rw [checkSlot, Tree.graft_of_size_le hp]
    refine (outcome_bind_ok (outcome_get _)).trans ?_
    rw [hnone]
    rfl

lemma outcome_nextId (last : Nat) (t : Tree α) :
    (nextId last).outcome t.nodes =
      some (if t.size ≤ last then .ok t.size else .error (.full last), t.nodes) := by
  rw [nextId]
  refine (outcome_bind_ok (outcome_get _)).trans ?_
  show (if t.size ≤ last then _ else _ : Change α Nat).outcome t.nodes = _
  split
  · rfl
  · rfl

lemma outcome_link {xs ys : Arena α} {c : Nat} (h : xs.link p s c = some ys) :
    (link p s c).outcome xs = some (.ok (), ys) := by
  have hlift : (liftM (xs.link p s c) : Change α (Arena α)).outcome xs = some (.ok ys, xs) := by
    rw [h]
    rfl
  rw [link]
  refine (outcome_bind_ok (outcome_get xs)).trans ?_
  exact (outcome_bind_ok hlift).trans rfl

lemma outcome_append (last : Nat) (t u : Tree α) :
    (append last u.nodes).outcome t.nodes = some
      (if t.size + u.size ≤ last then (.ok t.size, Arena.append t.nodes u.nodes)
        else (.error (.full last), t.nodes)) := by
  have hnext := outcome_nextId last t
  rw [append]
  by_cases hroom : t.size ≤ last
  · rw [if_pos hroom] at hnext
    rw [outcome_bind_ok hnext]
    refine (outcome_bind_ok (outcome_get _)).trans ?_
    show (if t.size + u.size ≤ last then _ else _ : Change α Nat).outcome t.nodes = _
    split
    · rfl
    · rfl
  · -- where there is no position for the first node there is none for all of them
    rw [if_neg hroom] at hnext
    rw [outcome_bind_error hnext, if_neg (by omega)]

/-! ### Calls -/

/-- How a call on the array of `t` ends that hangs what is hung in the tree.  There is room for it
if `fits` holds. -/
def settled (t : Tree α) (last : Nat) (fits : Prop) [Decidable fits] :
    Except TreeError (Nat × Tree α) → Except GrowthError Nat × Arena α
  | .error e => (.error (.place e), t.nodes)
  | .ok (c, t') => if fits then (.ok c, t'.nodes) else (.error (.full last), t.nodes)

/-- The steps behind the check of the place are made where a tree can be hung. -/
lemma outcome_checkSlot_bind {f : Unit → Change α Nat} {fits : Prop} [Decidable fits]
    (h : s < t.slotCount p → (f ()).outcome t.nodes = some
      (if fits then (.ok t.size, (t.attach p s u).nodes) else (.error (.full last), t.nodes))) :
    (checkSlot p s >>= f).outcome t.nodes = some (settled t last fits (t.graft p s u)) := by
  have hcheck := outcome_checkSlot t p s u
  by_cases hs : s < t.slotCount p
  · rw [Tree.graft_of_lt hs] at hcheck ⊢
    rw [outcome_bind_ok hcheck]
    exact h hs
  · obtain ⟨e, he⟩ := Tree.graft_of_not_lt (u := u) hs
    rw [he] at hcheck ⊢
    exact outcome_bind_error hcheck

/-- A tree is hung in the array as it is in the tree. -/
theorem outcome_graft (last : Nat) (t : Tree α) (p s : Nat) (u : Tree α) :
    (graft last p s u.nodes).outcome t.nodes =
      some (settled t last (t.size + u.size ≤ last) (t.graft p s u)) := by
  refine outcome_checkSlot_bind fun h => ?_
  have happend := outcome_append last t u
  by_cases hfits : t.size + u.size ≤ last
  · rw [if_pos hfits] at happend
    rw [outcome_bind_ok happend, if_pos hfits]
    refine (outcome_bind_ok (outcome_link (Arena.link_append_nodes h u))).trans ?_
    rfl
  · rw [if_neg hfits] at happend
    rw [outcome_bind_error happend, if_neg hfits]

/-- A node is added in the array as it is in the tree. -/
theorem outcome_addChild (last : Nat) (t : Tree α) (p s : Nat) (label : α) (k : Nat) :
    (addChild last p s label k).outcome t.nodes =
      some (settled t last (t.size ≤ last) (t.addChild p s label k)) := by
  refine outcome_checkSlot_bind fun h => ?_
  have hnext := outcome_nextId last t
  by_cases hfits : t.size ≤ last
  · rw [if_pos hfits] at hnext
    have hpush : (modify (·.push (.bare label k)) : Change α Unit).outcome t.nodes =
        some (.ok (), t.nodes.push (.bare label k)) := rfl
    rw [outcome_bind_ok hnext, if_pos hfits]
    refine (outcome_bind_ok hpush).trans ?_
    refine (outcome_bind_ok (outcome_link (Arena.link_push_bare h label k))).trans ?_
    rfl
  · rw [if_neg hfits] at hnext
    rw [outcome_bind_error hnext, if_neg hfits]

/-- What `call` does to the array of `t` if it is to hang `u` under node `p`, in slot `s`, and there
is room for it if `fits` holds. -/
structure Hangs (t : Tree α) (p s : Nat) (u : Tree α) (last : Nat) (fits : Prop)
    (call : Change α Nat) : Prop where
  unknownNode_iff :
    (∃ node size xs, call.outcome t.nodes = some (.error (.place (.unknownNode node size)), xs)) ↔
      t.size ≤ p
  invalidSlot_iff :
    (∃ node slot count xs,
      call.outcome t.nodes = some (.error (.place (.invalidSlot node slot count)), xs)) ↔
      p < t.size ∧ t.slotCount p ≤ s
  full_iff : (∃ k xs, call.outcome t.nodes = some (.error (.full k), xs)) ↔
    s < t.slotCount p ∧ ¬ fits
  ok_iff : (∃ c xs, call.outcome t.nodes = some (.ok c, xs)) ↔ s < t.slotCount p ∧ fits
  /-- A call that fails changes nothing, and names what was missing. -/
  of_error : ∀ e xs, call.outcome t.nodes = some (.error e, xs) → xs = t.nodes ∧
    (e = .place (.unknownNode p t.size) ∨ e = .place (.invalidSlot p s (t.slotCount p)) ∨
      e = .full last)
  /-- A call that succeeds changes the one place and puts `u` behind the nodes of `t`. -/
  of_ok : ∀ c xs, call.outcome t.nodes = some (.ok c, xs) →
    c = t.size ∧ ∃ t' : Tree α, t'.nodes = xs ∧ t.Grown p s u t'

lemma hangs_of_outcome_eq {fits : Prop} [Decidable fits] {call : Change α Nat}
    (h : call.outcome t.nodes = some (settled t last fits (t.graft p s u))) :
    Hangs t p s u last fits call := by
  -- a call ends in one of four ways, each of which excludes the other three
  rcases Nat.lt_or_ge p t.size with hp | hp
  · rcases Nat.lt_or_ge s (t.slotCount p) with hs | hs
    · rw [Tree.graft_of_lt hs, settled] at h
      by_cases hfits : fits
      · have hgrown : ∃ t' : Tree α, t'.nodes = (t.attach p s u).nodes ∧ t.Grown p s u t' :=
          ⟨_, rfl, Tree.grown_attach hs⟩
        rw [if_pos hfits] at h
        constructor <;> simp [h, hp.not_ge, hs.not_ge, hs, hfits, hgrown]
      · rw [if_neg hfits] at h
        constructor <;> simp [h, hp.not_ge, hs.not_ge, hs, hfits]
    · rw [Tree.graft_of_slotCount_le hp hs, settled] at h
      constructor <;> simp [h, hp.not_ge, hp, hs.not_gt, hs]
  · have hs : t.slotCount p ≤ s := by
      rw [Tree.slotCount, t.slots_of_size_le hp]
      exact Nat.zero_le s
    rw [Tree.graft_of_size_le hp, settled] at h
    constructor <;> simp [h, hp, hp.not_gt, hs.not_gt]

/-- Hanging a tree and adding a node either fail with nothing changed or change one place. -/
theorem graft_and_addChild_hang (last : Nat) (t : Tree α) (p s : Nat) :
    (∀ u : Tree α, Hangs t p s u last (t.size + u.size ≤ last) (graft last p s u.nodes)) ∧
      ∀ (a : α) (k : Nat),
        Hangs t p s (.single a k) last (t.size ≤ last) (addChild last p s a k) :=
  ⟨fun u => hangs_of_outcome_eq (outcome_graft last t p s u),
    fun a k => hangs_of_outcome_eq (outcome_addChild last t p s a k)⟩

/-- A pair is hung under the only child of a root with two slots. -/
example :
    let xs : Arena Nat := #[⟨5, [[], [1]]⟩, ⟨6, [[]]⟩]
    ((graft 4294967295 1 0 #[⟨7, [[1]]⟩, ⟨8, [[]]⟩]).outcome xs).map (·.2) =
      some #[⟨5, [[], [1]]⟩, ⟨6, [[2]]⟩, ⟨7, [[3]]⟩, ⟨8, [[]]⟩] := by
  decide +kernel

/-! ### A root over arenas -/

lemma outcome_hangAtRoot (h : s < t.slotCount Tree.root) (hfits : t.size + u.size ≤ last) :
    (hangAtRoot last (s, u.nodes)).outcome t.nodes =
      some (.ok (), (t.attach Tree.root s u).nodes) := by
  have happend := outcome_append last t u
  rw [if_pos hfits] at happend
  rw [hangAtRoot, outcome_bind_ok happend]
  exact outcome_link (Arena.link_append_nodes h u)

/-- Trees that fit are hung under the root one after the other. -/
lemma outcome_foldlM_hangAtRoot {es : List (Nat × Tree α)}
    (hslots : ∀ e ∈ es, e.1 < t.slotCount Tree.root)
    (hfits : t.size + (es.map (·.2.size)).sum ≤ last) :
    ((es.map (Prod.map id Tree.nodes)).foldlM (fun _ e => hangAtRoot last e) ()).outcome t.nodes =
      some (.ok (), (es.foldl (fun t e => t.attach Tree.root e.1 e.2) t).nodes) := by
  induction es generalizing t with
  | nil => rfl
  | cons e es ih =>
    obtain ⟨he, hes⟩ := List.forall_mem_cons.1 hslots
    have hcount := Tree.slotCount_attach_of_lt (u := e.2) he t.root_lt_size
    rw [List.map_cons, List.sum_cons, ← Nat.add_assoc] at hfits
    rw [List.map_cons, List.foldlM_cons]
    refine (outcome_bind_ok (outcome_hangAtRoot he (by omega))).trans ?_
    exact ih (by rwa [hcount]) (by rwa [Tree.size_attach he])

/-- Where the whole fits a root is put over the given trees. -/
theorem ofSubtrees_nodes {label : α} {slots : List (List (Tree α))}
    (h : (Tree.ofSubtrees label slots).size ≤ last) :
    ofSubtrees last label (slots.map (List.map Tree.nodes)) =
      some (Tree.ofSubtrees label slots).nodes := by
  have hslots : ∀ e ∈ placed slots, e.1 < (Tree.single label slots.length).slotCount Tree.root :=
    Tree.lt_slotCount_of_mem_placed label
  have hfill : (fillRoot last (slots.map (List.map Tree.nodes))).outcome
      (Tree.single label slots.length).nodes =
      some (.ok (), (Tree.ofSubtrees label slots).nodes) := by
    rw [Tree.ofSubtrees_eq, Tree.size_foldl_attach_root hslots] at h
    rw [fillRoot, foldlM_placed (fun _ e => hangAtRoot last e), placed_map, Tree.ofSubtrees_eq]
    exact outcome_foldlM_hangAtRoot hslots h
  rw [ofSubtrees, List.length_map]
  exact congrArg made hfill

end Change

end TreeGrammar
