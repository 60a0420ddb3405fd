/-
# The frontier of a rule

Where a rule can be applied, its endpoints are the tree nodes that face its leaves.  Every node
of the rule faces a node of the tree, and the nodes on the two sides are in the same order
(`below_iff_of_mem_facing`).  So every leaf of the rule has an endpoint of its own, and no
endpoint is below another one.

If the policy asks for all children, the tree at `v` is what faces the inner nodes of the rule
together with what is at and below the endpoints: `endpoints_frontier` says that the endpoints
are a cut through the tree.
-/
import TreeGrammar.Proofs.Match.Walks

namespace TreeGrammar.Matcher

variable {α : Type} {m : Matcher α} {rule t : Tree α}

/-! ### The leaves of the rule -/

lemma map_fst_facingChildren {p : Nat × Nat} (h : m.Passable rule t p) :
    (facingChildren rule t p).map (·.1) = rule.children p.1 := by
  rcases h with hleaf | ⟨-, halign⟩
  · rw [facingChildren_of_isLeaf hleaf, (rule.isLeaf_iff p.1).1 hleaf]
    rfl
  · have hle := fun q hq => ArityPolicy.le_of_accepts (aligned_iff_all.1 halign q hq)
    rw [facingChildren, ← flatMap_fst_eq hle, flatMap_fst_pairSlots]
    rfl

/-- The rule nodes of the pairs are all that is below the first one, in preorder. -/
theorem map_fst_facing {p : Nat × Nat} (h : ∀ q ∈ facing rule t p, m.Passable rule t q) :
    (facing rule t p).map (·.1) = rule.preorder p.1 := by
  induction p using induction_facing rule t with
  | pair p ih =>
    have hchildren := map_fst_facingChildren (h p (mem_facing_self rule t p))
    rw [facing_eq, List.map_cons, List.map_flatMap, Tree.preorder_eq, ← hchildren,
      ← List.map_reverse, List.flatMap_map]
    congr 1
    refine List.flatMap_congr fun c hc => ?_
    have hc := List.mem_reverse.1 hc
    exact ih c hc fun q hq => h q (facing_trans (mem_facing_child hc) hq)

lemma mem_leafSides_iff {qs : List (Nat × Nat)} {w : Nat} :
    w ∈ leafSides rule qs ↔ ∃ q ∈ qs, rule.isLeaf q.1 = true ∧ q.2 = w := by
  simp only [leafSides, List.mem_map, List.mem_filter, and_assoc]

/-- There is a tree node for every leaf of the rule. -/
lemma length_leafSides {p : Nat × Nat} (h : ∀ q ∈ facing rule t p, m.Passable rule t q) :
    (leafSides rule (facing rule t p)).length = rule.leafCount p.1 := by
  rw [leafSides, List.length_map, ← List.countP_eq_length_filter, Tree.leafCount,
    ← map_fst_facing h, List.countP_map]
  rfl

/-- The tree nodes that face leaves are different. -/
lemma nodup_leafSides {p : Nat × Nat} (h : ∀ q ∈ facing rule t p, m.Passable rule t q) :
    (leafSides rule (facing rule t p)).Nodup := by
  have hnodup : (facing rule t p).Nodup := by
    refine List.Nodup.of_map (·.1) ?_
    rw [map_fst_facing h]
    exact rule.nodup_preorder p.1
  refine List.Nodup.map_on ?_ (hnodup.filter _)
  intro q₁ hq₁ q₂ hq₂ heq
  have hq₁ := (List.mem_filter.1 hq₁).1
  have hq₂ := (List.mem_filter.1 hq₂).1
  exact Prod.ext ((fst_eq_iff_snd_eq hq₁ hq₂).2 heq) heq

/-- No tree node that faces a leaf is below another one. -/
lemma eq_of_below_of_mem_leafSides {p : Nat × Nat} {a b : Nat}
    (ha : a ∈ leafSides rule (facing rule t p)) (hb : b ∈ leafSides rule (facing rule t p))
    (h : t.Below a b) : a = b := by
  obtain ⟨q₁, hq₁, hleaf, rfl⟩ := mem_leafSides_iff.1 ha
  obtain ⟨q₂, hq₂, -, rfl⟩ := mem_leafSides_iff.1 hb
  -- in the rule nothing hangs below a leaf
  rcases ((below_iff_of_mem_facing hq₁ hq₂).2 h).cases_child with heq | ⟨c, hc, -⟩
  · exact (fst_eq_iff_snd_eq hq₁ hq₂).1 heq
  · rw [(rule.isLeaf_iff q₁.1).1 hleaf] at hc
    cases hc

/-! ### The set of endpoints -/

lemma mem_foldl_insert {ws : List Nat} {found : Std.TreeSet Nat} {x : Nat} :
    x ∈ ws.foldl (fun found w => found.insert w) found ↔ x ∈ ws ∨ x ∈ found := by
  induction ws generalizing found with
  | nil => simp
  | cons w ws ih =>
    rw [List.foldl_cons, ih, Std.TreeSet.mem_insert, Nat.compare_eq_eq, List.mem_cons]
    tauto

lemma pairwise_lt_toList (found : Std.TreeSet Nat) : found.toList.Pairwise (· < ·) :=
  found.ordered_toList.imp Nat.compare_eq_lt.1

/-- The set has the tree nodes that face leaves, each of them once. -/
theorem toList_leafSet_perm {v : Nat}
    (h : ∀ q ∈ facing rule t (Tree.root, v), m.Passable rule t q) :
    (leafSet rule t v).toList.Perm (leafSides rule (facing rule t (Tree.root, v))) := by
  have hnodup : (leafSet rule t v).toList.Nodup :=
    (pairwise_lt_toList _).imp fun hlt => hlt.ne
  refine (List.perm_ext_iff_of_nodup hnodup (nodup_leafSides h)).2 fun w => ?_
  rw [Std.TreeSet.mem_toList, leafSet, mem_foldl_insert]
  simp

lemma Lies.passable {v : Nat} (h : m.Lies rule t Tree.root v) :
    ∀ q ∈ facing rule t (Tree.root, v), m.Passable rule t q := fun q hq =>
  (lies_iff.1 h q hq).passable

/-- Where a rule can be applied it has its endpoints. -/
lemma endpoints_of_applies {v : Nat} (h : m.applies rule t v = true) :
    m.endpoints rule t v = .ok (leafSet rule t v).toList :=
  endpoints_of_passable (applies_iff_lies.1 h).2.passable

lemma leafSet_perm_of_applies {v : Nat} (h : m.applies rule t v = true) :
    (leafSet rule t v).toList.Perm (leafSides rule (facing rule t (Tree.root, v))) :=
  toList_leafSet_perm (applies_iff_lies.1 h).2.passable

/-- The nodes that face a list of rule nodes are the other sides of their pairs. -/
lemma forall₂_faces_iff {v : Nat} {qs : List (Nat × Nat)}
    (hqs : ∀ q ∈ qs, q ∈ facing rule t (Tree.root, v)) {ws : List Nat} :
    List.Forall₂ (Faces rule t v) (qs.map (·.1)) ws ↔ ws = qs.map (·.2) := by
  induction qs generalizing ws with
  | nil => simp
  | cons q qs ih =>
    obtain ⟨hq, hqs⟩ := List.forall_mem_cons.1 hqs
    have hfaces : ∀ w, Faces rule t v q.1 w ↔ w = q.2 := by
      intro w
      rw [← mem_facing_iff]
      constructor
      · intro hw
        exact (fst_eq_iff_snd_eq hw hq).1 rfl
      · rintro rfl
        exact hq
    rw [List.map_cons, List.map_cons, List.forall₂_cons_left_iff]
    simp only [hfaces, ih hqs]
    constructor
    · rintro ⟨w, ws, rfl, rfl, rfl⟩
      rfl
    · rintro rfl
      exact ⟨_, _, rfl, rfl, rfl⟩

/-- If the rule lies over the tree every leaf of the rule has a node that it faces. -/
lemma forall₂_leaves_iff {v : Nat} (h : m.Lies rule t Tree.root v) {ws : List Nat} :
    List.Forall₂ (Faces rule t v) (rule.plan.filter rule.isLeaf) ws ↔
      ws = leafSides rule (facing rule t (Tree.root, v)) := by
  rw [Tree.plan, ← map_fst_facing h.passable, List.filter_map]
  exact forall₂_faces_iff fun q hq => List.mem_of_mem_filter hq

/-! ### Rules that have all children -/

lemma map_snd_facingChildren (hexact : m.policy = .exact) {p : Nat × Nat}
    (h : m.Aligned rule t p.1 p.2) :
    (facingChildren rule t p).map (·.2) = t.children p.2 := by
  refine map_snd_pairChildren fun sides hsides => ?_
  have hfits := aligned_iff_all.1 h sides hsides
  rw [fits, hexact] at hfits
  exact beq_iff_eq.1 hfits

/-- A leaf of the tree is at or below a node that faces a leaf of the rule. -/
theorem exists_leafSide_above (hexact : m.policy = .exact) {p : Nat × Nat} {x : Nat}
    (h : ∀ q ∈ facing rule t p, m.Passable rule t q) (hx : t.Below p.2 x)
    (hxleaf : t.isLeaf x = true) :
    ∃ w ∈ leafSides rule (facing rule t p), t.Below w x := by
  induction p using induction_facing rule t with
  | pair p ih =>
    by_cases hleaf : rule.isLeaf p.1 = true
    · exact ⟨p.2, mem_leafSides_iff.2 ⟨p, mem_facing_self rule t p, hleaf, rfl⟩, hx⟩
    have hpass := h p (mem_facing_self rule t p)
    obtain ⟨-, halign⟩ := Or.resolve_left hpass hleaf
    have hfst := map_fst_facingChildren hpass
    have hsnd := map_snd_facingChildren hexact halign
    rcases hx.cases_child with rfl | ⟨d, hd, hdx⟩
    · -- without children in the tree there are none in the rule
      rw [(t.isLeaf_iff p.2).1 hxleaf, List.map_eq_nil_iff] at hsnd
      rw [hsnd] at hfst
      exact absurd ((rule.isLeaf_iff p.1).2 hfst.symm) hleaf
    · rw [← hsnd] at hd
      obtain ⟨c, hc, rfl⟩ := List.mem_map.1 hd
      have hbelow : ∀ q ∈ facing rule t c, q ∈ facing rule t p := fun q hq =>
        facing_trans (mem_facing_child hc) hq
      obtain ⟨w, hw, hwx⟩ := ih c hc (fun q hq => h q (hbelow q hq)) hdx
      obtain ⟨q, hq, hqleaf, rfl⟩ := mem_leafSides_iff.1 hw
      exact ⟨q.2, mem_leafSides_iff.2 ⟨q, hbelow q hq, hqleaf, rfl⟩, hwx⟩

/-- The nodes at and below a node are those that face inner nodes of the rule and those at and
below the nodes that face leaves. -/
theorem subtreeSize_eq_sum_facing (hexact : m.policy = .exact) {p : Nat × Nat}
    (h : ∀ q ∈ facing rule t p, m.Passable rule t q) :
    t.subtreeSize p.2 =
      ((facing rule t p).map fun q =>
        if rule.isLeaf q.1 then t.subtreeSize q.2 else 1).sum := by
  induction p using induction_facing rule t with
  | pair p ih =>
    by_cases hleaf : rule.isLeaf p.1 = true
    · simp [facing_of_isLeaf hleaf, hleaf]
    obtain ⟨-, halign⟩ := Or.resolve_left (h p (mem_facing_self rule t p)) hleaf
    have hchildren : ∀ c ∈ facingChildren rule t p, t.subtreeSize c.2 =
        ((facing rule t c).map fun q =>
          if rule.isLeaf q.1 then t.subtreeSize q.2 else 1).sum := fun c hc =>
      ih c hc fun q hq => h q (facing_trans (mem_facing_child hc) hq)
    rw [Tree.subtreeSize_eq, ← map_snd_facingChildren hexact halign, List.map_map, facing_eq,
      List.map_cons, List.sum_cons, if_neg hleaf, List.map_flatMap, List.flatMap_def,
      List.sum_flatten, List.map_map, List.map_reverse, List.sum_reverse]
    exact congrArg (fun xs => 1 + List.sum xs) (List.map_congr_left hchildren)

/-- A sum over the pairs, leaves of the rule apart. -/
lemma sum_map_ite (rule : Tree α) (f : Nat → Nat) (qs : List (Nat × Nat)) :
    (qs.map fun q => if rule.isLeaf q.1 then f q.2 else 1).sum =
      (qs.map (·.1)).countP (fun r => !rule.isLeaf r) + ((leafSides rule qs).map f).sum := by
  induction qs with
  | nil => rfl
  | cons q qs ih =>
    rw [List.map_cons, List.sum_cons, ih, List.map_cons, List.countP_cons, leafSides, leafSides,
      List.filter_cons]
    cases rule.isLeaf q.1 with
    | true => simp; omega
    | false => simp; omega

/-! ### The frontier -/

/-- The nodes `vs` are a frontier below `v`, with one node for each leaf of the rule. -/
structure IsFrontier (m : Matcher α) (rule t : Tree α) (v : Nat) (vs : List Nat) : Prop where
  /-- No endpoint is listed twice. -/
  nodup : vs.Nodup
  /-- There are as many endpoints as leaves of the rule. -/
  length_eq : vs.length = rule.leafCount Tree.root
  /-- The endpoints hang below `v`. -/
  below : ∀ e ∈ vs, t.Below v e ∧ e ≠ v
  /-- No endpoint is above another one. -/
  antichain : ∀ a ∈ vs, ∀ b ∈ vs, t.Below a b → a = b
  /-- Nothing is at or below two endpoints. -/
  unique_above : ∀ x, ∀ a ∈ vs, ∀ b ∈ vs, t.Below a x → t.Below b x → a = b
  /-- If the rule has all children, all leaves are at or below an endpoint. -/
  exists_above : m.policy = .exact → ∀ x, t.Below v x → t.isLeaf x = true →
    ∃ e ∈ vs, t.Below e x
  /-- If the rule has all children, the nodes that are not at or below an endpoint are as many
  as the inner nodes of the rule. -/
  size_eq : m.policy = .exact → t.subtreeSize v =
    rule.ids.countP (fun r => !rule.isLeaf r) + (vs.map t.subtreeSize).sum

lemma isFrontier_leafSet {v : Nat} (h : m.applies rule t v = true) :
    IsFrontier m rule t v (leafSet rule t v).toList := by
  obtain ⟨hroot, hlies⟩ := applies_iff_lies.1 h
  have hpass := hlies.passable
  have hperm := toList_leafSet_perm hpass
  have hanti : ∀ a ∈ (leafSet rule t v).toList, ∀ b ∈ (leafSet rule t v).toList,
      t.Below a b → a = b := fun a ha b hb =>
    eq_of_below_of_mem_leafSides (hperm.mem_iff.1 ha) (hperm.mem_iff.1 hb)
  constructor
  case nodup => exact hperm.nodup_iff.2 (nodup_leafSides hpass)
  case length_eq => rw [hperm.length_eq, length_leafSides hpass]
  case below =>
    intro e he
    obtain ⟨q, hq, hleaf, rfl⟩ := mem_leafSides_iff.1 (hperm.mem_iff.1 he)
    refine ⟨(below_of_mem_facing hq).2, fun hqv => ?_⟩
    -- at `v` the rule has its root, which is no leaf
    have hq₁ : q.1 = Tree.root := (fst_eq_iff_snd_eq hq (mem_facing_self rule t _)).2 hqv
    rw [hq₁, hroot] at hleaf
    cases hleaf
  case antichain => exact hanti
  case unique_above =>
    intro x a ha b hb hax hbx
    rcases hax.total hbx with hab | hba
    · exact hanti a ha b hb hab
    · exact (hanti b hb a ha hba).symm
  case exists_above =>
    intro hexact x hx hxleaf
    obtain ⟨w, hw, hwx⟩ := exists_leafSide_above hexact hpass hx hxleaf
    exact ⟨w, hperm.mem_iff.2 hw, hwx⟩
  case size_eq =>
    intro hexact
    have hsize := subtreeSize_eq_sum_facing hexact hpass
    rw [sum_map_ite, map_fst_facing hpass, ← Tree.plan, rule.plan_perm_ids.countP_eq] at hsize
    rw [hsize, (hperm.map t.subtreeSize).sum_eq]

/-- The nodes that face the leaves of a rule hang below the node on which the rule is laid. -/
lemma below_of_mem_leafSides {v w : Nat} (h : m.applies rule t v = true)
    (hw : w ∈ leafSides rule (facing rule t (Tree.root, v))) : t.Below v w ∧ w ≠ v :=
  (isFrontier_leafSet h).below w ((leafSet_perm_of_applies h).mem_iff.2 hw)

/-- Where a rule can be applied it has its endpoints, and they are a frontier. -/
theorem endpoints_frontier (m : Matcher α) (rule t : Tree α) {v : Nat}
    (h : m.applies rule t v = true) :
    ∃ vs, m.endpoints rule t v = .ok vs ∧ IsFrontier m rule t v vs :=
  ⟨_, endpoints_of_applies h, isFrontier_leafSet h⟩

/-- The children of an inner node are a frontier below it. -/
theorem endpoints_frontier_below_root :
    Matcher.applies ⟨(· == ·), .exact⟩ (Tree.ofSubtrees 1 [[Tree.leaf 2], [Tree.leaf 3]])
        (Tree.ofSubtrees 0 [[Tree.ofSubtrees 1 [[Tree.leaf 2], [Tree.leaf 3]]]]) 1 = true ∧
      ∃ vs, Matcher.endpoints ⟨(· == ·), .exact⟩
          (Tree.ofSubtrees 1 [[Tree.leaf 2], [Tree.leaf 3]])
          (Tree.ofSubtrees 0 [[Tree.ofSubtrees 1 [[Tree.leaf 2], [Tree.leaf 3]]]]) 1 = .ok vs ∧
        IsFrontier ⟨(· == ·), .exact⟩ (Tree.ofSubtrees 1 [[Tree.leaf 2], [Tree.leaf 3]])
          (Tree.ofSubtrees 0 [[Tree.ofSubtrees 1 [[Tree.leaf 2], [Tree.leaf 3]]]]) 1 vs :=
  ⟨by decide +kernel, endpoints_frontier _ _ _ (by decide +kernel)⟩

end TreeGrammar.Matcher
