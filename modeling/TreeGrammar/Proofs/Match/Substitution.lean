/-
# Matching inverts substitution

A derivation replaces the leaves of a rule by trees.  `Tree.substitute` carries this out, and
the subtree at a node is equal to the outcome exactly when the rule lies over the tree and the
tree nodes that face its leaves are roots of the trees put in (`alike_substituteAt_iff`).  So a
rule can be applied at a node, with all children and with equal labels, exactly if the subtree
there comes out of the rule by some substitution, and the trees put in can be no others than
those at the endpoints of the rule (`applies_inverts_substitute`).
-/
import TreeGrammar.Proofs.Match.Interchange
import TreeGrammar.Proofs.Tree.Feed
import TreeGrammar.Proofs.Tree.Rose

namespace TreeGrammar

namespace Tree

variable {α : Type}

/-- What is at and below node `r` of the rule, with the tree `parts l` in place of every
leaf `l`. -/
def substituteAt (rule : Tree α) (parts : Nat → Tree α) (r : Nat) : Tree α :=
  if rule.isLeaf r then parts r
  else
    .ofSubtrees (rule.label r) <|
      (rule.slots r).attach.map fun cs => cs.1.attach.map fun c => rule.substituteAt parts c.1
termination_by rule.size - r
decreasing_by
  have hc : c.1 ∈ rule.children r := by
    rw [rule.children_eq_flatten]
    exact List.mem_flatten.2 ⟨cs.1, cs.2, c.2⟩
  have := rule.lt_of_mem_children hc
  have := rule.child_lt_size hc
  omega

/-- The rule with the tree `parts l` in place of every leaf `l`. -/
def substitute (rule : Tree α) (parts : Nat → Tree α) : Tree α := rule.substituteAt parts root

/-- The trees to be put in have the labels of the leaves at their roots. -/
def Fills [BEq α] (rule : Tree α) (parts : Nat → Tree α) : Prop :=
  ∀ l < rule.size, rule.isLeaf l = true → ((parts l).rootLabel == rule.label l) = true

variable {R : α → α → Prop} {rule t u : Tree α} {parts : Nat → Tree α} {r v w : Nat}

lemma substituteAt_of_isLeaf (h : rule.isLeaf r = true) :
    rule.substituteAt parts r = parts r := by
  rw [substituteAt, if_pos h]

lemma rose_substituteAt (h : rule.isLeaf r = false) :
    (rule.substituteAt parts r).rose root =
      .node (rule.label r)
        ((rule.slots r).map (List.map fun c => (rule.substituteAt parts c).rose root)) := by
  rw [substituteAt, if_neg (by simp [h]), rose_ofSubtrees]
  simp [Function.comp_def]

/-- A node is alike another one over given rose trees if its children are alike the roots of
trees with these rose trees. -/
lemma alike_iff_of_rose_eq {a : α} {slots : List (List Nat)} {us : Nat → Tree α}
    (h : u.rose w = .node a (slots.map (List.map fun c => (us c).rose root))) :
    Alike R t u v w ↔
      R (t.label v) a ∧ SameSizes (t.slots v) slots ∧
        ∀ p ∈ pairChildren (t.slots v) slots, Alike R t (us p.2) p.1 root := by
  rw [rose_eq] at h
  obtain ⟨rfl, hslots⟩ := Rose.node.inj h
  have hsizes : SameSizes (u.slots w) slots := .of_map_eq hslots
  have hroses : ∀ p ∈ pairChildren (u.slots w) slots, Alike Eq u (us p.2) p.1 root :=
    fun p hp => .of_rose_eq (eq_of_mem_pairChildren hslots hp)
  constructor
  · intro h
    refine ⟨h.label, h.sameSizes.trans hsizes, fun p hp => ?_⟩
    obtain ⟨c, hl, hr⟩ := h.sameSizes.exists_between hp
    exact (h.child hl).comp_eq (hroses _ hr)
  · rintro ⟨hlabel, hsame, hchildren⟩
    refine .node hlabel (hsame.trans hsizes.symm) fun p hp => ?_
    obtain ⟨c, hl, hr⟩ := hsame.exists_between hp
    exact (hchildren _ hl).comp_eq (hroses _ (mem_pairChildren_comm.1 hr)).eq_symm

end Tree

namespace Matcher

variable {α : Type} {R : α → α → Prop} {rule t : Tree α} {parts : Nat → Tree α} {v : Nat}

/-- At a leaf of the rule, the tree goes on as the tree put in does; elsewhere the labels are
related, and the slots have the same sizes. -/
def Continues (R : α → α → Prop) (rule t : Tree α) (parts : Nat → Tree α) (q : Nat × Nat) :
    Prop :=
  (rule.isLeaf q.1 = true → Tree.Alike R t (parts q.1) q.2 Tree.root) ∧
    (rule.isLeaf q.1 = false →
      R (t.label q.2) (rule.label q.1) ∧ SameSizes (rule.slots q.1) (t.slots q.2))

/-- A tree is alike the outcome of a substitution if it goes on like it at all pairs. -/
theorem alike_substituteAt_iff {p : Nat × Nat} :
    Tree.Alike R t (rule.substituteAt parts p.1) p.2 Tree.root ↔
      ∀ q ∈ facing rule t p, Continues R rule t parts q := by
  induction p using induction_facing rule t with
  | pair p ih =>
    cases hleaf : rule.isLeaf p.1 with
    | true =>
      rw [facing_of_isLeaf hleaf, List.forall_mem_singleton, Tree.substituteAt_of_isLeaf hleaf]
      simp [Continues, hleaf]
    | false =>
      rw [Tree.alike_iff_of_rose_eq (Tree.rose_substituteAt hleaf), facing_eq,
        List.forall_mem_cons]
      constructor
      · rintro ⟨hlabel, hsizes, hchildren⟩
        refine ⟨⟨by simp [hleaf], fun _ => ⟨hlabel, hsizes.symm⟩⟩, fun q hq => ?_⟩
        obtain ⟨c, hc, hq⟩ := List.mem_flatMap.1 hq
        have hc := List.mem_reverse.1 hc
        exact (ih c hc).1 (hchildren (c.2, c.1) (mem_pairChildren_comm.1 hc)) q hq
      · rintro ⟨⟨-, hinner⟩, hbelow⟩
        obtain ⟨hlabel, hsizes⟩ := hinner hleaf
        refine ⟨hlabel, hsizes.symm, fun c hc => ?_⟩
        have hc' : (c.2, c.1) ∈ facingChildren rule t p := mem_pairChildren_comm.1 hc
        exact (ih (c.2, c.1) hc').2 fun q hq =>
          hbelow q (List.mem_flatMap.2 ⟨_, List.mem_reverse.2 hc', hq⟩)

lemma lt_size_of_mem_facing {q : Nat × Nat} (h : q ∈ facing rule t (Tree.root, v)) :
    q.1 < rule.size :=
  (below_of_mem_facing h).1.lt_size rule.root_lt_size

/-- Every node of a rule that lies over the tree faces a node of the tree. -/
lemma exists_mem_facing {m : Matcher α} (h : m.Lies rule t Tree.root v) {r : Nat}
    (hr : r < rule.size) : ∃ w, (r, w) ∈ facing rule t (Tree.root, v) := by
  have hmem : r ∈ (facing rule t (Tree.root, v)).map (·.1) := by
    rw [map_fst_facing h.passable]
    exact Tree.mem_plan_iff.2 hr
  obtain ⟨q, hq, rfl⟩ := List.mem_map.1 hmem
  exact ⟨q.2, hq⟩

section

variable [BEq α]

lemma subtree_beq_substitute_iff :
    (t.subtree v == rule.substitute parts) = true ↔
      ∀ q ∈ facing rule t (Tree.root, v),
        Continues (fun a b => (a == b) = true) rule t parts q := by
  rw [Tree.beq_iff_alike, ← alike_substituteAt_iff, Tree.substitute]
  constructor
  · exact (t.alike_subtree v).eq_symm.eq_comp
  · exact (t.alike_subtree v).eq_comp

variable [EquivBEq α]

/-- If the tree comes out of the rule, the tree put in for a leaf is the one at the node that
faces the leaf. -/
lemma beq_subtree_of_continues {q : Nat × Nat}
    (h : Continues (fun a b => (a == b) = true) rule t parts q) (hleaf : rule.isLeaf q.1 = true) :
    (parts q.1 == t.subtree q.2) = true :=
  BEq.symm (Tree.beq_iff_alike.2 ((t.alike_subtree q.2).eq_comp (h.1 hleaf)))

/-- Where trees that fill the rule make the tree come out of it, the rule accords. -/
lemma Continues.accords {q : Nat × Nat} (hfills : rule.Fills parts) (hq : q.1 < rule.size)
    (h : Continues (fun a b => (a == b) = true) rule t parts q) :
    Accords ⟨(· == ·), .exact⟩ rule t q := by
  cases hleaf : rule.isLeaf q.1 with
  | true =>
    have hroot := (h.1 hleaf).label
    rw [Tree.label_root] at hroot
    exact ⟨BEq.symm (BEq.trans hroot (hfills q.1 hq hleaf)), .inl hleaf⟩
  | false =>
    obtain ⟨hlabel, hsizes⟩ := h.2 hleaf
    exact ⟨BEq.symm hlabel, .inr fun s => beq_iff_eq.2 (hsizes s)⟩

/-- The subtrees at the nodes that face leaves make the tree come out of the rule. -/
lemma exists_fills_of_lies (h : Lies ⟨(· == ·), .exact⟩ rule t Tree.root v) :
    ∃ parts, rule.Fills parts ∧ (t.subtree v == rule.substitute parts) = true := by
  have haccords : ∀ q ∈ facing rule t (Tree.root, v),
      Accords ⟨(· == ·), .exact⟩ rule t q := lies_iff.1 h
  -- every rule node faces one tree node
  have hpartner : ∀ r, r < rule.size → ∃ w, (r, w) ∈ facing rule t (Tree.root, v) :=
    fun r hr => exists_mem_facing h hr
  choose! partner hpartner using hpartner
  have hpartner_eq : ∀ q ∈ facing rule t (Tree.root, v), partner q.1 = q.2 := fun q hq =>
    (fst_eq_iff_snd_eq (hpartner q.1 (lt_size_of_mem_facing hq)) hq).1 rfl
  refine ⟨fun l => t.subtree (partner l), fun l hl _ => ?_, ?_⟩
  · have hlabel : (t.subtree (partner l)).label Tree.root = t.label (partner l) :=
      (t.alike_subtree (partner l)).label
    rw [← Tree.label_root, hlabel]
    exact BEq.symm (haccords _ (hpartner l hl)).1
  · rw [subtree_beq_substitute_iff]
    intro q hq
    have hq' := haccords q hq
    refine ⟨fun _ => ?_, fun hinner => ⟨BEq.symm hq'.1, fun s => ?_⟩⟩
    · simp only [hpartner_eq q hq]
      exact (t.alike_subtree q.2).eq_symm.imp fun a b hab => hab ▸ BEq.rfl
    · exact beq_iff_eq.1 (hq'.aligned hinner s)

/-- How matching with all children and equal labels goes together with substitution. -/
structure InvertsSubstitution (rule t : Tree α) (v : Nat) : Prop where
  /-- A rule can be applied if it is more than a leaf and the subtree comes out of it when
  every leaf is replaced by some tree with the label of the leaf at its root. -/
  applies_iff : applies ⟨(· == ·), .exact⟩ rule t v = true ↔
    rule.isLeaf Tree.root = false ∧
      ∃ parts, rule.Fills parts ∧ (t.subtree v == rule.substitute parts) = true
  /-- What replaces a leaf is then equal to the subtree at the one endpoint that faces it. -/
  beq_subtree : ∀ parts, rule.Fills parts → (t.subtree v == rule.substitute parts) = true →
    ∃ vs, endpoints ⟨(· == ·), .exact⟩ rule t v = .ok vs ∧
      ∀ l < rule.size, rule.isLeaf l = true →
        ∃ e ∈ vs, (∀ w, Faces rule t v l w ↔ w = e) ∧ (parts l == t.subtree e) = true
  /-- No two ways to replace the leaves lead to the subtree, up to equality. -/
  unique : ∀ parts parts', rule.Fills parts → (t.subtree v == rule.substitute parts) = true →
    rule.Fills parts' → (t.subtree v == rule.substitute parts') = true →
    ∀ l < rule.size, rule.isLeaf l = true → (parts l == parts' l) = true

lemma lies_of_beq_substitute (hfills : rule.Fills parts)
    (h : (t.subtree v == rule.substitute parts) = true) :
    Lies ⟨(· == ·), .exact⟩ rule t Tree.root v :=
  lies_iff.2 fun q hq =>
    (subtree_beq_substitute_iff.1 h q hq).accords hfills (lt_size_of_mem_facing hq)

/-- Matching is the inverse of substitution. -/
theorem applies_inverts_substitute (rule t : Tree α) (v : Nat) :
    InvertsSubstitution rule t v where
  applies_iff := by
    rw [applies_iff_lies]
    refine and_congr_right fun _ => ⟨exists_fills_of_lies, ?_⟩
    rintro ⟨parts, hfills, hsubtree⟩
    exact lies_of_beq_substitute hfills hsubtree
  beq_subtree := by
    intro parts hfills hsubtree
    have hlies := lies_of_beq_substitute hfills hsubtree
    refine ⟨_, endpoints_of_passable hlies.passable, fun l hl hleaf => ?_⟩
    obtain ⟨e, hfaces⟩ := exists_mem_facing hlies hl
    have he : e ∈ (leafSet rule t v).toList :=
      (toList_leafSet_perm hlies.passable).mem_iff.2
        (mem_leafSides_iff.2 ⟨_, hfaces, hleaf, rfl⟩)
    refine ⟨e, he, fun w => ?_, ?_⟩
    · rw [← mem_facing_iff]
      constructor
      · intro hw
        exact (fst_eq_iff_snd_eq hw hfaces).1 rfl
      · rintro rfl
        exact hfaces
    · exact beq_subtree_of_continues (subtree_beq_substitute_iff.1 hsubtree _ hfaces) hleaf
  unique := by
    intro parts parts' hfills hsubtree hfills' hsubtree' l hl hleaf
    have hlies := lies_of_beq_substitute hfills hsubtree
    obtain ⟨e, hfaces⟩ := exists_mem_facing hlies hl
    have h := beq_subtree_of_continues (subtree_beq_substitute_iff.1 hsubtree _ hfaces) hleaf
    have h' := beq_subtree_of_continues (subtree_beq_substitute_iff.1 hsubtree' _ hfaces) hleaf
    exact BEq.trans h (BEq.symm h')

/-- A rule with an empty slot at the end, whose leaf stands for an inner node of the tree. -/
theorem applies_inverts_substitute_below_root :
    applies ⟨(· == ·), .exact⟩ (Tree.ofSubtrees 1 [[Tree.leaf 2], []])
        (Tree.ofSubtrees 0 [[Tree.ofSubtrees 1 [[Tree.ofSubtrees 2 [[Tree.leaf 3]]]]]]) 1 = true ∧
      InvertsSubstitution (Tree.ofSubtrees 1 [[Tree.leaf 2], []])
        (Tree.ofSubtrees 0 [[Tree.ofSubtrees 1 [[Tree.ofSubtrees 2 [[Tree.leaf 3]]]]]]) 1 :=
  ⟨by decide +kernel, applies_inverts_substitute _ _ _⟩

end

end Matcher

end TreeGrammar
