/-
# The two walks of a matcher

`Matcher.applies` keeps a stack of pairs of nodes and looks at the label first.
`Matcher.endpoints` keeps two stacks, and looks at no label of a leaf of the rule.  Both go
through the pairs of `facing` one after the other until one of them is refused, so that they
agree with each other and with `Matcher.Lies`, which follows the rule downwards:

* `covers_iff`: the first walk accepts when every pair accords;
* `frontier_ofPairs`: the second walk meets the pairs in the same order, its two stacks being
  the two sides of one list of pairs;
* `walks_agree`: what one walk answers in terms of the other, and what the errors mean.
-/
import TreeGrammar.Match.Strict
import TreeGrammar.Proofs.Match.Facing

namespace TreeGrammar

/-- A descent whose stacks are the two sides of a list of pairs. -/
def Descent.ofPairs (ps : List (Nat × Nat)) (found : Std.TreeSet Nat) : Descent :=
  ⟨ps.map (·.1), ps.map (·.2), found⟩

namespace Matcher

variable {α : Type} {m : Matcher α} {rule t : Tree α}

/-! ### Numbers of children -/

/-- Whether the policy accepts the two nodes in every slot. -/
def Aligned (m : Matcher α) (rule t : Tree α) (r v : Nat) : Prop :=
  ∀ s, m.policy.accepts (rule.slot r s).length (t.slot v s).length = true

lemma aligned_iff_all {r v : Nat} :
    m.Aligned rule t r v ↔ ∀ p ∈ pairSlots (rule.slots r) (t.slots v), m.fits p = true := by
  constructor
  · intro h p hp
    obtain ⟨s, -, rfl⟩ := mem_pairSlots_iff.1 hp
    exact h s
  · intro h s
    by_cases hs : s < max (rule.slots r).length (t.slots v).length
    · exact h _ (mem_pairSlots_iff.2 ⟨s, hs, rfl⟩)
    · -- beyond the last slot there is nothing on either side
      rw [Tree.slot, Tree.slot, List.getD_eq_default _ _ (by omega),
        List.getD_eq_default _ _ (by omega)]
      cases m.policy with
      | exact => rfl
      | atMost => rfl

lemma misfit?_eq_none_iff_aligned {r v : Nat} :
    m.misfit? rule t r v = none ↔ m.Aligned rule t r v := by
  rw [misfit?_eq_none_iff, aligned_iff_all]

/-- A misfit is a slot of one of the nodes in which the policy refuses the two numbers. -/
lemma misfit?_eq_some {r v : Nat} {e : MatchError} (h : m.misfit? rule t r v = some e) :
    ∃ s < max (rule.slotCount r) (t.slotCount v),
      e = .arity v s (rule.slot r s).length (t.slot v s).length m.policy ∧
        m.policy.accepts (rule.slot r s).length (t.slot v s).length = false := by
  rw [misfit?, Option.map_eq_some_iff] at h
  obtain ⟨⟨p, s⟩, hfind, rfl⟩ := h
  have hrefused := List.find?_some hfind
  have hget := List.mk_mem_zipIdx_iff_getElem?.1 (List.mem_of_find?_eq_some hfind)
  rw [pairSlots_eq_map_range, List.getElem?_map] at hget
  obtain ⟨s', hs', rfl⟩ := Option.map_eq_some_iff.1 hget
  obtain ⟨hs, rfl⟩ : s < max (rule.slots r).length (t.slots v).length ∧ s = s' := by
    simpa [List.getElem?_eq_some_iff] using hs'
  exact ⟨s, hs, rfl, by simpa [fits, Tree.slot] using hrefused⟩

/-! ### The walk that decides -/

/-- The label of the tree is accepted, and so are the numbers of children, unless the rule has
a leaf here. -/
def Accords (m : Matcher α) (rule t : Tree α) (p : Nat × Nat) : Prop :=
  m.eq (rule.label p.1) (t.label p.2) = true ∧
    (rule.isLeaf p.1 = true ∨ m.Aligned rule t p.1 p.2)

lemma Accords.aligned {p : Nat × Nat} (h : m.Accords rule t p)
    (hinner : rule.isLeaf p.1 = false) : m.Aligned rule t p.1 p.2 :=
  h.2.resolve_left (by simp [hinner])

/-- The first walk accepts when all pairs below those on its stack accord. -/
theorem covers_iff (m : Matcher α) (rule t : Tree α) (todo : List (Nat × Nat)) :
    m.covers rule t todo = true ↔
      ∀ p ∈ todo, ∀ q ∈ facing rule t p, m.Accords rule t q := by
  induction todo using covers.induct m rule t with
  | case1 => simp [covers]
  | case2 r v todo heq hleaf ih =>
    rw [covers, if_pos heq, if_pos hleaf, ih, List.forall_mem_cons,
      facing_of_isLeaf (p := (r, v)) hleaf, List.forall_mem_singleton]
    exact (and_iff_right ⟨heq, .inl hleaf⟩).symm
  | case3 r v todo heq hleaf hfits ih =>
    have haccords : m.Accords rule t (r, v) :=
      ⟨heq, .inr (aligned_iff_all.2 (List.all_eq_true.1 hfits))⟩
    rw [covers, if_pos heq, if_neg hleaf, if_pos hfits, ih, List.forall_mem_append,
      List.forall_mem_cons, facing_eq rule t (r, v), List.forall_mem_cons]
    refine and_congr_left fun _ => ?_
    rw [and_iff_right haccords]
    simp only [List.mem_flatMap, facingChildren]
    constructor
    · rintro h q ⟨c, hc, hq⟩
      exact h c hc q hq
    · intro h c hc q hq
      exact h q ⟨c, hc, hq⟩
  | case4 r v todo heq hleaf hfits =>
    -- the pair on top does not accord, for its numbers of children
    rw [covers, if_pos heq, if_neg hleaf, if_neg hfits]
    refine iff_of_false (by simp) fun h => ?_
    obtain ⟨-, hl | ha⟩ := h (r, v) List.mem_cons_self (r, v) (mem_facing_self rule t _)
    · exact hleaf hl
    · exact hfits (List.all_eq_true.2 (aligned_iff_all.1 ha))
  | case5 r v todo heq =>
    -- nor does it here, for its label
    rw [covers, if_neg heq]
    refine iff_of_false (by simp) fun h => ?_
    exact heq (h (r, v) List.mem_cons_self (r, v) (mem_facing_self rule t _)).1

/-- The rule at `r` lies over the tree at `v`: the label is accepted, and `r` is a leaf, or in
every slot the policy accepts the numbers of children and the children lie over those in the
same place. -/
inductive Lies (m : Matcher α) (rule t : Tree α) : Nat → Nat → Prop
  | leaf {r v : Nat} (heq : m.eq (rule.label r) (t.label v) = true)
      (hleaf : rule.isLeaf r = true) : Lies m rule t r v
  | inner {r v : Nat} (heq : m.eq (rule.label r) (t.label v) = true)
      (hslots : ∀ s, m.policy.accepts (rule.slot r s).length (t.slot v s).length = true)
      (hchildren : ∀ s i r' v', rule.child? r s i = some r' → t.child? v s i = some v' →
        Lies m rule t r' v') : Lies m rule t r v

theorem lies_iff {p : Nat × Nat} :
    m.Lies rule t p.1 p.2 ↔ ∀ q ∈ facing rule t p, m.Accords rule t q := by
  induction p using induction_facing rule t with
  | pair p ih =>
    constructor
    · intro h
      cases h with
      | leaf heq hleaf =>
        rw [facing_of_isLeaf hleaf, List.forall_mem_singleton]
        exact ⟨heq, .inl hleaf⟩
      | inner heq hslots hchildren =>
        intro q hq
        rw [facing_eq] at hq
        rcases List.mem_cons.1 hq with rfl | hq
        · exact ⟨heq, .inr hslots⟩
        · obtain ⟨c, hc, hq⟩ := List.mem_flatMap.1 hq
          have hc := List.mem_reverse.1 hc
          obtain ⟨s, i, hr, hv⟩ := mem_facingChildren_iff.1 hc
          exact (ih c hc).1 (hchildren s i c.1 c.2 hr hv) q hq
    · intro h
      obtain ⟨heq, hleaf | hslots⟩ := h p (mem_facing_self rule t p)
      · exact .leaf heq hleaf
      · refine .inner heq hslots fun s i r' v' hr hv => ?_
        have hc : (r', v') ∈ facingChildren rule t p :=
          mem_facingChildren_iff.2 ⟨s, i, hr, hv⟩
        exact (ih _ hc).2 fun q hq => h q (facing_trans (mem_facing_child hc) hq)

theorem applies_iff {v : Nat} :
    m.applies rule t v = true ↔
      rule.isLeaf Tree.root = false ∧
        ∀ q ∈ facing rule t (Tree.root, v), m.Accords rule t q := by
  rw [applies, Bool.and_eq_true, covers_iff, List.forall_mem_singleton]
  simp

theorem applies_iff_lies {v : Nat} :
    m.applies rule t v = true ↔ rule.isLeaf Tree.root = false ∧ m.Lies rule t Tree.root v := by
  rw [applies_iff]
  exact and_congr_right fun _ => lies_iff.symm

/-! ### The walk that collects -/

/-- What the second walk does with a pair. -/
def meet (m : Matcher α) (rule t : Tree α) (found : Std.TreeSet Nat) (p : Nat × Nat) :
    Except MatchError (Std.TreeSet Nat) :=
  if rule.isLeaf p.1 then .ok (found.insert p.2)
  else if m.eq (rule.label p.1) (t.label p.2) then
    match m.misfit? rule t p.1 p.2 with
    | some e => .error e
    | none => .ok found
  else .error (.label p.2)

lemma round_ofPairs_nil (m : Matcher α) (rule t : Tree α) (found : Std.TreeSet Nat) :
    m.round rule t (.ofPairs [] found) = .ok none := rfl

/-- A round meets the first pair and puts the pairs of its children in its place. -/
lemma round_ofPairs_cons (m : Matcher α) (rule t : Tree α) (p : Nat × Nat)
    (ps : List (Nat × Nat)) (found : Std.TreeSet Nat) :
    m.round rule t (.ofPairs (p :: ps) found) =
      (m.meet rule t found p).map fun found' =>
        some (.ofPairs ((facingChildren rule t p).reverse ++ ps) found') := by
  simp only [Descent.ofPairs, List.map_cons, round, meet]
  split
  case isTrue hleaf =>
    rw [facingChildren_of_isLeaf hleaf]
    rfl
  case isFalse =>
    split
    case isTrue =>
      cases hmis : m.misfit? rule t p.1 p.2 with
      | some e => rfl
      | none =>
        -- where the policy accepts, the two stacks get the sides of the same pairs
        have hfits := (m.misfit?_eq_none_iff rule t p.1 p.2).1 hmis
        simp only [Except.map, flatMap_take_eq, List.map_append, List.map_reverse,
          facingChildren,
          flatMap_fst_eq fun p hp => ArityPolicy.le_of_accepts (hfits p hp)]
    case isFalse => rfl

/-- The second walk meets the pairs below those on its stacks one after the other. -/
theorem frontier_ofPairs (m : Matcher α) (rule t : Tree α) (ps : List (Nat × Nat))
    (found : Std.TreeSet Nat) :
    m.frontier rule t (.ofPairs ps found) =
      (ps.flatMap (facing rule t)).foldlM (m.meet rule t) found := by
  -- every round that leads on leaves fewer nodes of the rule to be met
  induction hn : rule.forestWeight (ps.map (·.1)) using Nat.strong_induction_on
    generalizing ps found with
  | _ n ih =>
    cases ps with
    | nil => exact frontier_of_none (m.round_ofPairs_nil rule t found)
    | cons p ps =>
      have hround := m.round_ofPairs_cons rule t p ps found
      rw [List.flatMap_cons, facing_eq, List.cons_append, List.foldlM_cons]
      cases hmeet : m.meet rule t found p with
      | error e =>
        rw [hmeet] at hround
        exact frontier_of_error hround
      | ok found' =>
        rw [hmeet] at hround
        rw [frontier_of_some hround, ok_bind, ← List.flatMap_append]
        exact ih _ (hn ▸ forestWeight_round_lt hround) _ found' rfl

/-- What the second walk asks of a pair: nothing at a leaf of the rule, and otherwise that it
accords. -/
def Passable (m : Matcher α) (rule t : Tree α) (p : Nat × Nat) : Prop :=
  rule.isLeaf p.1 = true ∨
    (m.eq (rule.label p.1) (t.label p.2) = true ∧ m.Aligned rule t p.1 p.2)

lemma Accords.passable {p : Nat × Nat} (h : m.Accords rule t p) : m.Passable rule t p := by
  obtain ⟨heq, hleaf | halign⟩ := h
  · exact .inl hleaf
  · exact .inr ⟨heq, halign⟩

/-- Why the second walk stops at a pair. -/
inductive Refuses (m : Matcher α) (rule t : Tree α) (p : Nat × Nat) : MatchError → Prop
  | label (hleaf : rule.isLeaf p.1 = false)
      (heq : m.eq (rule.label p.1) (t.label p.2) = false) : Refuses m rule t p (.label p.2)
  | arity {s : Nat} (hleaf : rule.isLeaf p.1 = false)
      (hs : s < max (rule.slotCount p.1) (t.slotCount p.2))
      (haccepts : m.policy.accepts (rule.slot p.1 s).length (t.slot p.2 s).length = false) :
      Refuses m rule t p
        (.arity p.2 s (rule.slot p.1 s).length (t.slot p.2 s).length m.policy)

lemma Refuses.not_passable {p : Nat × Nat} {e : MatchError} (h : m.Refuses rule t p e) :
    ¬ m.Passable rule t p := by
  rintro (hl | ⟨heq', halign⟩)
  · cases h with
    | label hleaf _ => simp [hl] at hleaf
    | arity hleaf _ _ => simp [hl] at hleaf
  · cases h with
    | label _ heq => simp [heq'] at heq
    | arity _ _ haccepts => simp [halign _] at haccepts

/-- A pair is passed, and its tree node is noted down if the rule has a leaf there, or else the
walk stops with a reason. -/
lemma meet_cases (m : Matcher α) (rule t : Tree α) (found : Std.TreeSet Nat) (p : Nat × Nat) :
    (m.Passable rule t p ∧
      m.meet rule t found p = .ok (if rule.isLeaf p.1 then found.insert p.2 else found)) ∨
    ∃ e, m.Refuses rule t p e ∧ m.meet rule t found p = .error e := by
  rw [meet]
  by_cases hleaf : rule.isLeaf p.1 = true
  · rw [if_pos hleaf, if_pos hleaf]
    exact .inl ⟨.inl hleaf, rfl⟩
  simp only [hleaf]
  by_cases heq : m.eq (rule.label p.1) (t.label p.2) = true
  · simp only [heq, if_true]
    cases hmis : m.misfit? rule t p.1 p.2 with
    | none => exact .inl ⟨.inr ⟨heq, misfit?_eq_none_iff_aligned.1 hmis⟩, rfl⟩
    | some e =>
      obtain ⟨s, hs, rfl, haccepts⟩ := misfit?_eq_some hmis
      exact .inr ⟨_, .arity (by simpa using hleaf) hs haccepts, rfl⟩
  · simp only [heq]
    exact .inr ⟨_, .label (by simpa using hleaf) (by simpa using heq), rfl⟩

/-- The tree nodes of the pairs at which the rule has a leaf. -/
def leafSides (rule : Tree α) (qs : List (Nat × Nat)) : List Nat :=
  (qs.filter fun q => rule.isLeaf q.1).map (·.2)

lemma foldlM_meet_of_passable (qs : List (Nat × Nat)) (found : Std.TreeSet Nat)
    (h : ∀ q ∈ qs, m.Passable rule t q) :
    qs.foldlM (m.meet rule t) found =
      .ok ((leafSides rule qs).foldl (fun found w => found.insert w) found) := by
  induction qs generalizing found with
  | nil => rfl
  | cons q qs ih =>
    obtain ⟨hq, hqs⟩ := List.forall_mem_cons.1 h
    obtain ⟨-, hmeet⟩ | ⟨e, hrefuses, -⟩ := m.meet_cases rule t found q
    · rw [List.foldlM_cons, hmeet, ok_bind, ih _ hqs, leafSides, leafSides, List.filter_cons]
      split
      · rfl
      · rfl
    · exact absurd hq hrefuses.not_passable

lemma foldlM_meet_of_not_passable (qs : List (Nat × Nat)) (found : Std.TreeSet Nat)
    (h : ∃ q ∈ qs, ¬ m.Passable rule t q) :
    ∃ q ∈ qs, ∃ e, m.Refuses rule t q e ∧ qs.foldlM (m.meet rule t) found = .error e := by
  induction qs generalizing found with
  | nil => simp at h
  | cons q qs ih =>
    rw [List.foldlM_cons]
    obtain ⟨hq, hmeet⟩ | ⟨e, hrefuses, hmeet⟩ := m.meet_cases rule t found q
    · obtain ⟨q', hq', hnot⟩ := h
      have hlater : ∃ q ∈ qs, ¬ m.Passable rule t q := by
        rcases List.mem_cons.1 hq' with rfl | hq'
        · exact absurd hq hnot
        · exact ⟨q', hq', hnot⟩
      obtain ⟨q', hq', e, hrefuses, herr⟩ := ih _ hlater
      exact ⟨q', List.mem_cons_of_mem _ hq', e, hrefuses, by rw [hmeet, ok_bind, herr]⟩
    · exact ⟨q, List.mem_cons_self, e, hrefuses, by rw [hmeet, error_bind]⟩

/-- The set of the tree nodes that face leaves of the rule. -/
def leafSet (rule t : Tree α) (v : Nat) : Std.TreeSet Nat :=
  (leafSides rule (facing rule t (Tree.root, v))).foldl (fun found w => found.insert w) ∅

lemma endpoints_eq (m : Matcher α) (rule t : Tree α) (v : Nat) :
    m.endpoints rule t v =
      ((facing rule t (Tree.root, v)).foldlM (m.meet rule t) ∅).map Std.TreeSet.toList := by
  have hstart : Descent.start v = .ofPairs [(Tree.root, v)] ∅ := rfl
  rw [endpoints, hstart, frontier_ofPairs, List.flatMap_singleton]

/-- If every pair is passable the endpoints are the tree nodes that face leaves. -/
theorem endpoints_of_passable {v : Nat}
    (h : ∀ q ∈ facing rule t (Tree.root, v), m.Passable rule t q) :
    m.endpoints rule t v = .ok (leafSet rule t v).toList := by
  rw [endpoints_eq, foldlM_meet_of_passable _ _ h]
  rfl

theorem endpoints_eq_ok_iff {v : Nat} :
    (∃ vs, m.endpoints rule t v = .ok vs) ↔
      ∀ q ∈ facing rule t (Tree.root, v), m.Passable rule t q := by
  constructor
  · rintro ⟨vs, hvs⟩
    by_contra hnot
    push Not at hnot
    obtain ⟨q, -, e, -, herr⟩ := foldlM_meet_of_not_passable _ ∅ hnot
    rw [endpoints_eq, herr] at hvs
    cases hvs
  · intro h
    exact ⟨_, endpoints_of_passable h⟩

/-- An error of the second walk tells of a pair that it refuses. -/
theorem endpoints_eq_error {v : Nat} {e : MatchError} (h : m.endpoints rule t v = .error e) :
    ∃ q ∈ facing rule t (Tree.root, v), m.Refuses rule t q e := by
  by_cases hall : ∀ q ∈ facing rule t (Tree.root, v), m.Passable rule t q
  · rw [endpoints_of_passable hall] at h
    cases h
  · push Not at hall
    obtain ⟨q, hq, e', hrefuses, herr⟩ := foldlM_meet_of_not_passable _ ∅ hall
    rw [endpoints_eq, herr] at h
    cases h
    exact ⟨q, hq, hrefuses⟩

/-! ### Both walks -/

/-- The states that the second walk passes through when the rule is laid on `v`. -/
inductive Passes (m : Matcher α) (rule t : Tree α) (v : Nat) : Descent → Prop
  | start : Passes m rule t v (.start v)
  | next {d d' : Descent} : Passes m rule t v d → m.round rule t d = .ok (some d') →
      Passes m rule t v d'

/-- The stacks are the two sides of a list of pairs that face each other. -/
lemma Passes.exists_pairs {v : Nat} {d : Descent} (h : m.Passes rule t v d) :
    ∃ ps found, d = .ofPairs ps found ∧ ∀ p ∈ ps, Faces rule t v p.1 p.2 := by
  induction h with
  | start =>
    refine ⟨[(Tree.root, v)], ∅, rfl, ?_⟩
    simpa using Faces.root
  | next _ hround ih =>
    obtain ⟨ps, found, rfl, hps⟩ := ih
    cases ps with
    | nil => cases hround
    | cons p ps =>
      obtain ⟨hp, hps⟩ := List.forall_mem_cons.1 hps
      rw [round_ofPairs_cons] at hround
      cases hmeet : m.meet rule t found p with
      | error e =>
        rw [hmeet] at hround
        cases hround
      | ok found' =>
        rw [hmeet] at hround
        cases hround
        refine ⟨_, found', rfl, fun q hq => ?_⟩
        rcases List.mem_append.1 hq with hq | hq
        · obtain ⟨s, i, hr, hw⟩ := mem_facingChildren_iff.1 (List.mem_reverse.1 hq)
          exact hp.child hr hw
        · exact hps q hq

lemma Faces.lt_size {v r w : Nat} (h : Faces rule t v r w) (hv : v < t.size) :
    r < rule.size ∧ w < t.size := by
  cases h with
  | root => exact ⟨rule.root_lt_size, hv⟩
  | @child r₀ w₀ s i _ _ _ hr hw =>
    have hc : (r, w) ∈ facingChildren rule t (r₀, w₀) :=
      mem_facingChildren_iff.2 ⟨s, i, hr, hw⟩
    exact Tree.pairChildren_lt_size rule t hc

/-- How the walks of a matcher over a rule and the tree at `v` go together. -/
structure WalksAgree (m : Matcher α) (rule t : Tree α) (v : Nat) : Prop where
  /-- A rule can be applied if it is more than a leaf, reaches its endpoints, and the labels of
  its leaves are accepted as well. -/
  applies_iff_endpoints : m.applies rule t v = true ↔
    rule.isLeaf Tree.root = false ∧ (∃ vs, m.endpoints rule t v = .ok vs) ∧
      ∀ r w, Faces rule t v r w → rule.isLeaf r = true → m.eq (rule.label r) (t.label w) = true
  /-- A rule can be applied if it is more than a leaf and lies over the tree. -/
  applies_iff_lies : m.applies rule t v = true ↔
    rule.isLeaf Tree.root = false ∧ m.Lies rule t Tree.root v
  /-- The two stacks are always of one length. -/
  length_eq : ∀ d, m.Passes rule t v d → d.ruleTodo.length = d.treeTodo.length
  /-- With all nodes and slots checked before they are read the second walk does the same. -/
  strictRound_eq : ∀ d, m.Passes rule t v d →
    m.strictRound rule t d = (m.round rule t d).mapError .failed
  /-- A refused label is that of an inner node of the rule. -/
  label_error : ∀ w, m.endpoints rule t v = .error (.label w) →
    ∃ r, Faces rule t v r w ∧ rule.isLeaf r = false ∧
      m.eq (rule.label r) (t.label w) = false
  /-- Refused numbers of children are those of two nodes in one slot. -/
  arity_error : ∀ w s ruleCount treeCount policy,
    m.endpoints rule t v = .error (.arity w s ruleCount treeCount policy) →
    ∃ r, Faces rule t v r w ∧ rule.isLeaf r = false ∧
      s < max (rule.slotCount r) (t.slotCount w) ∧
      ruleCount = (rule.slot r s).length ∧ treeCount = (t.slot w s).length ∧
      policy = m.policy ∧ policy.accepts ruleCount treeCount = false

/-- The walk that decides and the walk that collects agree at every node of the tree. -/
theorem walks_agree (m : Matcher α) (rule t : Tree α) {v : Nat} (hv : v < t.size) :
    WalksAgree m rule t v where
  applies_iff_endpoints := by
    rw [applies_iff, endpoints_eq_ok_iff]
    refine and_congr_right fun _ => ?_
    constructor
    · intro h
      exact ⟨fun q hq => (h q hq).passable, fun r w hf _ => (h _ (mem_facing_iff.2 hf)).1⟩
    · rintro ⟨hpass, hleaves⟩ q hq
      rcases hpass q hq with hleaf | ⟨heq, halign⟩
      · exact ⟨hleaves _ _ (mem_facing_iff.1 hq) hleaf, .inl hleaf⟩
      · exact ⟨heq, .inr halign⟩
  applies_iff_lies := Matcher.applies_iff_lies
  length_eq d hd := by
    obtain ⟨ps, found, rfl, -⟩ := hd.exists_pairs
    simp [Descent.ofPairs]
  strictRound_eq d hd := by
    obtain ⟨ps, found, rfl, hps⟩ := hd.exists_pairs
    refine m.strictRound_eq rule t _ ?_ ?_
    · intro r hr
      obtain ⟨p, hp, rfl⟩ := List.mem_map.1 hr
      exact ((hps p hp).lt_size hv).1
    · intro w hw
      obtain ⟨p, hp, rfl⟩ := List.mem_map.1 hw
      exact ((hps p hp).lt_size hv).2
  label_error w h := by
    obtain ⟨⟨r, w'⟩, hq, hrefuses⟩ := endpoints_eq_error h
    cases hrefuses with
    | label hleaf heq => exact ⟨r, mem_facing_iff.1 hq, hleaf, heq⟩
  arity_error w s ruleCount treeCount policy h := by
    obtain ⟨⟨r, w'⟩, hq, hrefuses⟩ := endpoints_eq_error h
    cases hrefuses with
    | arity hleaf hs haccepts =>
      exact ⟨r, mem_facing_iff.1 hq, hleaf, hs, rfl, rfl, rfl, haccepts⟩

/-- A rule over the inner node of a tree of two levels. -/
theorem walks_agree_below_root :
    1 < (Tree.ofSubtrees 0 [[Tree.ofSubtrees 1 [[Tree.leaf 2], [Tree.leaf 3]]]]).size ∧
      WalksAgree ⟨(· == ·), .exact⟩ (Tree.ofSubtrees 1 [[Tree.leaf 2], [Tree.leaf 3]])
        (Tree.ofSubtrees 0 [[Tree.ofSubtrees 1 [[Tree.leaf 2], [Tree.leaf 3]]]]) 1 :=
  ⟨by decide +kernel, walks_agree _ _ _ (by decide +kernel)⟩

end Matcher

end TreeGrammar
