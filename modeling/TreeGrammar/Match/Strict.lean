/-
# Laying a rule over a tree, strictly

The two walks of a matcher with a check in front of every reading, and with slots that have to
hold the children taken from them.  A node that faces a leaf of the rule is an endpoint without
being looked at.  At a node of the tree both answer as the plain walks do: a policy never lets
the rule have more children in a slot than the tree.
-/
import TreeGrammar.Match.Basic
import TreeGrammar.Tree.Strict

namespace TreeGrammar.Matcher

variable {α ε : Type}

/-! ### Whether a rule fits -/

/-- `covers`, stopping at a pair of which one is no node. -/
def strictCovers (m : Matcher α) (rule t : Tree α) : List (Nat × Nat) → Strict ε Bool
  | [] => .ok true
  | (r, v) :: todo => do
    rule.guard r
    t.guard v
    if m.eq (rule.label r) (t.label v) then
      if rule.isLeaf r then m.strictCovers rule t todo
      else if (pairSlots (rule.slots r) (t.slots v)).all m.fits then
        m.strictCovers rule t ((pairChildren (rule.slots r) (t.slots v)).reverse ++ todo)
      else .ok false
    else .ok false
termination_by todo => rule.forestWeight (todo.map (·.1))
decreasing_by
  all_goals
    have := rule.weight_eq r
    have := rule.forestWeight_pairChildren_le r (t.slots v)
    simp
    omega

/-- `applies`, stopping at what is no node. -/
def strictApplies (m : Matcher α) (rule t : Tree α) (v : Nat) : Strict ε Bool :=
  if rule.isLeaf Tree.root then .ok false else m.strictCovers rule t [(Tree.root, v)]

theorem strictCovers_eq (m : Matcher α) (rule t : Tree α) (todo : List (Nat × Nat))
    (h : ∀ p ∈ todo, p.1 < rule.size ∧ p.2 < t.size) :
    m.strictCovers (ε := ε) rule t todo = .ok (m.covers rule t todo) := by
  induction todo using covers.induct m rule t with
  | case1 => simp [strictCovers, covers]
  | case2 r v todo heq hleaf ih =>
    obtain ⟨⟨hr, hv⟩, htodo⟩ := List.forall_mem_cons.1 h
    rw [strictCovers, covers, rule.guard_of_lt hr, t.guard_of_lt hv, if_pos heq, if_pos heq,
      if_pos hleaf, if_pos hleaf]
    exact ih htodo
  | case3 r v todo heq hleaf hfits ih =>
    obtain ⟨⟨hr, hv⟩, htodo⟩ := List.forall_mem_cons.1 h
    have hnext : ∀ p ∈ (pairChildren (rule.slots r) (t.slots v)).reverse ++ todo,
        p.1 < rule.size ∧ p.2 < t.size := by
      intro p hp
      rcases List.mem_append.1 hp with hp | hp
      · exact Tree.pairChildren_lt_size rule t (List.mem_reverse.1 hp)
      · exact htodo p hp
    rw [strictCovers, covers, rule.guard_of_lt hr, t.guard_of_lt hv, if_pos heq, if_pos heq,
      if_neg hleaf, if_neg hleaf, if_pos hfits, if_pos hfits]
    exact ih hnext
  | case4 r v todo heq hleaf hfits =>
    obtain ⟨⟨hr, hv⟩, -⟩ := List.forall_mem_cons.1 h
    rw [strictCovers, covers, rule.guard_of_lt hr, t.guard_of_lt hv, if_pos heq, if_pos heq,
      if_neg hleaf, if_neg hleaf, if_neg hfits, if_neg hfits]
    rfl
  | case5 r v todo heq =>
    obtain ⟨⟨hr, hv⟩, -⟩ := List.forall_mem_cons.1 h
    rw [strictCovers, covers, rule.guard_of_lt hr, t.guard_of_lt hv, if_neg heq, if_neg heq]
    rfl

theorem strictApplies_eq (m : Matcher α) (rule t : Tree α) {v : Nat} (h : v < t.size) :
    m.strictApplies (ε := ε) rule t v = .ok (m.applies rule t v) := by
  rw [strictApplies, applies]
  split
  case isTrue hleaf => simp [hleaf]
  case isFalse hleaf =>
    rw [m.strictCovers_eq rule t _ (by simpa using ⟨rule.root_lt_size, h⟩)]
    simp [hleaf]

/-! ### The endpoints -/

/-- The children of a slot of the rule, and as many of the tree's, with the check that the
policy accepts the two slots. -/
def strictSide (m : Matcher α) (v : Nat) (p : (List Nat × List Nat) × Nat) :
    Strict MatchError (List Nat × List Nat) :=
  if m.fits p.1 then do return (p.1.1, ← strictTake p.1.2 p.1.1.length)
  else .error (.failed (.arity v p.2 p.1.1.length p.1.2.length m.policy))

/-- `round`, stopping at what is no node and at a slot with too few children. -/
def strictRound (m : Matcher α) (rule t : Tree α) :
    Descent → Strict MatchError (Option Descent)
  | ⟨r :: rs, v :: vs, found⟩ => do
    rule.guard r
    if rule.isLeaf r then .ok (some ⟨rs, vs, found.insert v⟩)
    else
      t.guard v
      if m.eq (rule.label r) (t.label v) then
        let sides ← (pairSlots (rule.slots r) (t.slots v)).zipIdx.mapM (m.strictSide v)
        return some
          ⟨(sides.flatMap (·.1)).reverse ++ rs, (sides.flatMap (·.2)).reverse ++ vs, found⟩
      else .error (.failed (.label v))
  | _ => .ok none

theorem mapM_strictSide_eq (m : Matcher α) (v n : Nat) (sides : List (List Nat × List Nat)) :
    (sides.zipIdx n).mapM (m.strictSide v) =
      match (sides.zipIdx n).find? fun p => !m.fits p.1 with
      | some ((rs, vs), s) =>
        .error (.failed (.arity v s rs.length vs.length m.policy))
      | none => .ok (sides.map fun p => (p.1, p.2.take p.1.length)) := by
  induction sides generalizing n with
  | nil => rfl
  | cons p sides ih =>
    rw [List.zipIdx_cons, List.mapM_cons, ih]
    by_cases hp : m.fits p = true
    · have hle : p.1.length ≤ p.2.length := ArityPolicy.le_of_accepts hp
      rw [List.find?_cons_of_neg (by simp [hp])]
      simp only [strictSide, hp, if_true, strictTake_eq hle]
      split
      · rfl
      · rfl
    · rw [List.find?_cons_of_pos (by simp [hp])]
      simp only [strictSide, hp]
      rfl

/-- Strictly, a round does what it does otherwise, if the nodes on the stacks are nodes. -/
theorem strictRound_eq (m : Matcher α) (rule t : Tree α) (d : Descent)
    (hr : ∀ r ∈ d.ruleTodo, r < rule.size) (ht : ∀ v ∈ d.treeTodo, v < t.size) :
    m.strictRound rule t d = (m.round rule t d).mapError .failed := by
  rcases d with ⟨_ | ⟨r, rs⟩, _ | ⟨v, vs⟩, found⟩
  case cons.cons =>
    simp only [strictRound, round, misfit?, mapM_strictSide_eq, ok_bind,
      rule.guard_of_lt (hr r List.mem_cons_self), t.guard_of_lt (ht v List.mem_cons_self)]
    split
    case isTrue => rfl
    case isFalse =>
      split
      case isTrue =>
        cases (pairSlots (rule.slots r) (t.slots v)).zipIdx.find? fun p => !m.fits p.1 with
        | some p => rfl
        | none =>
          simp only [ok_bind, List.flatMap_map]
          rfl
      case isFalse => rfl
  all_goals rfl

/-- A strict round that goes on goes on as any other. -/
theorem round_of_strictRound {m : Matcher α} {rule t : Tree α} {d d' : Descent}
    (h : m.strictRound rule t d = .ok (some d')) : m.round rule t d = .ok (some d') := by
  rcases d with ⟨_ | ⟨r, rs⟩, _ | ⟨v, vs⟩, found⟩
  case cons.cons =>
    obtain ⟨⟨⟩, -, h⟩ := bind_eq_ok.1 h
    by_cases hleaf : rule.isLeaf r = true
    · rw [if_pos hleaf] at h
      rw [round, if_pos hleaf]
      simpa using h
    rw [if_neg hleaf] at h
    obtain ⟨⟨⟩, -, h⟩ := bind_eq_ok.1 h
    by_cases heq : m.eq (rule.label r) (t.label v) = true
    · rw [if_pos heq, mapM_strictSide_eq] at h
      rw [round, if_neg hleaf, if_pos heq, misfit?]
      cases hfind : (pairSlots (rule.slots r) (t.slots v)).zipIdx.find?
          fun p => !m.fits p.1 with
      | some p =>
        rw [hfind] at h
        cases h
      | none =>
        simp only [hfind, ok_bind, List.flatMap_map] at h
        simpa [pure, Except.pure] using h
    · rw [if_neg heq] at h
      cases h
  all_goals cases h

/-- `frontier`, stopping at what is no node and at a slot with too few children. -/
def strictFrontier (m : Matcher α) (rule t : Tree α) (d : Descent) :
    Strict MatchError (Std.TreeSet Nat) :=
  match _h : m.strictRound rule t d with
  | .error e => .error e
  | .ok none => .ok d.found
  | .ok (some d') => m.strictFrontier rule t d'
termination_by rule.forestWeight d.ruleTodo
decreasing_by exact forestWeight_round_lt (round_of_strictRound _h)

/-- `endpoints`, stopping at what is no node and at a slot with too few children. -/
def strictEndpoints (m : Matcher α) (rule t : Tree α) (v : Nat) :
    Strict MatchError (List Nat) :=
  (m.strictFrontier rule t (.start v)).map Std.TreeSet.toList

/-- Only nodes go on the stacks. -/
theorem round_lt_size {m : Matcher α} {rule t : Tree α} {d d' : Descent}
    (h : m.round rule t d = .ok (some d')) (hr : ∀ r ∈ d.ruleTodo, r < rule.size)
    (ht : ∀ v ∈ d.treeTodo, v < t.size) :
    (∀ r ∈ d'.ruleTodo, r < rule.size) ∧ ∀ v ∈ d'.treeTodo, v < t.size := by
  obtain ⟨r, rs, v, vs, hrs, hvs, hd⟩ := round_eq_some h
  rw [hrs] at hr
  rw [hvs] at ht
  obtain ⟨-, hr⟩ := List.forall_mem_cons.1 hr
  obtain ⟨-, ht⟩ := List.forall_mem_cons.1 ht
  obtain ⟨-, rfl⟩ | ⟨-, -, -, rfl⟩ := hd
  · exact ⟨hr, ht⟩
  · constructor
    · intro c hc
      rcases List.mem_append.1 hc with hc | hc
      · obtain ⟨p, hp, rfl⟩ := List.mem_map.1 (List.mem_reverse.1 hc)
        exact (Tree.pairChildren_lt_size rule t hp).1
      · exact hr c hc
    · intro c hc
      rcases List.mem_append.1 hc with hc | hc
      · obtain ⟨p, hp, rfl⟩ := List.mem_map.1 (List.mem_reverse.1 hc)
        exact (Tree.pairChildren_lt_size rule t hp).2
      · exact ht c hc

theorem strictFrontier_eq (m : Matcher α) (rule t : Tree α) (d : Descent)
    (hr : ∀ r ∈ d.ruleTodo, r < rule.size) (ht : ∀ v ∈ d.treeTodo, v < t.size) :
    m.strictFrontier rule t d = (m.frontier rule t d).mapError .failed := by
  have hround := m.strictRound_eq rule t d hr ht
  induction d using frontier.induct m rule t with
  | case1 d e h =>
    rw [h] at hround
    rw [frontier_of_error h, strictFrontier]
    split <;> simp_all
  | case2 d h =>
    rw [h] at hround
    rw [frontier_of_none h, strictFrontier]
    split <;> simp_all
  | case3 d d' h ih =>
    obtain ⟨hr', ht'⟩ := round_lt_size h hr ht
    have hnext := ih hr' ht' (m.strictRound_eq rule t d' hr' ht')
    rw [h] at hround
    rw [frontier_of_some h, strictFrontier]
    split
    case h_1 hs => simp [hs] at hround
    case h_2 hs => simp [hs] at hround
    case h_3 d'' hs =>
      obtain rfl : d'' = d' := by simpa [hs] using hround
      exact hnext

theorem strictEndpoints_eq (m : Matcher α) (rule t : Tree α) {v : Nat} (h : v < t.size) :
    m.strictEndpoints rule t v = (m.endpoints rule t v).mapError .failed := by
  rw [strictEndpoints, endpoints, strictFrontier_eq]
  · cases m.frontier rule t (.start v) with
    | error e => rfl
    | ok found => rfl
  · simpa [Descent.start] using rule.root_lt_size
  · simpa [Descent.start] using h

end TreeGrammar.Matcher
