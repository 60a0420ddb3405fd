/-
# Laying a rule over a tree

A rule is a tree whose leaves are open: its root is laid on a node of a derivation tree and
the two are followed downwards together.  Labels have to agree up to the chosen comparison,
the rule's label coming first, and the numbers of children as the arity policy says.  Where
the rule has a leaf it stops, and the derivation goes on from the tree node in that place;
these nodes are the endpoints of the rule.

`Matcher.applies` decides whether a rule fits, with a stack of pairs of nodes.
`Matcher.endpoints` finds the endpoints of a rule that does, with a stack for the rule and
another one for the tree; it does not look at the labels of the rule's leaves.
-/
import Std.Data.TreeSet
import TreeGrammar.Match.Policy
import TreeGrammar.Tree.Equality

namespace TreeGrammar

/-- Why a rule does not reach its endpoints. -/
inductive MatchError where
  /-- The label of an inner node of the rule is not accepted at `node`. -/
  | label (node : Nat)
  /-- At `node`, the policy refuses the numbers of children in `slot`. -/
  | arity (node slot ruleCount treeCount : Nat) (policy : ArityPolicy)
deriving DecidableEq

/-- The wording of a `MatchError`. -/
def MatchError.message : MatchError → String
  | label node => "Rule payload does not match the payload of " ++ nodeName node
  | arity node slot ruleCount treeCount policy =>
    "Arity mismatch at " ++ nodeName node ++ ", property " ++ toString slot ++ ": rule has " ++
      toString ruleCount ++ " children, tree has " ++ toString treeCount ++ " (" ++
      policy.text ++ " matching)"

/-- Where the search for the endpoints of a rule stands. -/
structure Descent where
  /-- The rule nodes to be met, the next one first. -/
  ruleTodo : List Nat
  /-- The tree nodes that they are to face, the next one first. -/
  treeTodo : List Nat
  /-- The tree nodes that face the leaves met so far. -/
  found : Std.TreeSet Nat

/-- The root of the rule is laid on node `v`. -/
def Descent.start (v : Nat) : Descent := ⟨[Tree.root], [v], ∅⟩

/-- A comparison of labels and an arity policy. -/
structure Matcher (α : Type) where
  /-- Whether a label of the rule and one of the tree are accepted as the same. -/
  eq : α → α → Bool
  policy : ArityPolicy

namespace Matcher

variable {α : Type}

/-- Whether the policy accepts the two slots. -/
def fits (m : Matcher α) (p : List Nat × List Nat) : Bool :=
  m.policy.accepts p.1.length p.2.length

/-- Whether the rule fits below every pair on the stack, a rule node and a tree node. -/
def covers (m : Matcher α) (rule t : Tree α) : List (Nat × Nat) → Bool
  | [] => true
  | (r, v) :: todo =>
    if m.eq (rule.label r) (t.label v) then
      if rule.isLeaf r then m.covers rule t todo
      else if (pairSlots (rule.slots r) (t.slots v)).all m.fits then
        m.covers rule t ((pairChildren (rule.slots r) (t.slots v)).reverse ++ todo)
      else false
    else false
termination_by todo => rule.forestWeight (todo.map (·.1))
decreasing_by
  all_goals
    have := rule.weight_eq r
    have := rule.forestWeight_pairChildren_le r (t.slots v)
    simp
    omega

/-- Whether the rule can be applied at node `v`.  A rule of a single node covers nothing and
can be applied nowhere. -/
def applies (m : Matcher α) (rule t : Tree α) (v : Nat) : Bool :=
  !rule.isLeaf Tree.root && m.covers rule t [(Tree.root, v)]

/-- The first slot in which the policy refuses the numbers of children of `r` and `v`. -/
def misfit? (m : Matcher α) (rule t : Tree α) (r v : Nat) : Option MatchError :=
  ((pairSlots (rule.slots r) (t.slots v)).zipIdx.find? fun p => !m.fits p.1).map
    fun ((rs, vs), s) => .arity v s rs.length vs.length m.policy

/-- One round of the search for endpoints: the nodes on top of the two stacks are taken off
together, and their children are put on, in every slot as many of the tree as of the rule.
When one of the stacks is empty there is no further round. -/
def round (m : Matcher α) (rule t : Tree α) : Descent → Except MatchError (Option Descent)
  | ⟨r :: rs, v :: vs, found⟩ =>
    if rule.isLeaf r then .ok (some ⟨rs, vs, found.insert v⟩)
    else if m.eq (rule.label r) (t.label v) then
      match m.misfit? rule t r v with
      | some e => .error e
      | none =>
        let sides := pairSlots (rule.slots r) (t.slots v)
        .ok (some
          ⟨(sides.flatMap (·.1)).reverse ++ rs,
            (sides.flatMap fun p => p.2.take p.1.length).reverse ++ vs, found⟩)
    else .error (.label v)
  | _ => .ok none

theorem misfit?_eq_none_iff (m : Matcher α) (rule t : Tree α) (r v : Nat) :
    m.misfit? rule t r v = none ↔ ∀ p ∈ pairSlots (rule.slots r) (t.slots v), m.fits p = true := by
  rw [misfit?, Option.map_eq_none_iff, List.find?_eq_none]
  constructor
  · intro h p hp
    obtain ⟨i, hi, rfl⟩ := List.getElem_of_mem hp
    simpa using h _ (List.mk_mem_zipIdx_iff_getElem?.2 (List.getElem?_eq_getElem hi))
  · rintro h ⟨p, i⟩ hp
    simpa using h p (List.mem_of_getElem? (List.mk_mem_zipIdx_iff_getElem?.1 hp))

/-- What a round does that leads on: a leaf of the rule is met, or the children of the two
nodes go on the stacks, pair upon pair. -/
theorem round_eq_some {m : Matcher α} {rule t : Tree α} {d d' : Descent}
    (h : m.round rule t d = .ok (some d')) :
    ∃ r rs v vs, d.ruleTodo = r :: rs ∧ d.treeTodo = v :: vs ∧
      ((rule.isLeaf r = true ∧ d' = ⟨rs, vs, d.found.insert v⟩) ∨
        (rule.isLeaf r = false ∧ m.eq (rule.label r) (t.label v) = true ∧
          (∀ p ∈ pairSlots (rule.slots r) (t.slots v), m.fits p = true) ∧
          d' = ⟨((pairChildren (rule.slots r) (t.slots v)).map (·.1)).reverse ++ rs,
            ((pairChildren (rule.slots r) (t.slots v)).map (·.2)).reverse ++ vs, d.found⟩)) := by
  rcases d with ⟨_ | ⟨r, rs⟩, _ | ⟨v, vs⟩, found⟩
  case cons.cons =>
    refine ⟨r, rs, v, vs, rfl, rfl, ?_⟩
    rw [round] at h
    split at h
    case isTrue hleaf =>
      simp only [Except.ok.injEq, Option.some.injEq] at h
      exact .inl ⟨hleaf, h.symm⟩
    case isFalse hleaf =>
      split at h
      case isTrue heq =>
        split at h
        case h_1 => cases h
        case h_2 hnone =>
          have hfits := (m.misfit?_eq_none_iff rule t r v).1 hnone
          simp only [Except.ok.injEq, Option.some.injEq] at h
          rw [flatMap_fst_eq fun p hp => ArityPolicy.le_of_accepts (hfits p hp),
            flatMap_take_eq] at h
          exact .inr ⟨by simpa using hleaf, heq, hfits, h.symm⟩
      case isFalse => cases h
  all_goals cases h

theorem forestWeight_round_lt {m : Matcher α} {rule t : Tree α} {d d' : Descent}
    (h : m.round rule t d = .ok (some d')) :
    rule.forestWeight d'.ruleTodo < rule.forestWeight d.ruleTodo := by
  obtain ⟨r, rs, v, vs, hr, -, ⟨-, rfl⟩ | ⟨-, -, -, rfl⟩⟩ := round_eq_some h
  all_goals
    have := rule.weight_eq r
    have := rule.forestWeight_pairChildren_le r (t.slots v)
    simp [hr]
    omega

/-- The search for endpoints, round after round. -/
def frontier (m : Matcher α) (rule t : Tree α) (d : Descent) :
    Except MatchError (Std.TreeSet Nat) :=
  match _h : m.round rule t d with
  | .error e => .error e
  | .ok none => .ok d.found
  | .ok (some d') => m.frontier rule t d'
termination_by rule.forestWeight d.ruleTodo
decreasing_by exact forestWeight_round_lt _h

theorem frontier_of_error {m : Matcher α} {rule t : Tree α} {d : Descent} {e : MatchError}
    (h : m.round rule t d = .error e) : m.frontier rule t d = .error e := by
  rw [frontier]
  split <;> simp_all

theorem frontier_of_none {m : Matcher α} {rule t : Tree α} {d : Descent}
    (h : m.round rule t d = .ok none) : m.frontier rule t d = .ok d.found := by
  rw [frontier]
  split <;> simp_all

theorem frontier_of_some {m : Matcher α} {rule t : Tree α} {d d' : Descent}
    (h : m.round rule t d = .ok (some d')) : m.frontier rule t d = m.frontier rule t d' := by
  rw [frontier]
  split <;> simp_all

/-- The endpoints of the rule when it is laid on node `v`, in ascending order. -/
def endpoints (m : Matcher α) (rule t : Tree α) (v : Nat) : Except MatchError (List Nat) :=
  (m.frontier rule t (.start v)).map Std.TreeSet.toList

end Matcher

end TreeGrammar
