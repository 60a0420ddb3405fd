/-
# Scores of derivation trees

The score of a node is the weight of all its derivations.  A leaf has weight one.  At any
other node each rule of the grammar that can be applied there is an alternative: its own
weight times the scores of its endpoints.  With the fallback switched on, the production of
the node is a further alternative, unless the grammar holds it already; where the grammar
has no entry for the label, the score is the product of the children's scores.

The nodes are scored in reverse preorder, so that everything below a node has its score
before the node is reached.
-/
import TreeGrammar.Grammar.Basic
import TreeGrammar.Match.Basic
import TreeGrammar.Score.Table
import TreeGrammar.Score.Weighting
import TreeGrammar.Tree.Copy
import TreeGrammar.Tree.Schedule

namespace TreeGrammar

/-- Why a tree has no score. -/
inductive ScoreError where
  | table (e : TableError)
  | endpoints (e : MatchError)
deriving DecidableEq

/-- The wording of a `ScoreError`. -/
def ScoreError.message : ScoreError → String
  | table e => e.message
  | endpoints e => e.message

/-- What scores depend on besides the tree. -/
structure Scorer (α W : Type) where
  /-- The rules. -/
  source : RuleSource α
  /-- How rules are laid over the tree. -/
  matcher : Matcher α
  /-- Whether the production of a node may stand in for a missing rule. -/
  fallback : Bool
  /-- The weight of a rule, where it is not its share of the occurrences. -/
  posterior : Option (Tree α → W)
  weighting : Weighting W

namespace Scorer

variable {α W : Type}

/-- Reads the score of a node that has one. -/
def read (table : ScoreTable W) (v : Nat) : Except ScoreError W :=
  (table.require v).mapError .table

/-- The weight `x` times the scores of the nodes. -/
def timesScores (s : Scorer α W) (table : ScoreTable W) (x : W) (vs : List Nat) :
    Except ScoreError W :=
  vs.foldlM (fun x v => do return s.weighting.mul x (← read table v)) x

/-- The product of the scores of the children. -/
def childrenScore (s : Scorer α W) (t : Tree α) (table : ScoreTable W) (v : Nat) :
    Except ScoreError W :=
  s.timesScores table s.weighting.one (t.children v)

/-- The weight of a rule with `n` occurrences among `rules`. -/
def ruleWeight (s : Scorer α W) (rules : RuleSet α) (rule : Tree α) (n : Nat) : W :=
  match s.posterior with
  | some weigh => weigh rule
  | none => s.weighting.share n rules.total

/-- The weight of a rule times the scores of its endpoints. -/
def ruleScore (s : Scorer α W) (t : Tree α) (table : ScoreTable W) (v : Nat)
    (rules : RuleSet α) (e : Tree α × Nat) : Except ScoreError W := do
  let vs ← (s.matcher.endpoints e.1 t v).mapError .endpoints
  s.timesScores table (s.ruleWeight rules e.1 e.2) vs

/-- What the rules contribute that can be applied at a node, in the order of the rules. -/
def matched (s : Scorer α W) (t : Tree α) (table : ScoreTable W) (v : Nat)
    (rules : RuleSet α) : Except ScoreError (List W) :=
  (rules.toList.filter fun e => s.matcher.applies e.1 t v).mapM (s.ruleScore t table v rules)

/-- The weight of the production of a node when it stands in for a missing rule, if it is
to do so. -/
def fallbackWeight? (s : Scorer α W) (t : Tree α) (table : ScoreTable W) (v : Nat)
    (rules : RuleSet α) : Except ScoreError (Option W) := do
  if s.fallback then
    let production := t.oneLevel v
    if rules.containsBy s.matcher.eq production then return none
    else
      let x := match s.posterior with
        | some weigh => weigh production
        | none => s.weighting.one
      return some (s.weighting.mul x (← s.childrenScore t table v))
  else return none

/-- The score of a node, from a table that has the scores of all that is below it. -/
def nodeScore (s : Scorer α W) (t : Tree α) (table : ScoreTable W) (v : Nat) :
    Except ScoreError W := do
  if t.isLeaf v then return s.weighting.one
  else
    match s.source s.matcher.eq (t.label v) with
    | none => s.childrenScore t table v
    | some rules =>
      let ws ← s.matched t table v rules
      let w? ← s.fallbackWeight? t table v rules
      return s.weighting.sum (ws ++ w?.toList)

/-- Scores one more node. -/
def step (s : Scorer α W) (t : Tree α) (table : ScoreTable W) (v : Nat) :
    Except ScoreError (ScoreTable W) := do
  let x ← s.nodeScore t table v
  (table.insert v x).mapError .table

/-- The scores of all nodes. -/
def scores (s : Scorer α W) (t : Tree α) : Except ScoreError (ScoreTable W) :=
  t.schedule.reverse.foldlM (s.step t) (.blank t.size)

/-- The score of the root. -/
def treeScore (s : Scorer α W) (t : Tree α) : Except ScoreError W := do
  read (← s.scores t) Tree.root

end Scorer

end TreeGrammar
