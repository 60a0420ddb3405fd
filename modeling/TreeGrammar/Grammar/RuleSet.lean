/-
# Multisets of rules

A rule set holds rules with the number of times each was added.  Equal trees are one rule,
which is kept in the form in which it came first; rules are listed in the order in which
they came.  A table from digests to places in the list keeps a look-up from comparing trees
whose digests differ; any function on tokens may serve as the digest.

Counts may be of any type with an addition.  A program keeps them in words of 64 bits, which start
again at 0 when they run over; numbers are what such counts stand for (`RuleSet.read`).
-/
import Std.Data.HashMap
import TreeGrammar.Tree.Feed

namespace TreeGrammar

/-- Rules with their counts, in order of arrival. -/
structure RuleSet (α : Type) (N : Type := Nat) where
  /-- The function that sorts rules into buckets. -/
  digest : List (Token α) → UInt64
  /-- The different rules, each with its count. -/
  entries : Array (Tree α × N)
  /-- For each digest, the places in `entries` of the rules with this digest. -/
  buckets : Std.HashMap UInt64 (List Nat)
  /-- The sum of all counts. -/
  total : N

namespace RuleSet

variable {α N M : Type}

/-- No rules, to be sorted by `digest`. -/
def emptyWith [OfNat N 0] (digest : List (Token α) → UInt64) : RuleSet α N := ⟨digest, #[], ∅, 0⟩

/-- No rules. -/
def empty [OfNat N 0] [Hashable α] : RuleSet α N := emptyWith Token.digest

/-- Number of different rules. -/
def size (s : RuleSet α N) : Nat := s.entries.size

/-- Whether there are no rules. -/
def isEmpty (s : RuleSet α N) : Bool := s.entries.isEmpty

/-- The different rules with their counts, in order of arrival. -/
def toList (s : RuleSet α N) : List (Tree α × N) := s.entries.toList

/-- The place of a rule in the list. -/
def find? [BEq α] (s : RuleSet α N) (rule : Tree α) : Option Nat :=
  (s.buckets.getD (s.digest rule.feed) []).find? fun i =>
    match s.entries[i]? with
    | some (known, _) => known == rule
    | none => false

/-- The rule set with every count replaced by what `f` makes of it. -/
def mapCounts (f : N → M) (s : RuleSet α N) : RuleSet α M where
  digest := s.digest
  entries := s.entries.map fun e => (e.1, f e.2)
  buckets := s.buckets
  total := f s.total

/-- The rule set with its words read as numbers. -/
def read (s : RuleSet α UInt64) : RuleSet α := s.mapCounts UInt64.toNat

section

variable [BEq α] [OfNat N 0] [Add N] [DecidableEq N]

/-- Adds `n` occurrences of a rule; nothing happens if `n` is 0. -/
def addCount (s : RuleSet α N) (rule : Tree α) (n : N) : RuleSet α N :=
  if n = 0 then s
  else
    match s.find? rule with
    | some i =>
      { s with
        entries := s.entries.modify i fun e => (e.1, e.2 + n)
        total := s.total + n }
    | none =>
      let h := s.digest rule.feed
      { s with
        entries := s.entries.push (rule, n)
        buckets := s.buckets.insert h (s.buckets.getD h [] ++ [s.entries.size])
        total := s.total + n }

/-- Adds one occurrence of a rule. -/
def add [OfNat N 1] (s : RuleSet α N) (rule : Tree α) : RuleSet α N := s.addCount rule 1

/-- The rules of a list, one occurrence each. -/
def ofList [OfNat N 1] [Hashable α] (rules : List (Tree α)) : RuleSet α N := rules.foldl add empty

end

/-- How many times a rule was added. -/
def count [BEq α] [OfNat N 0] (s : RuleSet α N) (rule : Tree α) : N :=
  match s.find? rule with
  | some i => (s.entries[i]?.map (·.2)).getD 0
  | none => 0

/-- Whether some rule of the set is equal to `rule` up to `eq`, which gets the labels of the
set first. -/
def containsBy (s : RuleSet α N) (eq : α → α → Bool) (rule : Tree α) : Bool :=
  s.entries.any fun e => Tree.structEq eq e.1 Tree.root rule Tree.root

end RuleSet

end TreeGrammar
