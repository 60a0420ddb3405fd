/-
# Tree-substitution grammars

A grammar has an entry for each root label, with the rules that expand it.  Entries are
kept in order of arrival and are found by label; a look-up under a coarser comparison tries
the label itself before it takes the first entry whose label the comparison accepts.
-/
import TreeGrammar.Grammar.RuleSet

namespace TreeGrammar

/-- Where rules are looked up: for a comparison and a label, the rules for this label.  The
comparison gets the label of the entry first. -/
abbrev RuleSource (α : Type) (N : Type := Nat) := (α → α → Bool) → α → Option (RuleSet α N)

/-- The source with the words in its rule sets read as numbers. -/
def RuleSource.read {α : Type} (source : RuleSource α UInt64) : RuleSource α := fun eq label =>
  (source eq label).map RuleSet.read

/-- Rule sets by root label, in order of arrival. -/
structure Grammar (α : Type) [BEq α] [Hashable α] (N : Type := Nat) where
  /-- The labels with their rules. -/
  entries : Array (α × RuleSet α N)
  /-- The place of each label in `entries`. -/
  index : Std.HashMap α Nat

namespace Grammar

variable {α N M : Type} [BEq α] [Hashable α]

/-- The grammar without entries. -/
def empty : Grammar α N := ⟨#[], ∅⟩

/-- Number of entries. -/
def size (g : Grammar α N) : Nat := g.entries.size

/-- Whether there are no entries. -/
def isEmpty (g : Grammar α N) : Bool := g.entries.isEmpty

/-- The entries in order of arrival. -/
def toList (g : Grammar α N) : List (α × RuleSet α N) := g.entries.toList

/-- The labels in order of arrival. -/
def labels (g : Grammar α N) : List α := g.toList.map (·.1)

/-- Number of rule occurrences in all entries. -/
def total [OfNat N 0] [Add N] (g : Grammar α N) : N :=
  g.toList.foldl (fun n e => n + e.2.total) 0

/-- The grammar with every count replaced by what `f` makes of it. -/
def mapCounts (f : N → M) (g : Grammar α N) : Grammar α M where
  entries := g.entries.map fun e => (e.1, e.2.mapCounts f)
  index := g.index

/-- The grammar with its words read as numbers. -/
def read (g : Grammar α UInt64) : Grammar α := g.mapCounts UInt64.toNat

/-! ### Looking up -/

/-- The place of the entry for `label`: that of the very label, or else the first one whose
label `eq` accepts. -/
def find? (g : Grammar α N) (eq : α → α → Bool) (label : α) : Option Nat :=
  match g.index[label]? with
  | some i => some i
  | none => g.entries.findIdx? fun e => eq e.1 label

/-- The rules in the entry of exactly this label. -/
def productions (g : Grammar α N) (label : α) : Option (RuleSet α N) :=
  g.index[label]?.bind fun i => g.entries[i]?.map (·.2)

/-- The rules that a look-up of `label` under `eq` finds. -/
def productionsFor (g : Grammar α N) : RuleSource α N := fun eq label =>
  (g.find? eq label).bind fun i => g.entries[i]?.map (·.2)

/-! ### Adding -/

/-- Opens an empty entry for a label that has none. -/
def openEntry [OfNat N 0] (g : Grammar α N) (label : α) : Grammar α N :=
  if g.index.contains label then g
  else
    { entries := g.entries.push (label, .empty)
      index := g.index.insert label g.entries.size }

section

variable [OfNat N 0] [Add N] [DecidableEq N]

/-- Adds `n` occurrences of a rule to the entry at a place. -/
def addAt (g : Grammar α N) (i : Nat) (rule : Tree α) (n : N) : Grammar α N :=
  { g with entries := g.entries.modify i fun e => (e.1, e.2.addCount rule n) }

/-- Adds `n` occurrences of a rule to the entry of `label`, which is opened if need be. -/
def addUnder (g : Grammar α N) (label : α) (rule : Tree α) (n : N) : Grammar α N :=
  let g := g.openEntry label
  match g.index[label]? with
  | some i => g.addAt i rule n
  | none => g

/-- Adds `n` occurrences of a rule to the entry of its root label. -/
def addCount (g : Grammar α N) (rule : Tree α) (n : N) : Grammar α N :=
  g.addUnder rule.rootLabel rule n

/-- Adds `n` occurrences of a rule to the entry that a look-up of its root label under `eq`
finds, or else to a new entry of that label. -/
def addCountBy (g : Grammar α N) (eq : α → α → Bool) (rule : Tree α) (n : N) : Grammar α N :=
  match g.find? eq rule.rootLabel with
  | some i => g.addAt i rule n
  | none => g.addCount rule n

variable [OfNat N 1]

/-- Adds one occurrence of a rule to the entry of its root label. -/
def add (g : Grammar α N) (rule : Tree α) : Grammar α N := g.addCount rule 1

/-- Adds one occurrence of a rule to the entry that a look-up of its root label under `eq`
finds, or else to a new entry of that label. -/
def addBy (g : Grammar α N) (eq : α → α → Bool) (rule : Tree α) : Grammar α N :=
  g.addCountBy eq rule 1

/-- The grammar of a list of rules. -/
def ofList (rules : List (Tree α)) : Grammar α N := rules.foldl add empty

end

end Grammar

/-- Rule sets by root label, in no order, and looked up by the very label only. -/
abbrev RuleTable (α : Type) [BEq α] [Hashable α] (N : Type := Nat) := Std.HashMap α (RuleSet α N)

namespace RuleTable

variable {α N : Type} [BEq α] [Hashable α] [OfNat N 0]

/-- Opens an empty entry for a label that has none. -/
def openEntry (rs : RuleTable α N) (label : α) : RuleTable α N := rs.insertIfNew label .empty

/-- Adds `n` occurrences of a rule to the entry of `label`. -/
def addUnder [Add N] [DecidableEq N] (rs : RuleTable α N) (label : α) (rule : Tree α) (n : N) :
    RuleTable α N :=
  rs.insert label ((rs.getD label .empty).addCount rule n)

omit [OfNat N 0] in
/-- The rules in the entry of the label, whatever the comparison. -/
def source (rs : RuleTable α N) : RuleSource α N := fun _ label => rs[label]?

end RuleTable

end TreeGrammar
