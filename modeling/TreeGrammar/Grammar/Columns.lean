/-
# Grammars in columns

A grammar may keep its labels in one array and its rule sets in another, with an index of the
labels beside them, so that three structures have to be kept in step.  The ways to change a
grammar are stated here once more for the columns.  A change that needs a rule set where there is
none has no outcome.
-/
import TreeGrammar.Grammar.Basic

namespace TreeGrammar

/-- A way to change a grammar. -/
inductive GrammarChange (α : Type) where
  /-- Opens an empty entry for a label that has none. -/
  | openEntry (label : α)
  /-- Adds `n` occurrences of a rule to the entry of a label. -/
  | addUnder (label : α) (rule : Tree α) (n : Nat)
  /-- Adds `n` occurrences of a rule to the entry of its root label. -/
  | addCount (rule : Tree α) (n : Nat)
  /-- Adds `n` occurrences of a rule to the entry that a look-up under `eq` finds. -/
  | addCountBy (eq : α → α → Bool) (rule : Tree α) (n : Nat)

namespace Grammar

variable {α : Type} [BEq α] [Hashable α]

/-- Makes a change. -/
def change (g : Grammar α) : GrammarChange α → Grammar α
  | .openEntry label => g.openEntry label
  | .addUnder label rule n => g.addUnder label rule n
  | .addCount rule n => g.addCount rule n
  | .addCountBy eq rule n => g.addCountBy eq rule n

/-- Makes some changes one after the other. -/
def changeAll (g : Grammar α) (changes : List (GrammarChange α)) : Grammar α :=
  changes.foldl change g

end Grammar

/-- Labels and rule sets in two arrays, what belongs together in the same place. -/
structure Columns (α : Type) [BEq α] [Hashable α] where
  labels : Array α
  ruleSets : Array (RuleSet α)
  /-- The place of each label in `labels`. -/
  index : Std.HashMap α Nat

namespace Columns

variable {α : Type} [BEq α] [Hashable α]

/-- The columns without entries. -/
def empty : Columns α := ⟨#[], #[], ∅⟩

/-! ### Looking up -/

/-- The place of the entry for `label`: that of the very label, or else the first one whose
label `eq` accepts. -/
def find? (c : Columns α) (eq : α → α → Bool) (label : α) : Option Nat :=
  match c.index[label]? with
  | some i => some i
  | none => c.labels.findIdx? fun key => eq key label

/-- The rules that a look-up of `label` under `eq` finds, if it finds any.  There is no outcome
where a label has no rule set beside it. -/
def productionsFor (c : Columns α) (eq : α → α → Bool) (label : α) :
    Option (Option (RuleSet α)) :=
  match c.find? eq label with
  | some i => c.ruleSets[i]?.map some
  | none => some none

/-! ### Changing -/

/-- The place of the entry for `label`, which is opened if need be. -/
def place (c : Columns α) (label : α) : Nat × Columns α :=
  match c.index[label]? with
  | some i => (i, c)
  | none =>
    let i := c.labels.size
    (i, ⟨c.labels.push label, c.ruleSets.push .empty, c.index.insert label i⟩)

/-- Opens an empty entry for a label that has none. -/
def openEntry (c : Columns α) (label : α) : Option (Columns α) :=
  let p := c.place label
  if p.1 < p.2.ruleSets.size then some p.2 else none

/-- Adds `n` occurrences of a rule to the rule set at a place. -/
def addAt (c : Columns α) (i : Nat) (rule : Tree α) (n : Nat) : Option (Columns α) :=
  if i < c.ruleSets.size then
    some { c with ruleSets := c.ruleSets.modify i (·.addCount rule n) }
  else none

/-- Adds `n` occurrences of a rule to the entry of `label`, which is opened if need be. -/
def addUnder (c : Columns α) (label : α) (rule : Tree α) (n : Nat) : Option (Columns α) :=
  let p := c.place label
  p.2.addAt p.1 rule n

/-- Adds `n` occurrences of a rule to the entry of its root label. -/
def addCount (c : Columns α) (rule : Tree α) (n : Nat) : Option (Columns α) :=
  c.addUnder rule.rootLabel rule n

/-- Adds `n` occurrences of a rule to the entry that a look-up of its root label under `eq`
finds, or else to a new entry of that label. -/
def addCountBy (c : Columns α) (eq : α → α → Bool) (rule : Tree α) (n : Nat) :
    Option (Columns α) :=
  match c.find? eq rule.rootLabel with
  | some i => c.addAt i rule n
  | none => c.addCount rule n

/-- Makes a change. -/
def change (c : Columns α) : GrammarChange α → Option (Columns α)
  | .openEntry label => c.openEntry label
  | .addUnder label rule n => c.addUnder label rule n
  | .addCount rule n => c.addCount rule n
  | .addCountBy eq rule n => c.addCountBy eq rule n

/-- Makes some changes one after the other. -/
def changeAll (c : Columns α) (changes : List (GrammarChange α)) : Option (Columns α) :=
  changes.foldlM change c

end Columns

namespace Grammar

variable {α : Type} [BEq α] [Hashable α]

/-- The columns of a grammar. -/
def columns (g : Grammar α) : Columns α := ⟨g.entries.map (·.1), g.entries.map (·.2), g.index⟩

end Grammar

end TreeGrammar
