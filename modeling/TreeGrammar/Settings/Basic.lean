/-
# Settings

The settings say how rules are laid over trees, whether a production may stand in for a
missing rule, when a production is rare, and what makes a rule a pattern.  They are read from
a structure with a section for each of these concerns.  Every section has to be there; a field that
its section does not give has its standard value.
-/
import TreeGrammar.Corpus.Pattern
import TreeGrammar.Corpus.Treebank
import TreeGrammar.Settings.Library

namespace TreeGrammar

/-- All settings. -/
structure Settings where
  /-- How many children of a tree node a rule has to name. -/
  matching : ArityPolicy
  /-- Whether the production of a node may stand in for a missing rule. -/
  fallback : Bool
  /-- Productions that occur fewer times are rare. -/
  countLimit : Nat
  patterns : PatternSettings
deriving DecidableEq

namespace Settings

/-- The settings that hold where none are given. -/
def standard : Settings := ⟨.exact, true, Treebank.standardLimit, PatternSettings.standard⟩

/-! ### Sections and fields -/

/-- The sections of the settings. -/
inductive Section where
  | probability
  | filter
  | patterns
deriving DecidableEq

/-- The member in which a section is kept. -/
def Section.name : Section → String
  | probability => "probability"
  | filter => "filter"
  | patterns => "patterns"

/-- The structure as which a section is read. -/
def Section.struct : Section → String
  | probability => "ComputerConfig"
  | filter => "FilterConfig"
  | patterns => "PatternConfig"

/-- A single setting. -/
inductive Field where
  | matching
  | fallback
  | countLimit
  | window
  | minSize
  | minCount
deriving DecidableEq

namespace Field

/-- The section that a setting belongs to. -/
def sec : Field → Section
  | matching | fallback => .probability
  | countLimit => .filter
  | window | minSize | minCount => .patterns

/-- The name of a setting in its section. -/
def name : Field → String
  | matching => "matching"
  | fallback => "cfg_fallback"
  | countLimit => "count_limit"
  | window => "n_previous_nodes"
  | minSize => "min_size_pattern"
  | minCount => "min_pattern_count"

/-- The key of a setting. -/
def key (f : Field) : String := f.sec.name ++ "." ++ f.name

/-- What a setting may be. -/
abbrev Val : Field → Type
  | matching => ArityPolicy
  | fallback => Bool
  | countLimit | window | minSize | minCount => Nat

/-- What the settings say about a setting. -/
def of : (f : Field) → Settings → f.Val
  | matching, s => s.matching
  | fallback, s => s.fallback
  | countLimit, s => s.countLimit
  | window, s => s.patterns.window
  | minSize, s => s.patterns.minSize
  | minCount, s => s.patterns.minCount

end Field

/-- The names of the members of a section, in order. -/
def Section.members : Section → List String
  | probability => [Field.matching.name, Field.fallback.name]
  | filter => [Field.countLimit.name]
  | patterns => [Field.window.name, Field.minSize.name, Field.minCount.name]

/-- The names of all sections, in order. -/
def sectionNames : List String :=
  [Section.probability.name, Section.filter.name, Section.patterns.name]

/-! ### Reading -/

variable (lib : Library)

/-- Reads what a setting is. -/
def Field.read : (f : Field) → lib.Value → Except lib.Error f.Val
  | matching, v => lib.variant "MatchPolicy" [("exact", .exact), ("partial", .atMost)] v
  | fallback, v => lib.flag v
  | countLimit, v | window, v | minSize, v | minCount, v => (lib.count v).map UInt64.toNat

/-- Reads a setting from its section, or takes the standard value if it is not there. -/
def fieldOr (f : Field) (v : lib.Value) : Except lib.Error f.Val := do
  let x? ← lib.member f.sec.struct f.sec.members f.name v (f.read lib)
  return x?.getD (f.of standard)

/-- Reads how trees are scored. -/
def readProbability (v : lib.Value) : Except lib.Error (ArityPolicy × Bool) := do
  return (← fieldOr lib .matching v, ← fieldOr lib .fallback v)

/-- Reads when productions are rare. -/
def readFilter (v : lib.Value) : Except lib.Error Nat := fieldOr lib .countLimit v

/-- Reads what makes a pattern. -/
def readPatterns (v : lib.Value) : Except lib.Error PatternSettings := do
  return ⟨← fieldOr lib .window v, ← fieldOr lib .minSize v, ← fieldOr lib .minCount v⟩

/-- Reads a section, if it is there. -/
def sectionOf {β : Type} (sec : Section) (v : lib.Value) (read : lib.Value → Except lib.Error β) :
    Except lib.Error (Option β) :=
  lib.member "TsgConfig" sectionNames sec.name v read

/-- What was read of a section, which has to be there. -/
def require {β : Type} (sec : Section) : Option β → Except lib.Error β
  | some b => .ok b
  | none => .error (lib.missing sec.name)

/-- Reads the settings.  The sections that are there are read before a missing one is reported. -/
def readSettings (v : lib.Value) : Except lib.Error Settings := do
  let probability? ← sectionOf lib .probability v (readProbability lib)
  let filter? ← sectionOf lib .filter v (readFilter lib)
  let patterns? ← sectionOf lib .patterns v (readPatterns lib)
  let (matching, fallback) ← require lib .probability probability?
  let countLimit ← require lib .filter filter?
  let patterns ← require lib .patterns patterns?
  return { matching, fallback, countLimit, patterns }

end Settings

end TreeGrammar
