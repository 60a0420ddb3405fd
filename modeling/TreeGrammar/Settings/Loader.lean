/-
# Loading settings in layers

A loader begins with a text that has all the standard settings.  Files lie on it in the order in
which they were given, and overrides of single keys lie on top.
-/
import TreeGrammar.Settings.Basic

namespace TreeGrammar.Settings

/-- The standard settings as a TOML text. -/
def defaultText : String := "\n".intercalate [
  "# Built-in defaults. Files layered through `Loader` override these keys.",
  "",
  "[probability]",
  "# \"exact\": a rule matches only when every property has as many children as",
  "# the tree node. \"partial\": the rule may declare a prefix of the children.",
  "matching = \"exact\"",
  "# Add the node's one-level production as an extra derivation when the",
  "# grammar lacks it.",
  "cfg_fallback = true",
  "",
  "[filter]",
  "# One-level productions seen fewer times than this are cut from the corpus.",
  "count_limit = 2",
  "",
  "[patterns]",
  "n_previous_nodes = 10",
  "min_size_pattern = 6",
  "min_pattern_count = 20",
  ""]

/-- Settings that are being put together. -/
structure Loader (lib : Library) where
  builder : lib.Builder

namespace Loader

variable {lib : Library}

/-- The standard settings. -/
def new : Loader lib := ⟨lib.addSource lib.builder (.text defaultText)⟩

/-- Adds a file, which has to be there when the settings are built. -/
def withFile (l : Loader lib) (path : String) : Loader lib :=
  ⟨lib.addSource l.builder (.file path true)⟩

/-- Adds a file, which need not be there. -/
def withOptionalFile (l : Loader lib) (path : String) : Loader lib :=
  ⟨lib.addSource l.builder (.file path false)⟩

/-- Overrides what is at a key. -/
def setOverride (l : Loader lib) (key : String) (k : lib.Kind) : Except lib.Error (Loader lib) := do
  return ⟨← lib.setOverride l.builder key k⟩

/-- Builds the settings, with what the files are that are there by now. -/
def build (files : String → Option String) (l : Loader lib) : Except lib.Error Settings := do
  readSettings lib (← lib.build files l.builder)

end Loader

/-- The standard settings alone. -/
def loadDefaults (lib : Library) (files : String → Option String) : Except lib.Error Settings :=
  (Loader.new : Loader lib).build files

/-! ### Layers -/

/-- A call that adds to a loader. -/
inductive Layer (Kind : Type) where
  | file (path : String)
  | optionalFile (path : String)
  | override (key : String) (k : Kind)

variable {lib : Library}

/-- Adds a layer. -/
def Loader.add (l : Loader lib) : Layer lib.Kind → Except lib.Error (Loader lib)
  | .file path => .ok (l.withFile path)
  | .optionalFile path => .ok (l.withOptionalFile path)
  | .override key k => l.setOverride key k

variable (lib) in
/-- The settings of a list of layers. -/
def load (files : String → Option String) (layers : List (Layer lib.Kind)) :
    Except lib.Error Settings := do
  (← layers.foldlM Loader.add Loader.new).build files

end TreeGrammar.Settings
