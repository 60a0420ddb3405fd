/-
# What is used of a configuration library

A library puts a configuration together from texts and files in TOML and from values for single
keys, and reads typed values off it.  Nothing else is known of it here: the loader and the readers
of settings are written for any library with these operations.
-/

namespace TreeGrammar.Settings

/-- Where a library finds what it puts together. -/
inductive Source where
  /-- A TOML text. -/
  | text (toml : String)
  /-- A TOML file, which may be missing unless it is `required`. -/
  | file (path : String) (required : Bool)
deriving DecidableEq

/-- The operations of a configuration library. -/
structure Library where
  /-- What can be put at a key. -/
  Kind : Type
  /-- What is found in a configuration. -/
  Value : Type
  /-- Why there is no configuration, or why something else was found than was to be read. -/
  Error : Type
  /-- Configurations to be. -/
  Builder : Type
  /-- No sources and no overrides. -/
  builder : Builder
  /-- Adds a source. -/
  addSource : Builder → Source → Builder
  /-- Overrides what is at a key. -/
  setOverride : Builder → (key : String) → Kind → Except Error Builder
  /-- Puts everything together, with what the files are that are there by now. -/
  build : (files : String → Option String) → Builder → Except Error Value
  /-- Reads the member `name` of a structure with the given members, if it has a value. -/
  member : {β : Type} → (struct : String) → (members : List String) → (name : String) → Value →
    (Value → Except Error β) → Except Error (Option β)
  /-- A structure has no value for a member that has to be there. -/
  missing : (name : String) → Error
  /-- Reads yes or no. -/
  flag : Value → Except Error Bool
  /-- Reads a count. -/
  count : Value → Except Error UInt64
  /-- Reads one of several names, each of which stands for something. -/
  variant : {β : Type} → (enum : String) → List (String × β) → Value → Except Error β

end TreeGrammar.Settings
