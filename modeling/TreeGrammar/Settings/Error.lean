/-
# What can be wrong with a configuration

An error names its cause and what was found in place of a value.  The wording describes the
found value and says what was expected there.  The key of a value is put together from its end on,
as an error comes out of one structure after the other (`ConfigError.within`).
-/
import TreeGrammar.Decimal.Shortest
import TreeGrammar.Settings.Value
import TreeGrammar.Text.Quoted

namespace TreeGrammar.Settings

/-- Why there is no configuration. -/
inductive ConfigError where
  /-- The path of an override is not well formed. -/
  | path
  /-- A path leads to a member that its array cannot have. -/
  | place
  /-- A file that has to be there is missing. -/
  | missingFile
  /-- A file is no TOML document. -/
  | malformedFile
  /-- What should be a structure is neither a table nor an array. -/
  | notTable (found : Value) (struct : String)
  /-- A structure lacks a member. -/
  | missing (name : String)
  /-- There is no such name in an enumeration. -/
  | unknownVariant (enum name : String)
  /-- A name from an enumeration is given neither by itself nor by a table with one field. -/
  | notVariant (enum : String)
  /-- What is at `key` says neither yes nor no. -/
  | notFlag (found : Value) (key : String)
  /-- What is at `key` is no number. -/
  | notCount (found : Value) (key : String)
  /-- What is at `key` is a number below zero. -/
  | negative (n : Int) (key : String)

/-- The key of a member of what is at `name`.  Places in an array follow without a point. -/
def keyWithin (name key : String) : String :=
  if key.isEmpty || key.front = '[' then name ++ key else name ++ "." ++ key

/-- The error as it is when what was read is at `name`. -/
def ConfigError.within (name : String) : ConfigError → ConfigError
  | notFlag found key => notFlag found (keyWithin name key)
  | notCount found key => notCount found (keyWithin name key)
  | negative n key => negative n (keyWithin name key)
  | e => e

/-- How messages describe a value. -/
def Value.description : Value → String
  | nil => "unit value"
  | bool b => "boolean `" ++ (if b then "true" else "false") ++ "`"
  | int n => "integer `" ++ toString n ++ "`"
  | float x => "floating point `" ++ Decimal.shortest x ++ "`"
  | str s => "string " ++ quoted s
  | array _ => "sequence"
  | table _ => "map"

/-- The wording of a `ConfigError`. -/
def ConfigError.message : ConfigError → String
  | path => "malformed path"
  | place => "no such place in an array"
  | missingFile => "missing file"
  | malformedFile => "malformed file"
  | notTable found struct =>
    "invalid type: " ++ found.description ++ ", expected struct " ++ struct
  | missing name => "missing field `" ++ name ++ "`"
  | unknownVariant enum name =>
    "enum " ++ enum ++ " does not have variant constructor " ++ name
  | notVariant enum =>
    "value of enum " ++ enum ++ " should be represented by either string or table with " ++
      "exactly one key"
  | notFlag found key =>
    let found : Value := match found with
      | .str s => .str (lowercase s)
      | v => v
    "invalid type: " ++ found.description ++ ", expected a boolean for key `" ++ key ++ "`"
  | notCount found key =>
    "invalid type: " ++ found.description ++ ", expected an integer for key `" ++ key ++ "`"
  | negative n key =>
    "invalid type: 64-bit integer `" ++ toString n ++
      "`, expected an unsigned 64 bit or less integer for key `" ++ key ++ "`"

end TreeGrammar.Settings
