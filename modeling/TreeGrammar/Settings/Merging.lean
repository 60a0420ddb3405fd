/-
# A configuration library that can be run

The library on which the settings are loaded when the program runs.  Sources are laid over one
another in order, and overrides of single keys over all of them, wherever they were given.  An
override of a path takes the place of an earlier override of the same path.  Values are converted
where that is possible: a number or a word may say yes or no, and a text may be a number.
-/
import TreeGrammar.Decimal.Reading
import TreeGrammar.Settings.Error
import TreeGrammar.Settings.Library
import TreeGrammar.Toml.Basic

namespace TreeGrammar.Settings

/-! ### Putting together -/

/-- Sources and overrides. -/
structure Layers where
  /-- The sources in order. -/
  sources : List Source
  /-- The overrides, one for each path. -/
  overrides : List (List Step × Value)

namespace Layers

/-- Overrides what a path leads to.  The path has to be well formed. -/
def override (l : Layers) (path : String) (v : Value) : Except ConfigError Layers :=
  match readPath? path with
  | none => .error .path
  | some steps =>
    .ok { l with overrides := (l.overrides.filter fun o => o.1 != steps) ++ [(steps, v)] }

/-- The document of a text. -/
def readText (text : String) : Except ConfigError Value :=
  match Toml.read? text.toList with
  | some v => .ok v
  | none => .error .malformedFile

/-- What a source says.  A file that need not be there says nothing when it is missing. -/
def readSource (files : String → Option String) : Source → Except ConfigError Value
  | .text s => readText s
  | .file path required =>
    match files path with
    | some s => readText s
    | none => if required then .error .missingFile else .ok (.table [])

/-- Lays `v` over what a path leads to. -/
def layAt (root : Value) (path : List Step) (v : Value) : Except ConfigError Value :=
  match root.setAt path v with
  | some root => .ok root
  | none => .error .place

/-- Lays a document over a value.  The keys of the document are paths where they can be read
as such. -/
def layDocument (root doc : Value) : Except ConfigError Value :=
  doc.fields.foldlM (fun root (key, v) => layAt root ((readPath? key).getD [.field key]) v) root

/-- Everything together.  A source is looked at when those before it have been laid.  The keys of
all sources together are read as paths once more, since keys in lower case can be paths where the
keys of a source were none. -/
def build (files : String → Option String) (l : Layers) : Except ConfigError Value := do
  let below ← l.sources.foldlM (fun root s => do layDocument root (← readSource files s))
    (.table [])
  let root ← layDocument (.table []) below
  l.overrides.foldlM (fun root (path, v) => layAt root path v) root

end Layers

/-! ### Reading -/

namespace Value

/-- Reads a member of a structure: by its name in a table, by its place in an array. -/
def readMember {β : Type} (struct : String) (members : List String) (name : String) (v : Value)
    (read : Value → Except ConfigError β) : Except ConfigError (Option β) :=
  match v with
  | .table fs =>
    match (table fs).field? name with
    | some x => (read x).map some |>.mapError (·.within name)
    | none => .ok none
  | .array xs =>
    let place := members.idxOf name
    match xs[place]? with
    | some x => (read x).map some |>.mapError (·.within ("[" ++ toString place ++ "]"))
    | none => .ok none
  | v => .error (.notTable v struct)

/-- What stands at a name, in upper or lower case. -/
def variantNamed {β : Type} (enum : String) (variants : List (String × β)) (name : String) :
    Except ConfigError β :=
  match variants.find? fun p => lowercase p.1 == lowercase name with
  | some p => .ok p.2
  | none => .error (.unknownVariant enum name)

/-- Reads a name from an enumeration, or a table whose only field has this name. -/
def readVariant {β : Type} (enum : String) (variants : List (String × β)) :
    Value → Except ConfigError β
  | .str name => variantNamed enum variants name
  | .table [(name, _)] => variantNamed enum variants name
  | _ => .error (.notVariant enum)

/-- Reads a word for yes or no, or a number, which says yes unless it is zero. -/
def readFlag (v : Value) : Except ConfigError Bool :=
  match v with
  | .bool b => .ok b
  | .int n => .ok (n != 0)
  | .float x => .ok (x != 0)
  | .str s =>
    if ["1", "true", "on", "yes"].contains (lowercase s) then .ok true
    else if ["0", "false", "off", "no"].contains (lowercase s) then .ok false
    else .error (.notFlag v "")
  | v => .error (.notFlag v "")

/-- Reads the decimal digits of a count, perhaps behind a plus sign. -/
def count? (s : String) : Option UInt64 :=
  let digits := match s.toList with
    | '+' :: cs => cs
    | cs => cs
  let n := Decimal.digitsValue digits
  if digits.isEmpty || !digits.all Char.isDigit || UInt64.size ≤ n then none
  else some (UInt64.ofNat n)

/-- Reads a count: a whole number that is not negative; any other number, rounded to the
nearest count, a half away from zero; a word for yes or no, as one or zero; or digits. -/
def readCount (v : Value) : Except ConfigError UInt64 :=
  match v with
  | .int n => if n < 0 then .error (.negative n "") else .ok (UInt64.ofNat n.toNat)
  | .float x => .ok x.round.toUInt64
  | .bool b => .ok (if b then 1 else 0)
  | .str s =>
    if ["true", "on", "yes"].contains (lowercase s) then .ok 1
    else if ["false", "off", "no"].contains (lowercase s) then .ok 0
    else
      match count? s with
      | some n => .ok n
      | none => .error (.notCount v "")
  | v => .error (.notCount v "")

end Value

/-- The library. -/
def merging : Library where
  Kind := Value
  Value := Value
  Error := ConfigError
  Builder := Layers
  builder := ⟨[], []⟩
  addSource l s := { l with sources := l.sources ++ [s] }
  setOverride := Layers.override
  build := Layers.build
  member := Value.readMember
  missing := .missing
  flag := Value.readFlag
  count := Value.readCount
  variant := Value.readVariant

end TreeGrammar.Settings
