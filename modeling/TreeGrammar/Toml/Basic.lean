/-
# Reading TOML documents

A document is a run of lines: keys with values, headers of tables, and headers of tables in
an array.  It is read as a table, or refused as a whole.
-/
import TreeGrammar.Toml.Item

namespace TreeGrammar.Toml

open Settings

/-- The value of a word without quotation marks. -/
def word? (cs : List Char) : Option Value :=
  if cs = "true".toList then some (.bool true)
  else if cs = "false".toList then some (.bool false)
  else
    match integer? cs with
    | some n => some (.int n)
    | none => (float? cs).map .float

/-- Whether a character may stand in a word. -/
def isWordChar (c : Char) : Bool := c.isAlphanum || c = '_' || c = '+' || c = '-' || c = '.'

/-- Arrays and tables in braces may be nested so deep, and a key may have so many parts. -/
def maxNesting : Nat := 79

/-- Reads a key, with its parts. -/
def key? : Reader (List String) := dottedKey maxNesting

mutual

/-- Reads what stands behind a key, in at most `n` steps.  Arrays and tables in braces are nested
at most `room` deep in it. -/
def readItem : (n room : Nat) → Reader Item
  | 0, _, _ => none
  | n + 1, room, cs =>
    match cs with
    | '[' :: cs =>
      if room = 0 then none else (skipLayout? false cs).bind (readArray n (room - 1) [])
    | '\x7b' :: cs =>
      if room = 0 then none
      else
        match skipBlanks cs with
        | '\x7d' :: cs => some (.inline [], cs)
        | cs => readInline n (room - 1) [] cs
    | cs =>
      if cs.head? = some '"' || cs.head? = some '\'' then
        (string? cs).map fun (s, cs) => (.value (.str s), cs)
      else
        match moment? cs with
        | some (m, cs) => some (.moment m, cs)
        | none =>
          let (w, rest) := cs.span isWordChar
          (word? w).map fun v => (.value v, rest)

/-- Reads the members of an array behind the bracket, those read before being in `acc`, the
last one first. -/
def readArray : (n room : Nat) → List Item → Reader Item
  | 0, _, _, _ => none
  | n + 1, room, acc, cs =>
    match cs with
    | ']' :: cs => some (.array acc.reverse, cs)
    | cs => do
      let (i, cs) ← readItem n room cs
      match ← skipLayout? false cs with
      | ',' :: cs => readArray n room (i :: acc) (← skipLayout? false cs)
      | ']' :: cs => some (.array (i :: acc).reverse, cs)
      | _ => none

/-- Reads the members of a table in braces, those read before being in `acc`, the last one
first. -/
def readInline : (n room : Nat) → List (List String × Item) → Reader Item
  | 0, _, _, _ => none
  | n + 1, room, acc, cs => do
    let (key, cs) ← key? cs
    match cs with
    | '=' :: cs =>
      let (i, cs) ← readItem n room (skipBlanks cs)
      let acc := (key, i) :: acc
      match skipBlanks cs with
      | ',' :: cs => readInline n room acc cs
      | '\x7d' :: cs => do
        let items ← Items.assignAll [] acc.reverse
        some (.inline items, cs)
      | _ => none
    | _ => none

end

/-- Part of a document: the keys and items under a header, and before the first one. -/
structure Part where
  /-- The key in the header. -/
  header : List String
  /-- Whether the header adds a table to an array. -/
  inArray : Bool
  /-- The keys with their items, the last one first. -/
  keys : List (List String × Item)

/-- Reads the header of a table. -/
def readHeader? (cs : List Char) : Option (Part × List Char) :=
  match cs with
  | '[' :: '[' :: cs => do
    let (key, cs) ← key? cs
    match cs with
    | ']' :: ']' :: cs => some (⟨key, true, []⟩, ← endLine? cs)
    | _ => none
  | '[' :: cs => do
    let (key, cs) ← key? cs
    match cs with
    | ']' :: cs => some (⟨key, false, []⟩, ← endLine? cs)
    | _ => none
  | _ => none

/-- Reads a key with its item, up to the end of the line. -/
def readKeyItem? (cs : List Char) : Option ((List String × Item) × List Char) := do
  let (key, cs) ← key? cs
  match cs with
  | '=' :: cs =>
    let (i, cs) ← readItem (cs.length + 1) maxNesting (skipBlanks cs)
    some ((key, i), ← endLine? cs)
  | _ => none

/-- Reads the lines of a document, of which there are at most `n`.  The part that is being
read comes last in `parts` and first in the list. -/
def readLines : (n : Nat) → Part → List Part → List Char → Option (List Part)
  | 0, _, _, _ => none
  | n + 1, part, parts, cs =>
    match skipBlanks cs with
    | [] => some (part :: parts).reverse
    | c :: cs =>
      if c = '\n' || c = '\r' || c = '#' then do
        readLines n part parts (← endLine? (c :: cs))
      else if c = '[' then do
        let (new, cs) ← readHeader? (c :: cs)
        readLines n new (part :: parts) cs
      else do
        let (key, cs) ← readKeyItem? (c :: cs)
        readLines n { part with keys := key :: part.keys } parts cs

/-- Adds a part to the document. -/
def Items.addPart (items : Items) (p : Part) : Option Items :=
  if p.header.isEmpty then items.assignAll p.keys.reverse
  else if p.inArray then items.element p.header p.keys.reverse
  else items.section p.header p.keys.reverse

/-- The text without a byte order mark at its start. -/
def skipMark : List Char → List Char
  | '\ufeff' :: cs => cs
  | cs => cs

/-- Reads a document, which may have a byte order mark at its start.  It has to be a table: a
document that stands for a moment is refused. -/
def read? (cs : List Char) : Option Value := do
  let cs := skipMark cs
  let parts ← readLines (cs.length + 1) ⟨[], false, []⟩ [] cs
  let items ← parts.foldlM Items.addPart ([] : Items)
  match ← tableValue? items with
  | .table fs => some (.table fs)
  | _ => none

end TreeGrammar.Toml
