/-
# Items of a document

The lines of a TOML document build up nested tables.  A table may be opened by a header, by
the header of a table inside it, or by a dotted key; how it came about decides what may be
added to it later.  Nothing is ever set twice.  When all lines are read, the items become
values: dates and times become their texts, and so does a table that stands for one.
-/
import TreeGrammar.Settings.Value
import TreeGrammar.Toml.Moment

namespace TreeGrammar.Toml

open Settings

/-- What a key of a document stands for. -/
inductive Item where
  /-- A value that is finished as it stands. -/
  | value (v : Value)
  /-- A date or a time. -/
  | moment (m : Moment)
  /-- An array in brackets. -/
  | array (xs : List Item)
  /-- A table in braces, to which nothing is added later. -/
  | inline (items : List (String × Item))
  /-- A table.  It is `implicit` until a header names it, and `dotted` if a dotted key opened
  it. -/
  | table (implicit dotted : Bool) (items : List (String × Item))
  /-- The tables of an array that grows by headers, the last one first. -/
  | tables (ts : List (List (String × Item)))

/-! ### Finished values -/

/-- A table that begins with this key stands for the moment that the text at the key names. -/
def momentKey : String := "$__toml_private_datetime"

/-- The moment that an item names.  Only a text does, and it has to be a moment as a whole. -/
def Item.moment? : Item → Option Moment
  | .value (.str s) =>
    match Toml.moment? s.toList with
    | some (m, []) => some m
    | _ => none
  | _ => none

mutual

/-- The finished value of an item.  There is none if a table in it stands for a moment without
naming one. -/
def Item.value? : Item → Option Value
  | .value v => some v
  | .moment m => some (.str m.text)
  | .array xs => (memberValues? xs).map .array
  | .inline items => tableValue? items
  | .table _ _ items => tableValue? items
  | .tables ts => (tableValues? ts).map fun vs => .array vs.reverse

/-- The finished value of a table.  Behind the key of a moment nothing is looked at. -/
def tableValue? : List (String × Item) → Option Value
  | [] => some (.table [])
  | (k, i) :: items =>
    if k = momentKey then i.moment?.map fun m => .str m.text
    else do
      let v ← i.value?
      some (.table ((k, v) :: (← fieldValues? items)))

/-- The finished fields of a table, whatever their keys are. -/
def fieldValues? : List (String × Item) → Option (List (String × Value))
  | [] => some []
  | (k, i) :: items => do
    let v ← i.value?
    some ((k, v) :: (← fieldValues? items))

/-- The finished members of an array. -/
def memberValues? : List Item → Option (List Value)
  | [] => some []
  | i :: is => do
    let v ← i.value?
    some (v :: (← memberValues? is))

/-- The finished tables of an array. -/
def tableValues? : List (List (String × Item)) → Option (List Value)
  | [] => some []
  | t :: ts => do
    let v ← tableValue? t
    some (v :: (← tableValues? ts))

end

/-! ### Building up -/

/-- The items of a table. -/
abbrev Items := List (String × Item)

/-- The items with one of them set. -/
def Items.put (items : Items) (k : String) (i : Item) : Items :=
  if items.any fun f => f.1 == k then items.map fun f => if f.1 == k then (k, i) else f
  else items ++ [(k, i)]

/-- The items without one of them. -/
def Items.erase (items : Items) (k : String) : Items := items.filter fun f => f.1 != k

/-- The item with a key. -/
def Items.get? (items : Items) (k : String) : Option Item :=
  (items.find? fun f => f.1 == k).map (·.2)

/-- Changes the table that a path leads to; `change` is also told whether a dotted key opened
this table.  Tables on the way that are missing are opened.  The way of a dotted key may not
lead through a table that a header has named, and no way leads through a value. -/
def Items.within (byDottedKey : Bool) (change : Bool → Items → Option Items) :
    (dotted : Bool) → (path : List String) → Items → Option Items
  | dotted, [], items => change dotted items
  | _, k :: path, items =>
    match items.get? k with
    | none =>
      (Items.within byDottedKey change byDottedKey path []).map fun sub =>
        items.put k (.table true byDottedKey sub)
    | some (.table implicit dotted sub) =>
      if byDottedKey && !implicit then none
      else
        (Items.within byDottedKey change dotted path sub).map fun sub =>
          items.put k (.table implicit dotted sub)
    | some (.tables (t :: ts)) =>
      (Items.within byDottedKey change false path t).map fun t => items.put k (.tables (t :: ts))
    | some _ => none

/-- Sets an item by a key.  A key with points adds to tables opened by such keys only. -/
def Items.assign (items : Items) (key : List String) (i : Item) : Option Items :=
  let path := key.dropLast
  items.within true
    (fun dotted items => do
      let name ← key.getLast?
      if dotted == path.isEmpty then none
      else if (items.get? name).isSome then none
      else some (items.put name i))
    false path

/-- Sets the items of a list of keys. -/
def Items.assignAll (items : Items) (keys : List (List String × Item)) : Option Items :=
  keys.foldlM (fun items (key, i) => items.assign key i) items

/-- Opens the table that a header names, and sets items in it.  The table must be new, or
must have come about by the header of a table inside it; then it moves behind its neighbours. -/
def Items.section (items : Items) (key : List String) (keys : List (List String × Item)) :
    Option Items :=
  items.within false
    (fun _ items => do
      let name ← key.getLast?
      let old ← match items.get? name with
        | none => some []
        | some (.table true false old) => some old
        | some _ => none
      let new ← Items.assignAll old keys
      some (items.erase name ++ [(name, .table false false new)]))
    false key.dropLast

/-- Adds a table to the array that a header names, and sets items in it. -/
def Items.element (items : Items) (key : List String) (keys : List (List String × Item)) :
    Option Items :=
  items.within false
    (fun _ items => do
      let name ← key.getLast?
      let old ← match items.get? name with
        | none => some []
        | some (.tables ts) => some ts
        | some _ => none
      let new ← Items.assignAll [] keys
      some (items.put name (.tables (new :: old))))
    false key.dropLast

end TreeGrammar.Toml
