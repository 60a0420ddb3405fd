/-
# Patterns and where they occur

The frequent and sizeable rules of a grammar are its patterns, numbered from 1; the number 0
stands for no pattern.  A tree is scanned in preorder, and every node where a pattern can be
applied gives a sample: the number of the pattern, and the labels met just before.  Room for these
labels is set aside before a tree is scanned, so many bytes for each.
-/
import TreeGrammar.Grammar.Basic
import TreeGrammar.Match.Basic
import TreeGrammar.Memory
import TreeGrammar.Tree.Rose

namespace TreeGrammar

/-- What makes a rule a pattern, and how much a sample remembers. -/
structure PatternSettings where
  /-- How many of the labels met before a sample are kept. -/
  window : Nat
  /-- The least number of nodes of a pattern. -/
  minSize : Nat
  /-- The least number of occurrences of a pattern. -/
  minCount : Nat
deriving DecidableEq

/-- The settings that hold where none are given. -/
def PatternSettings.standard : PatternSettings := ⟨10, 6, 20⟩

/-- An occurrence of a pattern, after the labels that led up to it. -/
structure Sample (α : Type) where
  pattern : Nat
  /-- The labels met before, the oldest first. -/
  previous : List α
deriving DecidableEq

/-- A queue with room for so many items. -/
structure Recent (α : Type) (room : Nat) where
  /-- The items, the oldest first. -/
  items : List α
  length_le : items.length ≤ room

namespace Recent

variable {α : Type} {room : Nat}

/-- No items. -/
def empty : Recent α room := ⟨[], Nat.zero_le room⟩

/-- Puts an item into the queue, in place of the oldest one if there is no room left; a queue
without any room stays empty. -/
def push (q : Recent α room) (x : α) : Recent α room :=
  if h : room = 0 then q
  else
    { items := (if q.items.length = room then q.items.tail else q.items) ++ [x]
      length_le := by
        have := q.length_le
        split <;> simp <;> omega }

end Recent

/-- How far the scan of a tree has come. -/
structure Scan (α : Type) (window : Nat) where
  /-- The samples that were taken. -/
  found : Array (Sample α)
  /-- The labels met last. -/
  met : Recent α window

/-- The number that stands for no pattern. -/
def noPattern : Nat := 0

/-- There is no pattern with the number `id` among the `registered` ones. -/
structure UnknownPattern where
  id : Nat
  registered : Nat
deriving DecidableEq

/-- The wording of an `UnknownPattern`. -/
def UnknownPattern.message (e : UnknownPattern) : String :=
  "Unknown pattern id " ++ toString e.id ++ " (" ++ toString e.registered ++
    " patterns registered)"

/-- Numbered patterns. -/
structure PatternBook (α : Type) where
  patterns : Array (Tree α)

namespace PatternBook

variable {α : Type}

/-- Makes a rule the next pattern if it is frequent and sizeable. -/
def register (settings : PatternSettings) (b : PatternBook α) (r : Tree α × Nat) :
    PatternBook α :=
  if settings.minCount ≤ r.2 ∧ settings.minSize ≤ r.1.size then ⟨b.patterns.push r.1⟩ else b

/-- The patterns of a grammar, entry by entry and rule by rule. -/
def ofGrammar [BEq α] [Hashable α] (settings : PatternSettings) (g : Grammar α) :
    PatternBook α :=
  g.toList.foldl (fun b e => e.2.toList.foldl (register settings) b) ⟨#[]⟩

/-- Number of patterns. -/
def size (b : PatternBook α) : Nat := b.patterns.size

/-- Whether there are no patterns. -/
def isEmpty (b : PatternBook α) : Bool := b.patterns.isEmpty

/-- The pattern with a number. -/
def get? (b : PatternBook α) (id : Nat) : Option (Tree α) :=
  if id = noPattern then none else b.patterns[id - 1]?

/-- The patterns with their numbers. -/
def toList (b : PatternBook α) : List (Nat × Tree α) :=
  (b.patterns.toList.zipIdx 1).map Prod.swap

/-- Numbers the members of a list by words of 32 bits, from `id` on.  After the greatest word comes
zero. -/
def numberFrom {β : Type} (id : UInt32) : List β → List (UInt32 × β)
  | [] => []
  | x :: xs => (id, x) :: numberFrom (id + 1) xs

/-- The patterns with their numbers, as words of 32 bits. -/
def listing (b : PatternBook α) : List (UInt32 × Tree α) := numberFrom 1 b.patterns.toList

/-- The numbers of the patterns that can be applied at a node, in ascending order. -/
def idsAt (b : PatternBook α) (eq : α → α → Bool) (t : Tree α) (v : Nat) : List Nat :=
  (b.toList.filter fun p => (Matcher.mk eq .exact).applies p.2 t v).map (·.1)

/-- Visits one more node: takes a sample of every pattern that can be applied there, and then
remembers its label. -/
def visit {window : Nat} (b : PatternBook α) (eq : α → α → Bool) (t : Tree α)
    (scan : Scan α window) (v : Nat) : Scan α window :=
  { found := scan.found ++ (b.idsAt eq t v).map fun id => Sample.mk id scan.met.items
    met := scan.met.push (t.label v) }

/-- Scans a tree: every occurrence of a pattern, with at most `window` of the labels met before. -/
def scan (b : PatternBook α) (window : Nat) (eq : α → α → Bool) (t : Tree α) :
    List (Sample α) :=
  (t.plan.foldl (b.visit eq t) ⟨#[], .empty⟩ : Scan α window).found.toList

/-- The samples of a tree, when `window` labels of so many bytes are remembered. -/
def samples (b : PatternBook α) (bytes window : Nat) (eq : α → α → Bool) (t : Tree α) :
    Except NoRoom (List (Sample α)) := do
  setAside bytes window
  return b.scan window eq t

/-- The samples of several trees, tree after tree. -/
def samplesOfAll (b : PatternBook α) (bytes window : Nat) (eq : α → α → Bool)
    (ts : List (Tree α)) : Except NoRoom (List (Sample α)) :=
  (ts.mapM (b.samples bytes window eq)).map List.flatten

/-- The text of a sample, from those of the pattern and of the labels before it. -/
def sampleText (pattern : String) (previous : List String) : String :=
  "Sample [tsgPattern=" ++ pattern ++ ", previousNodes=[" ++ ", ".intercalate previous ++ "]]"

/-- The text of a sample, with labels written by `write`. -/
def describe (b : PatternBook α) (write : α → String) (s : Sample α) :
    Except UnknownPattern String := do
  let pattern ←
    if s.pattern = noPattern then pure "NO_PATTERN"
    else
      match b.patterns[s.pattern - 1]? with
      | some t => pure (t.text write)
      | none => throw ⟨s.pattern, b.size⟩
  return sampleText pattern (s.previous.map write)

end PatternBook

end TreeGrammar
