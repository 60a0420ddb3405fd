/-
# Tables of scores

A score table has a cell for every node of a tree.  A cell is written once; to write it
again, to write to a node outside the tree, or to ask for a cell that is still blank is an
error and changes nothing.  A tree has few enough nodes for the cells of its table; only a table
that is asked for with a number of cells (`new`) may find no room.
-/
import TreeGrammar.Memory
import TreeGrammar.Tree.Basic

namespace TreeGrammar

/-- A misuse of a score table. -/
inductive TableError where
  /-- The cell is still blank. -/
  | missing (node : Nat)
  /-- The cell is written already. -/
  | duplicate (node : Nat)
  /-- The table has `size` cells, and none for the node. -/
  | foreign (node size : Nat)
deriving DecidableEq

/-- The wording of a `TableError`. -/
def TableError.message : TableError → String
  | missing node => "No probability computed yet for " ++ nodeName node
  | duplicate node => "Probability for " ++ nodeName node ++ " was already computed"
  | foreign node size =>
    nodeName node ++ " is outside the tree (" ++ toString size ++ " nodes)"

/-- A cell for each node. -/
structure ScoreTable (W : Type) where
  cells : Array (Option W)

namespace ScoreTable

variable {W : Type}

/-- A table of `n` blank cells. -/
def blank (n : Nat) : ScoreTable W := ⟨Array.replicate n none⟩

/-- A table of `n` blank cells of so many bytes each, if there is room for it. -/
def new (bytes n : Nat) : Except NoRoom (ScoreTable W) := do
  setAside bytes n
  return blank n

/-- The score of a node, if there is one. -/
def get? (t : ScoreTable W) (v : Nat) : Option W := (t.cells[v]?).join

/-- The score of a node, which has to be there. -/
def require (t : ScoreTable W) (v : Nat) : Except TableError W :=
  match t.get? v with
  | some x => .ok x
  | none => .error (.missing v)

/-- Writes the score of a node. -/
def insert (t : ScoreTable W) (v : Nat) (x : W) : Except TableError (ScoreTable W) :=
  if h : v < t.cells.size then
    if t.cells[v].isSome then .error (.duplicate v)
    else .ok ⟨t.cells.set v (some x)⟩
  else .error (.foreign v t.cells.size)

/-- Number of cells that are written. -/
def size (t : ScoreTable W) : Nat := t.cells.countP Option.isSome

/-- Whether every cell is blank. -/
def isEmpty (t : ScoreTable W) : Bool := t.size == 0

/-- Whether every cell is written. -/
def isComplete (t : ScoreTable W) : Bool := t.cells.all Option.isSome

/-- The nodes with a score, in ascending order, each with its score. -/
def toList (t : ScoreTable W) : List (Nat × W) :=
  t.cells.toList.zipIdx.filterMap fun (cell, v) => cell.map fun x => (v, x)

/-- The nodes with a score in the same order, as words of 32 bits. -/
def listing (t : ScoreTable W) : List (UInt32 × W) :=
  t.cells.toList.zipIdx.filterMap fun (cell, v) => cell.map fun x => (UInt32.ofNat v, x)

/-! ### Writing in place -/

/-- Computations that write to a score table.  One that fails leaves the table as it is by then. -/
abbrev Filling (W : Type) := ExceptT TableError (StateM (ScoreTable W))

/-- The answer or the failure, and the table after it. -/
def Filling.outcome {β : Type} (f : Filling W β) (t : ScoreTable W) :
    Except TableError β × ScoreTable W :=
  Id.run (StateT.run (ExceptT.run f) t)

/-- Writes the score of a node into the table itself. -/
def write (v : Nat) (x : W) : Filling W Unit := do
  let t ← get
  let some cell := t.cells[v]? | throw (.foreign v t.cells.size)
  if cell.isSome then throw (.duplicate v)
  else modify fun t => ⟨t.cells.setIfInBounds v (some x)⟩

end ScoreTable

end TreeGrammar
