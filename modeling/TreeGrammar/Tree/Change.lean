/-
# Growing an arena in place

A tree grows inside its array: nodes are put behind the others, and one node is given a further
child.  All that can go wrong is found out beforehand, because a change that fails takes nothing
back of what it has written.
-/
import TreeGrammar.Tree.Arena

namespace TreeGrammar

/-- Why a tree does not get another node. -/
inductive GrowthError where
  | place (e : TreeError)
  /-- There are no positions behind `last`. -/
  | full (last : Nat)
deriving DecidableEq

/-- The wording of a `GrowthError`. -/
def GrowthError.message : GrowthError → String
  | .place e => e.message
  | .full last => "Tree exceeds " ++ toString last ++ " nodes"

/-- Computations that change an arena.  One that fails leaves the arena as it is by then, and one
that needs a node or a slot that is not there has no outcome. -/
abbrev Change (α : Type) := ExceptT GrowthError (StateT (Arena α) Option)

namespace Change

variable {α β : Type}

/-- The answer or the failure, and the arena after it. -/
def outcome (f : Change α β) (xs : Arena α) : Option (Except GrowthError β × Arena α) :=
  StateT.run (ExceptT.run f) xs

/-- Fails unless node `p` is there and has a slot `s`. -/
def checkSlot (p s : Nat) : Change α Unit := do
  let xs ← get
  match xs[p]? with
  | none => throw (.place (.unknownNode p xs.size))
  | some n =>
    if n.slots.length ≤ s then throw (.place (.invalidSlot p s n.slots.length))

/-- Notes `c` as the last child of `p` in slot `s`. -/
def link (p s c : Nat) : Change α Unit := do
  let xs ← get
  let ys ← xs.link p s c
  set ys

variable (last : Nat)

/-- The position behind the last node.  No position is greater than `last`. -/
def nextId : Change α Nat := do
  let xs ← get
  if xs.size ≤ last then return xs.size else throw (.full last)

/-- Puts the nodes of `ys` behind the others, and answers with the position of the first. -/
def append (ys : Arena α) : Change α Nat := do
  let c ← nextId last
  let xs ← get
  if xs.size + ys.size ≤ last then
    set (xs ++ ys.map (·.shift c))
    return c
  else throw (.full last)

/-- Adds a node with `k` empty slots under node `p`, as the last child in slot `s`. -/
def addChild (p s : Nat) (label : α) (k : Nat) : Change α Nat := do
  checkSlot p s
  let c ← nextId last
  modify (·.push (.bare label k))
  link p s c
  return c

/-- Hangs a copy of `ys` under node `p`, as the last child in slot `s`. -/
def graft (p s : Nat) (ys : Arena α) : Change α Nat := do
  checkSlot p s
  let c ← append last ys
  link p s c
  return c

/-- Hangs an arena under the root, behind the number of its slot. -/
def hangAtRoot (e : Nat × Arena α) : Change α Unit := do
  let c ← append last e.2
  link Tree.root e.1 c

/-- Hangs the given arenas under the root, one list for each slot. -/
def fillRoot (slots : List (List (Arena α))) : Change α Unit :=
  slots.zipIdx.foldlM (fun _ e => e.1.foldlM (fun _ ys => hangAtRoot last (e.2, ys)) ()) ()

/-- What a change has made, if it did not fail. -/
def made {β : Type} : Option (Except GrowthError β × Arena α) → Option (Arena α)
  | some (.ok _, xs) => some xs
  | some (.error _, _) => none
  | none => none

/-- A root over the given arenas.  There is none if they are too large. -/
def ofSubtrees (label : α) (slots : List (List (Arena α))) : Option (Arena α) :=
  made ((fillRoot last slots).outcome (.single label slots.length))

end Change

end TreeGrammar
