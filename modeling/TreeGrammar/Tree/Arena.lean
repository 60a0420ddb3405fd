/-
# Arenas

A tree is kept in an arena, an array of nodes that name one another by position.  The operations
on trees are stated here once more by what they do to the array, with no promise that it is a
tree: nodes are put behind the others, moved on by an offset and linked, and a copy grows node by
node, each under the position that it gets.  Where an operation names a node or a slot that is
not there it has no outcome, and neither has a loop that does not end.
-/
import TreeGrammar.Tree.Basic

namespace TreeGrammar

/-- An array of nodes, the first of which is to be the root. -/
abbrev Arena (α : Type) := Array (Node α)

namespace Arena

variable {α : Type}

/-! ### Looking at an arena -/

/-- The child of `v` at place `i` of slot `s`. -/
def child? (xs : Arena α) (v s i : Nat) : Option Nat := do
  let n ← xs[v]?
  (n.slots.getD s [])[i]?

/-- The node to which a path leads from `v`, every step being a slot and a place in it. -/
def follow (xs : Arena α) (v : Nat) (path : List (Nat × Nat)) : Option Nat :=
  path.foldlM (fun v e => xs.child? v e.1 e.2) v

/-- Whether node `p` has a slot `s`. -/
def hasSlot (xs : Arena α) (p s : Nat) : Bool :=
  match xs[p]? with
  | some n => decide (s < n.slots.length)
  | none => false

/-- Visits the nodes at and below those on the stack.  The answer has the visited nodes, the
last one first, in front of `seen`. -/
def walk (xs : Arena α) : List Nat → List Nat → Option (List Nat)
  | [], seen => some seen
  | v :: todo, seen => do
    let n ← xs[v]?
    xs |>.walk (n.children.reverse ++ todo) (v :: seen)
partial_fixpoint

/-! ### Growing an arena -/

/-- A single node with `k` empty slots. -/
def single (label : α) (k : Nat) : Arena α := #[.bare label k]

/-- Notes `c` as the last child of `p` in slot `s`. -/
def link (xs : Arena α) (p s c : Nat) : Option (Arena α) :=
  if xs.hasSlot p s then some (xs.modify p (·.addChild s c)) else none

/-- The nodes of `xs` with those of `ys` behind them, whose links are moved on. -/
def append (xs ys : Arena α) : Arena α := xs ++ ys.map (·.shift xs.size)

/-- A root over the given arenas, one list for each slot. -/
def ofSubtrees (label : α) (slots : List (List (Arena α))) : Option (Arena α) :=
  slots.zipIdx.foldlM
    (fun xs (yss, s) => yss.foldlM (fun xs ys => (xs.append ys).link Tree.root s xs.size) xs)
    (single label slots.length)

/-- Puts a node with `k` empty slots behind the others and links it. -/
def hang (xs : Arena α) (p s : Nat) (label : α) (k : Nat) : Option (Nat × Arena α) := do
  let ys ← link (xs.push (.bare label k)) p s xs.size
  return (xs.size, ys)

/-- Adds a node with `k` empty slots if the parent is there and has the slot. -/
def addChild (xs : Arena α) (p s : Nat) (label : α) (k : Nat) : Option (Nat × Arena α) :=
  if xs.hasSlot p s then xs.hang p s label k else none

/-- Hangs a copy of `ys` under node `p`, if that is there and has the slot. -/
def graft (xs : Arena α) (p s : Nat) (ys : Arena α) : Option (Nat × Arena α) :=
  if xs.hasSlot p s then do
    let zs ← (xs.append ys).link p s xs.size
    return (xs.size, zs)
  else none

/-! ### Copying

Copies grow by `hang` or by `addChild`; `grow` stands for either. -/

section

variable (grow : Arena α → Nat → Nat → α → Nat → Option (Nat × Arena α)) (xs : Arena α)

/-- A childless copy of node `c` is hung in slot `s` under node `dst` of the copy, and goes on
the stack. -/
def copyChild (dst s : Nat) (st : Arena α × List (Nat × Nat)) (c : Nat) :
    Option (Arena α × List (Nat × Nat)) := do
  let n ← xs[c]?
  let grown ← grow st.1 dst s n.label n.slots.length
  return (grown.2, (c, grown.1) :: st.2)

/-- The children of node `src` are hung under node `dst` of the copy and go on the stack. -/
def copyChildren (src dst : Nat) (st : Arena α × List (Nat × Nat)) :
    Option (Arena α × List (Nat × Nat)) := do
  let n ← xs[src]?
  n.slots.zipIdx.foldlM (fun st (cs, s) => cs.foldlM (copyChild grow xs dst s) st) st

/-- Copies below the pairs on the stack, each a node and its copy.  The children of the nodes in
`stop` are not copied but queue up. -/
def copyUntil (stop : Nat → Bool) :
    List (Nat × Nat) → Arena α → List Nat → Option (Arena α × List Nat)
  | [], copy, queue => some (copy, queue)
  | (src, dst) :: todo, copy, queue =>
    if stop src then do
      let n ← xs[src]?
      copy |>.copyUntil stop todo (queue ++ n.children)
    else do
      let st ← copyChildren grow xs src dst (copy, todo)
      st.1 |>.copyUntil stop st.2 queue
partial_fixpoint

/-- A copy of what is at and below `v`, childless at the nodes in `stop`, and the longer
queue. -/
def prune (stop : Nat → Bool) (v : Nat) (queue : List Nat) : Option (Arena α × List Nat) := do
  let n ← xs[v]?
  copyUntil grow xs stop [(v, Tree.root)] (single n.label n.slots.length) queue

end

/-- What is at and below `v`, on its own. -/
def subtree (xs : Arena α) (v : Nat) : Option (Arena α) := do
  let p ← prune hang xs (fun _ => false) v []
  return p.1

/-- The node `v` over its children, all of them childless. -/
def oneLevel (xs : Arena α) (v : Nat) : Option (Arena α) := do
  let n ← xs[v]?
  let st ← copyChildren hang xs v Tree.root (single n.label n.slots.length, [])
  return st.1

/-- Cuts the arena apart below the nodes in the queue.  Pieces of a single node are dropped. -/
def splitFrom (xs : Arena α) (stop : Nat → Bool) :
    List Nat → List (Arena α) → Option (List (Arena α))
  | [], out => some out.reverse
  | v :: queue, out => do
    let p ← prune addChild xs stop v queue
    let n ← p.1[Tree.root]?
    xs |>.splitFrom stop p.2 (if n.slots.all List.isEmpty then out else p.1 :: out)
partial_fixpoint

/-- The pieces of the arena, cut apart at the nodes in `stop`. -/
def split (xs : Arena α) (stop : Nat → Bool) : Option (List (Arena α)) :=
  xs.splitFrom stop [Tree.root] []

end Arena

end TreeGrammar
