/-
# Grammars read off trees

The productions of the inner nodes of some trees, as rules of depth one, make a grammar.  The
trees themselves may join it as rules, so that what they say as a whole is kept too.
-/
import TreeGrammar.Grammar.Basic
import TreeGrammar.Tree.Copy

namespace TreeGrammar.Grammar

variable {α : Type} [BEq α] [Hashable α]

/-- Adds the productions of the inner nodes of a tree, node after node. -/
def addProductions (g : Grammar α) (t : Tree α) : Grammar α :=
  (t.ids.filter fun v => !t.isLeaf v).foldl (fun g v => g.add (t.oneLevel v)) g

/-- The grammar of the productions of trees, each tree being added as a rule after its
productions if `whole`. -/
def readOff (whole : Bool) (ts : List (Tree α)) : Grammar α :=
  ts.foldl
    (fun g t =>
      let g := g.addProductions t
      if whole then g.add t else g)
    empty

end TreeGrammar.Grammar
