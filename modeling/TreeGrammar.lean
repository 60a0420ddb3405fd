import TreeGrammar.Corpus.Pattern
import TreeGrammar.Corpus.Production
import TreeGrammar.Corpus.ReadOff
import TreeGrammar.Corpus.Treebank
import TreeGrammar.Decimal.Fixed
import TreeGrammar.Decimal.Reading
import TreeGrammar.Decimal.Shortest
import TreeGrammar.Grammar.Basic
import TreeGrammar.Match.Basic
import TreeGrammar.Score.Basic
import TreeGrammar.Score.Posterior
import TreeGrammar.Settings.Loader
import TreeGrammar.Settings.Merging
import TreeGrammar.Settings.Value
import TreeGrammar.Symbol
import TreeGrammar.Text.Alignment
import TreeGrammar.Text.Quoted
import TreeGrammar.Toml.Basic
import TreeGrammar.Toml.Lexical
import TreeGrammar.Tree.Copy
import TreeGrammar.Tree.Feed
import TreeGrammar.Tree.Rose
import TreeGrammar.Tree.Strict
import TreeGrammar.Match.Strict
import TreeGrammar.Score.Strict
import TreeGrammar.Proofs.Tree.Below
import TreeGrammar.Proofs.Tree.Preorder
import TreeGrammar.Proofs.Match.Facing
import TreeGrammar.Proofs.Match.Walks
import TreeGrammar.Proofs.Match.Frontier
import TreeGrammar.Proofs.Score.Derivations
import TreeGrammar.Proofs.Tree.Equality
import TreeGrammar.Proofs.Equivalence
import TreeGrammar.Proofs.Tree.Feed
import TreeGrammar.Proofs.Grammar.RuleSet
import TreeGrammar.Proofs.Tree.Component
import TreeGrammar.Proofs.Tree.Growth
import TreeGrammar.Proofs.Tree.Pruning
import TreeGrammar.Proofs.Tree.Dissection
import TreeGrammar.Corpus.Strict
import TreeGrammar.Proofs.Corpus.Pieces
import TreeGrammar.Proofs.Corpus.Counts
import TreeGrammar.Proofs.Tree.Recutting
import TreeGrammar.Proofs.Corpus.Refiltering
import TreeGrammar.Proofs.Tree.Alike
import TreeGrammar.Proofs.Tree.Rose
import TreeGrammar.Proofs.Match.Interchange
import TreeGrammar.Proofs.Tree.OneLevel
import TreeGrammar.Proofs.Match.Shallow
import TreeGrammar.Proofs.Grammar.Entries
import TreeGrammar.Proofs.Score.Fallback
import TreeGrammar.Proofs.Match.Substitution
import TreeGrammar.Proofs.Score.Alternatives
import TreeGrammar.Proofs.Score.Congruence
import TreeGrammar.Proofs.Score.Monotone
import TreeGrammar.Proofs.Score.Representation
import TreeGrammar.Proofs.Score.Frequency
import TreeGrammar.Proofs.Score.ContextFree
import TreeGrammar.Proofs.Grammar.Contents
import TreeGrammar.Proofs.Grammar.Words
import TreeGrammar.Proofs.Grammar.Merged
import TreeGrammar.Proofs.Score.Settings
import TreeGrammar.Proofs.Tree.Parallel
import TreeGrammar.Proofs.Corpus.SlotCounts
import TreeGrammar.Proofs.Corpus.Samples
import TreeGrammar.Proofs.Corpus.Agreement
import TreeGrammar.Proofs.Corpus.Survivors
import TreeGrammar.Tree.Arena
import TreeGrammar.Proofs.Tree.Paths
import TreeGrammar.Proofs.Arena
import TreeGrammar.Proofs.Tree.Blocks
import TreeGrammar.Proofs.Tree.NormalForm
import TreeGrammar.Tree.Change
import TreeGrammar.Proofs.Tree.Change
import TreeGrammar.Proofs.Tree.Copies
import TreeGrammar.Proofs.Tree.Text
import TreeGrammar.Grammar.Columns
import TreeGrammar.Proofs.Grammar.Changes
import TreeGrammar.Proofs.Match.Coverage
import TreeGrammar.Proofs.Corpus.Orders
import TreeGrammar.Proofs.Score.Extended
import TreeGrammar.Proofs.Score.Rounding
import TreeGrammar.Proofs.Score.SumOfPowers
import TreeGrammar.Proofs.Corpus.Patterns
import TreeGrammar.Proofs.Score.Undefined
import TreeGrammar.Proofs.Score.WriteOnce
import TreeGrammar.Proofs.Settings.KeyByKey
import TreeGrammar.Proofs.Settings.Laying
import TreeGrammar.Proofs.Settings.Plain
import TreeGrammar.Proofs.Settings.Layers
