import TopDown.Identity
import TopDown.Symbol
import TopDown.SymbolTable
import TopDown.Rule
import TopDown.Production
import TopDown.Grammar.Error
import TopDown.Grammar.Basic
import TopDown.Grammar.Replace
import TopDown.Grammar.Chain
import TopDown.Grammar.Edit
import TopDown.Grammar.Clone
import TopDown.Grammar.Index
import TopDown.Grammar.Text
import TopDown.Grammar.Description
import TopDown.SymbolSet
import TopDown.SymbolRelation
import TopDown.SymbolRelation.Table
import TopDown.Analysis.Saturation
import TopDown.Analysis.Propagation
import TopDown.Analysis.Nullable
import TopDown.Analysis.Step
import TopDown.Analysis.Cycle
import TopDown.Analysis.LeftRecursion
import TopDown.Transform.Error
import TopDown.Transform.Options
import TopDown.Transform.FreshName
import TopDown.Transform.Journal
import TopDown.Transform.Progress
import TopDown.Transform.Elimination
import TopDown.Transform.Factoring
import TopDown.Datum
import TopDown.Datum.Json
import TopDown.Exchange
import TopDown.Proofs.RelatedLists
import TopDown.Proofs.Derivation
import TopDown.Proofs.Spelling
import TopDown.Proofs.SymbolRelation.Closure
import TopDown.Proofs.Analysis.Exactness
import TopDown.Proofs.Grammar.WellFormed
import TopDown.Proofs.Grammar.Faults
import TopDown.Proofs.Grammar.Replacement
import TopDown.Proofs.Transform.Drafts
import TopDown.Proofs.Transform.Tracking
import TopDown.Proofs.Elimination.Steps
import TopDown.Proofs.Factoring.Steps
import TopDown.Proofs.Grammar.Reachable
import TopDown.Proofs.Transform.Language
import TopDown.Proofs.Elimination.Language
import TopDown.Proofs.Factoring.Language
import TopDown.Proofs.Factoring.NormalForm
import TopDown.Proofs.Transform.FreshName
import TopDown.Proofs.Transform.Rollback
import TopDown.Proofs.Elimination.Faithful
import TopDown.Proofs.Elimination.Convergence
import TopDown.Proofs.Elimination.Outcome
import TopDown.Proofs.Factoring.Recursion
import TopDown.Proofs.Grammar.History
import TopDown.Proofs.Analysis.Propagation
import TopDown.Proofs.Analysis.Cycles
import TopDown.Proofs.Analysis.Recursion
import TopDown.Proofs.Elimination.Growth
import TopDown.Proofs.Factoring.Overlap
import TopDown.Proofs.Factoring.Unfolding
import TopDown.Proofs.Factoring.Worklist
import TopDown.Proofs.Transform.Threshold
import TopDown.Proofs.Isomorphism.Drafts
import TopDown.Proofs.Isomorphism.Runs
import TopDown.Proofs.Isomorphism.Isomorphic
import TopDown.Proofs.Isomorphism.Outcome
import TopDown.Proofs.Grammar.Loading
import TopDown.Proofs.Isomorphism.Copies
import TopDown.Proofs.SymbolTable.CreationLog
import TopDown.Proofs.Grammar.RoundTrip
import TopDown.Proofs.Transform.SymbolSpace
import TopDown.Proofs.Transform.InPlace
import TopDown.Proofs.Elimination.Layout
import TopDown.Proofs.Factoring.Layout
import TopDown.Proofs.Transform.Layout
import TopDown.Proofs.Cloning.Operations
import TopDown.Proofs.Cloning.Translation
import TopDown.Proofs.Cloning.Isolation
import TopDown.Proofs.Cloning.Behaviour
import TopDown.Proofs.Elimination.Exhaustion
import TopDown.Proofs.Grammar.Swap
import TopDown.Proofs.Grammar.Chains
import TopDown.Proofs.Grammar.Refusal
import TopDown.Proofs.SymbolRelation.Writing
import TopDown.Proofs.Grammar.Legible
import TopDown.Proofs.Grammar.Index
import TopDown.Proofs.Transform.Probing
import TopDown.Proofs.Elimination.Iterations
