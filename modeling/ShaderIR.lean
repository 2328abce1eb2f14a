import ShaderIR.Main
import ShaderIR.Proofs.Coherence.Invariant
import ShaderIR.Proofs.Edit.Outcome
import ShaderIR.Proofs.Coherence.Operands
import ShaderIR.Proofs.Coherence.Membership
import ShaderIR.Proofs.Coherence.Creation
import ShaderIR.Proofs.Coherence.Adjacency
import ShaderIR.Proofs.Coherence.Building
import ShaderIR.Proofs.Coherence.Edges
import ShaderIR.Proofs.Coherence.Session
import ShaderIR.Proofs.Traversal.Order
import ShaderIR.Proofs.Coherence.Report
import ShaderIR.Proofs.Machine.Follows
import ShaderIR.Proofs.Machine.Frames
import ShaderIR.Proofs.Machine.Arithmetic
import ShaderIR.Proofs.Machine.Instruction
import ShaderIR.Proofs.Machine.Format
import ShaderIR.Proofs.Machine.Growth
import ShaderIR.Proofs.Machine.Shadow
import ShaderIR.Proofs.Machine.Entry
import ShaderIR.Proofs.Machine.Simulation
import ShaderIR.Proofs.Machine.Cutoff
import ShaderIR.Proofs.Machine.Words
import ShaderIR.Proofs.Machine.Integers
import ShaderIR.Proofs.Machine.Showing
import ShaderIR.Proofs.Machine.Ending
import ShaderIR.Proofs.Machine.Refinement
import ShaderIR.Proofs.Control.Dominance
import ShaderIR.Proofs.Control.SsaForm
import ShaderIR.Proofs.Control.Admission
import ShaderIR.Proofs.Traversal.Nesting
import ShaderIR.Proofs.Traversal.Closure
import ShaderIR.Proofs.Revision.Ages
import ShaderIR.Proofs.Revision.Revises
import ShaderIR.Proofs.Revision.Rewriting
import ShaderIR.Proofs.Revision.Neutralizing
import ShaderIR.Proofs.Dominance.Ancestry
import ShaderIR.Proofs.Dominance.Numbering
import ShaderIR.Proofs.Dominance.Sweep
import ShaderIR.Proofs.Dominance.Fixpoint
import ShaderIR.Proofs.Dominance.Positions
import ShaderIR.Proofs.Dominance.Tree
import ShaderIR.Proofs.Dominance.Frontier
import ShaderIR.Proofs.Dominance.Joins
import ShaderIR.Proofs.Elimination.Progress
import ShaderIR.Proofs.Elimination.Parts
import ShaderIR.Proofs.Elimination.Tidying
import ShaderIR.Proofs.Elimination.Exclusion
import ShaderIR.Proofs.Elimination.Doomed
import ShaderIR.Proofs.Elimination.Liveness
import ShaderIR.Proofs.Elimination.NormalForm
import ShaderIR.Proofs.Layout.Session
import ShaderIR.Proofs.Layout.Verdict
import ShaderIR.Proofs.Machine.Control
import ShaderIR.Proofs.Elimination.Selection
import ShaderIR.Proofs.Pass.Success
import ShaderIR.Proofs.Edit.Ending
import ShaderIR.Proofs.Layout.Regular
import ShaderIR.Proofs.Layout.Typing
import ShaderIR.Proofs.Revision.Emitting
import ShaderIR.Proofs.Revision.Trimming
import ShaderIR.Proofs.Revision.Answers
import ShaderIR.Proofs.Promotion.Narrowing
import ShaderIR.Proofs.Promotion.Flattening
import ShaderIR.Proofs.Promotion.Transposing
import ShaderIR.Proofs.Promotion.Accesses
import ShaderIR.Proofs.Promotion.Forwarding
import ShaderIR.Proofs.Promotion.Pointing
import ShaderIR.Proofs.Promotion.Addressing
import ShaderIR.Proofs.Promotion.Continuing
import ShaderIR.Proofs.Promotion.Leveling
import ShaderIR.Proofs.Promotion.Dissolving
import ShaderIR.Proofs.Promotion.Renaming
import ShaderIR.Proofs.Promotion.Placing
import ShaderIR.Proofs.Promotion.Termination
import ShaderIR.Proofs.Promotion.Merging
import ShaderIR.Proofs.Elimination.Dwindling
import ShaderIR.Proofs.Elimination.DwindlingSteps
import ShaderIR.Proofs.Promotion.Completeness
import ShaderIR.Proofs.Elimination.Erasing
import ShaderIR.Proofs.Elimination.Accounting
import ShaderIR.Proofs.Elimination.AccountingParts
import ShaderIR.Proofs.Elimination.Effects
import ShaderIR.Proofs.Elimination.Termination
import ShaderIR.Proofs.Elimination.Futility
import ShaderIR.Proofs.Elimination.CuttingOff
import ShaderIR.Proofs.Elimination.Evasion
import ShaderIR.Proofs.Machine.Places
import ShaderIR.Proofs.Machine.Settling
import ShaderIR.Proofs.Elimination.Condensing
import ShaderIR.Proofs.Elimination.Accepting
import ShaderIR.Proofs.Elimination.Folding
import ShaderIR.Proofs.Elimination.FoldedRuns
import ShaderIR.Proofs.Elimination.MergedRuns
import ShaderIR.Proofs.Elimination.Reducing
import ShaderIR.Proofs.Elimination.DispensedRuns
import ShaderIR.Proofs.Types.Keys
import ShaderIR.Proofs.Types.Interning
import ShaderIR.Proofs.Types.Payload
import ShaderIR.Proofs.Types.Elements
import ShaderIR.Proofs.Machine.Accessing
import ShaderIR.Proofs.Machine.Parts
import ShaderIR.Proofs.Revision.Patches
import ShaderIR.Proofs.Revision.Copying
import ShaderIR.Proofs.Edit.Amending
import ShaderIR.Proofs.Edit.Kinds
import ShaderIR.Proofs.Edit.Creations
import ShaderIR.Proofs.Blocks.Editing
import ShaderIR.Proofs.Blocks.Refinement
import ShaderIR.Proofs.Pass.Hoisting
import ShaderIR.Proofs.Coherence.Listing
import ShaderIR.Proofs.Coherence.Housing
import ShaderIR.Proofs.Promotion.Restraining
import ShaderIR.Proofs.Promotion.Surveying
import ShaderIR.Proofs.Promotion.Chains
import ShaderIR.Proofs.Promotion.Rebasing
import ShaderIR.Proofs.Promotion.Unwrapping
import ShaderIR.Proofs.Machine.Agreement
import ShaderIR.Proofs.Machine.Holding
import ShaderIR.Proofs.Promotion.ChainRuns
import ShaderIR.Proofs.Elimination.CondensedRuns
import ShaderIR.Proofs.Promotion.FlattenedRuns
import ShaderIR.Proofs.Promotion.Charting
import ShaderIR.Proofs.Promotion.LiveIn
import ShaderIR.Proofs.Promotion.Sparing
import ShaderIR.Proofs.Promotion.Joining
import ShaderIR.Proofs.Calls.Graph
import ShaderIR.Proofs.Calls.Unused
import ShaderIR.Proofs.Interning.Requests
import ShaderIR.Proofs.Interning.Filing
import ShaderIR.Proofs.Interning.Answering
import ShaderIR.Proofs.Interning.Exactness
