import BlockMachine.Text.Escape
import BlockMachine.Text.Template
import BlockMachine.Text.Roman
import BlockMachine.Decimal.Layout
import BlockMachine.Decimal.Reading
import BlockMachine.Fraction.Text
import BlockMachine.Operator
import BlockMachine.Block
import BlockMachine.Block.Equality
import BlockMachine.Block.Text
import BlockMachine.Pattern.Reader
import BlockMachine.Dice
import BlockMachine.Error
import BlockMachine.Literal
import BlockMachine.Grammar.Record
import BlockMachine.Block.StoredId
import BlockMachine.Operator.Complaint
import BlockMachine.Json
import BlockMachine.Json.Text
import BlockMachine.Workspace.Copy
import BlockMachine.Workspace.Stored
import BlockMachine.Conversion
import BlockMachine.Keyed
import BlockMachine.Memory
import BlockMachine.Machine.View
import BlockMachine.Machine
import BlockMachine.Operator.Arithmetic
import BlockMachine.Machine.Control
import BlockMachine.Machine.Data
import BlockMachine.Machine.Recollection
import BlockMachine.Machine.Calculus
import BlockMachine.Machine.Host
import BlockMachine.Module.Samples
import BlockMachine.Main
import BlockMachine.Proofs.Machine.Invariance
import BlockMachine.Proofs.Machine.FrameChain
import BlockMachine.Proofs.Machine.Runs
import BlockMachine.Proofs.Machine.MergedFrames
import BlockMachine.Proofs.Machine.Splicing
import BlockMachine.Proofs.Machine.Lockstep
import BlockMachine.Proofs.Machine.Isolation
import BlockMachine.Proofs.Workspace.RoundTrip
import BlockMachine.Proofs.Workspace.Storage
import BlockMachine.Proofs.Workspace.Acceptance
import BlockMachine.Proofs.Workspace.DeepCopy
import BlockMachine.Proofs.Grammar.BlockLists
import BlockMachine.Proofs.Machine.Coupling
import BlockMachine.Proofs.Machine.Persistence
import BlockMachine.Proofs.Decimal.Whole
import BlockMachine.Proofs.Machine.Budgets
import BlockMachine.Proofs.Machine.SampleScope
import BlockMachine.Proofs.Machine.Observers
import BlockMachine.Proofs.Machine.WriteBack
import BlockMachine.Proofs.Decimal.Integers
import BlockMachine.Proofs.Machine.Segments
import BlockMachine.Proofs.Machine.Abreast
import BlockMachine.Proofs.Machine.HelperFrames
import BlockMachine.Proofs.Machine.Rounds
import BlockMachine.Proofs.Machine.Inlining
import BlockMachine.Proofs.Machine.Loops
import BlockMachine.Proofs.Machine.Mapping
import BlockMachine.Proofs.Machine.FlatLoops
import BlockMachine.Proofs.Machine.Timing
import BlockMachine.Proofs.Json.Layouts
import BlockMachine.Proofs.Machine.Relocation
import BlockMachine.Proofs.Machine.History
import BlockMachine.Proofs.Machine.References
import BlockMachine.Proofs.Machine.References.Operators
import BlockMachine.Proofs.Machine.References.Runs
import BlockMachine.Proofs.Machine.Mirror
import BlockMachine.Proofs.Machine.StackDiscipline
import BlockMachine.Proofs.Machine.Requests
import BlockMachine.Proofs.Machine.StoredKinds
import BlockMachine.Proofs.Heap.Isomorphism
import BlockMachine.Proofs.Machine.Assignment
import BlockMachine.Proofs.Memory.Saving
import BlockMachine.Proofs.Machine.Linking
import BlockMachine.Proofs.Machine.Filtering
import BlockMachine.Proofs.Machine.Comparisons
import BlockMachine.Proofs.Workspace.Names
import BlockMachine.Proofs.Fraction.Rereading
import BlockMachine.Proofs.Grammar.RandomBounds
import BlockMachine.Proofs.Workspace.Packages
import BlockMachine.Proofs.Machine.KeyedEdits
import BlockMachine.Proofs.Decimal.Places
import BlockMachine.Proofs.Machine.IndexedEdits
import BlockMachine.Proofs.Machine.Versions
import BlockMachine.Proofs.Heap.Across
import BlockMachine.Proofs.Memory.Renaming
import BlockMachine.Proofs.Json.Blocks
import BlockMachine.Proofs.Machine.SampleLimits
import BlockMachine.Proofs.Decimal.Sums
import BlockMachine.Proofs.Machine.SampleTraces
import BlockMachine.Proofs.Machine.Series
import BlockMachine.Proofs.Machine.ReusedMachines
import BlockMachine.Proofs.Fraction.Exact
import BlockMachine.Proofs.Workspace.Naming
import BlockMachine.Proofs.Json.Backtracking
import BlockMachine.Proofs.Workspace.Concatenation
import BlockMachine.Proofs.Fraction.MixedText
import BlockMachine.Proofs.Grammar.StringLiterals
import BlockMachine.Proofs.Text.Template
import BlockMachine.Proofs.Decimal.Grouping
