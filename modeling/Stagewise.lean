import Stagewise.Compile
import Stagewise.Proofs.Dependency.Relation
import Stagewise.Proofs.Dependency.Cycles
import Stagewise.Proofs.Dependency.Order
import Stagewise.Proofs.Dependency.Recording
import Stagewise.Proofs.Step
import Stagewise.Proofs.Program.Outline
import Stagewise.Proofs.Composition.Tree
import Stagewise.Proofs.Composition.Paths
import Stagewise.Proofs.Composition.Ancestors
import Stagewise.Proofs.Analysis.Positions
import Stagewise.Proofs.Analysis.References
import Stagewise.Proofs.Lifecycle.Cascade
import Stagewise.Proofs.Analysis.Discovery
import Stagewise.Proofs.Lifecycle.Bodies
import Stagewise.Proofs.Lifecycle.Guards
import Stagewise.Proofs.Lifecycle.Dependants
import Stagewise.Proofs.Analysis.Assignment
import Stagewise.Proofs.Analysis.Partition
import Stagewise.Proofs.Analysis.Writes
import Stagewise.Proofs.Analysis.Links
import Stagewise.Proofs.Analysis.Passes
import Stagewise.Proofs.Analysis.Frames
import Stagewise.Proofs.Analysis.StandIns
import Stagewise.Proofs.Lifecycle.Changes
import Stagewise.Proofs.Lifecycle.Frame
import Stagewise.Proofs.Lifecycle.Resets
import Stagewise.Proofs.Lifecycle.Writes
import Stagewise.Proofs.Lifecycle.Prepared
import Stagewise.Proofs.Lifecycle.Reads
import Stagewise.Proofs.Lifecycle.Agreement
import Stagewise.Proofs.Lifecycle.Evolution
import Stagewise.Proofs.Lifecycle.Evolving
import Stagewise.Proofs.Lifecycle.GlobalClose
import Stagewise.Proofs.Merge.Chain
import Stagewise.Proofs.Merge.References
import Stagewise.Proofs.Merge.Tree
import Stagewise.Proofs.Merge.Access
import Stagewise.Proofs.Analysis.Routes
import Stagewise.Proofs.Merge.Replacement
import Stagewise.Proofs.Merge.Resolution
import Stagewise.Proofs.Program.Members
import Stagewise.Proofs.Merge.Members
import Stagewise.Proofs.Lifecycle.Gains
import Stagewise.Proofs.Output.Members
import Stagewise.Proofs.Conservation
import Stagewise.Proofs.Output.Keys
import Stagewise.Proofs.Output.Order
import Stagewise.Proofs.Outcomes
import Stagewise.Proofs.Lifecycle.Requests
import Stagewise.Proofs.Lifecycle.Runs
import Stagewise.Proofs.Lifecycle.Reentry
import Stagewise.Proofs.Lifecycle.Additions
import Stagewise.Proofs.Lifecycle.Readiness
import Stagewise.Proofs.Lifecycle.Underway
import Stagewise.Proofs.Lifecycle.Acceptance
import Stagewise.Proofs.Program.Signatures
import Stagewise.Proofs.Merge.Folding
import Stagewise.Proofs.Merge.Signatures
import Stagewise.Proofs.Output.Signatures
import Stagewise.Proofs.Lifecycle.Arrivals
import Stagewise.Proofs.Lifecycle.Spared
import Stagewise.Proofs.Lifecycle.Prologues
import Stagewise.Proofs.Lifecycle.Closers
import Stagewise.Proofs.Stage.Scanning
import Stagewise.Proofs.Stage.Lifecycle
import Stagewise.Proofs.Lifecycle.Derivation
import Stagewise.Proofs.Program.Execution
import Stagewise.Proofs.Program.Effects
import Stagewise.Proofs.Lifecycle.Reinitialization
import Stagewise.Proofs.Separation
import Stagewise.Proofs.Merge.Overriding
import Stagewise.Proofs.Output.Methods
import Stagewise.Proofs.Takeover
import Stagewise.Proofs.Program.Names
import Stagewise.Proofs.Output.Names
import Stagewise.Proofs.Hierarchy
import Stagewise.Proofs.Analysis.Offers
import Stagewise.Proofs.Output.Reads
import Stagewise.Proofs.Output.Dependencies
import Stagewise.Proofs.Output.Initialization
import Stagewise.Proofs.Output.Staying
import Stagewise.Proofs.Output.Circles
import Stagewise.Proofs.Output.Emission
import Stagewise.Proofs.Merge.Naming
import Stagewise.Proofs.Analysis.StageNames
import Stagewise.Proofs.Program.Conversion
import Stagewise.Proofs.Merge.Instantiation
import Stagewise.Proofs.Merge.Redirection
import Stagewise.Proofs.Merge.SuperCalls
import Stagewise.Proofs.Merge.Calls
import Stagewise.Proofs.Merge.Constructors
import Stagewise.Proofs.Merge.Defaults
import Stagewise.Proofs.Program.Renaming
import Stagewise.Proofs.Merge.Inlining
import Stagewise.Proofs.Merge.Nested
import Stagewise.Proofs.Program.TypeRefs
import Stagewise.Proofs.Merge.Substitution
import Stagewise.Proofs.Merge.Targets
import Stagewise.Proofs.Lifecycle.Shapes
import Stagewise.Proofs.Lifecycle.Arity
import Stagewise.Proofs.Program.Repetition
import Stagewise.Proofs.Lifecycle.Checks
import Stagewise.Proofs.Lifecycle.Uninitialized
import Stagewise.Proofs.Composition.Building
import Stagewise.Proofs.Identity
import Stagewise.Proofs.Walks
import Stagewise.Proofs.Output.Leading
import Stagewise.Proofs.Program.Traversal
