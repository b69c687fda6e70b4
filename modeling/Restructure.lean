import Restructure.Code.Builder
import Restructure.Report
import Restructure.Stmt.Render
import Restructure.Stmt.Visit
import Restructure.Proofs.Graph.Path
import Restructure.Proofs.Graph.Search
import Restructure.Proofs.Graph.Ancestors
import Restructure.Proofs.Graph.Improving
import Restructure.Proofs.Graph.Dominators
import Restructure.Proofs.Simulation.Edits
import Restructure.Proofs.Region.Ensures
import Restructure.Proofs.Region.Marks
import Restructure.Proofs.Region.Placed
import Restructure.Proofs.Region.Labels
import Restructure.Proofs.Flow.Graph
import Restructure.Proofs.Labels
import Restructure.Proofs.Simulation.Machine
import Restructure.Proofs.Simulation.Faithful
import Restructure.Proofs.Simulation.LowerStack
import Restructure.Proofs.Simulation.Depths
import Restructure.Proofs.Simulation.Initializers
import Restructure.Proofs.Graph.Loops
import Restructure.Proofs.Fallback
import Restructure.Proofs.SameCalls
import Restructure.Proofs.SingleCalls
import Restructure.Proofs.FlatCode
import Restructure.Proofs.Completion
import Restructure.Proofs.Recovery
import Restructure.Proofs.Effects.Collapsing
import Restructure.Proofs.Termination
import Restructure.Proofs.JumpScopes
import Restructure.Proofs.LockedScopes
import Restructure.Proofs.InputErrors
import Restructure.Proofs.Graph.Descent
import Restructure.Proofs.Flow.Reducibility
import Restructure.Proofs.Batches
import Restructure.Proofs.Graph.LoopDetection
import Restructure.Proofs.NormalConditions
import Restructure.Proofs.CountingLoops
import Restructure.Proofs.Idioms
import Restructure.Proofs.Switches
import Restructure.Proofs.KeptCalls
import Restructure.Proofs.UniqueReading
import Restructure.Proofs.ShownEffects
import Restructure.Proofs.DeclaredLocals
import Restructure.Proofs.Traversal
import Restructure.Proofs.Descriptors
import Restructure.Proofs.Assignability
import Restructure.Proofs.Graph.Recursion
import Restructure.Proofs.Flow.Terminators
