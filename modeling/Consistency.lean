import Consistency.Main
import Consistency.Solver.Output
import Consistency.Solver.Request
import Consistency.Proofs.Check.Accounted
import Consistency.Proofs.Check.Agreement
import Consistency.Proofs.Check.EarlyExit
import Consistency.Proofs.Check.Exhaustive
import Consistency.Proofs.Check.Forbidden
import Consistency.Proofs.Check.Fragment
import Consistency.Proofs.Check.Names
import Consistency.Proofs.Check.Solutions
import Consistency.Proofs.Check.Valid
import Consistency.Proofs.Check.Witness
import Consistency.Proofs.CommandLine
import Consistency.Proofs.Composition.Invariant
import Consistency.Proofs.Composition.Scheduler
import Consistency.Proofs.Exploration.Bound
import Consistency.Proofs.Exploration.Factored
import Consistency.Proofs.Exploration.Independence
import Consistency.Proofs.Exploration.Lossless
import Consistency.Proofs.Graph.ProgramOrder
import Consistency.Proofs.Litmus.Lowering
import Consistency.Proofs.MemoryModel.Interleaving
import Consistency.Proofs.MemoryModel.PerLocation
import Consistency.Proofs.MemoryModel.SingleThread
import Consistency.Proofs.MemoryModel.Strength
import Consistency.Proofs.MemoryModel.Validity
import Consistency.Proofs.Outcome
import Consistency.Proofs.Query.Compilation
import Consistency.Proofs.Query.Interchange
import Consistency.Proofs.Relation.RoundTrip
import Consistency.Proofs.Solver.Output
import Consistency.Proofs.Solver.Reading
import Consistency.Proofs.Thread.Evaluation
