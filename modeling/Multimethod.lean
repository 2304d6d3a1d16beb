import Multimethod.Prelude
import Multimethod.Machine.Step
import Multimethod.Value.Text
import Multimethod.Proofs.Convergence
import Multimethod.Proofs.Agreement
import Multimethod.Proofs.FixedPoint
import Multimethod.Proofs.WellFormed
import Multimethod.Proofs.Refinement
import Multimethod.Proofs.Binding
import Multimethod.Proofs.Soundness
import Multimethod.Proofs.Type.Canonical
import Multimethod.Proofs.Hierarchy.Subtype
import Multimethod.Proofs.Operands
import Multimethod.Proofs.Provisional
import Multimethod.Proofs.Limits
import Multimethod.Proofs.Changes
import Multimethod.Proofs.Machine.Depth
import Multimethod.Proofs.Reordering
import Multimethod.Proofs.Resolution.Distribution
import Multimethod.Proofs.Resolution.Overriding
import Multimethod.Proofs.Resolution.Narrowing
import Multimethod.Proofs.Resolution.Expansion
import Multimethod.Proofs.Resolution.Overloads
import Multimethod.Proofs.Resolution.Failure
import Multimethod.Proofs.Resolution.Stability
import Multimethod.Proofs.Hierarchy.Clauses
import Multimethod.Proofs.Hierarchy.Permuted
import Multimethod.Proofs.Hierarchy.Denotation
import Multimethod.Proofs.Hierarchy.Legible
import Multimethod.Proofs.Type.Memberwise
import Multimethod.Proofs.Hierarchy.Assignments
import Multimethod.Proofs.Dispatch.History
import Multimethod.Proofs.Specialization.History
import Multimethod.Proofs.Evolution
import Multimethod.Proofs.Construction
