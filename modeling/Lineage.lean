import Lineage.Registry.Operation
import Lineage.Expr.Table
import Lineage.Proofs.Declaration
import Lineage.Proofs.Outcome
import Lineage.Proofs.State
import Lineage.Proofs.Computation
import Lineage.Proofs.Change
import Lineage.Proofs.Compose
import Lineage.Proofs.Hierarchy
import Lineage.Proofs.Agreement
import Lineage.Proofs.Derivation
import Lineage.Proofs.Resolution
import Lineage.Proofs.Order
import Lineage.Proofs.WellFormed
import Lineage.Proofs.FailedClass
import Lineage.Proofs.Lifecycle
import Lineage.Proofs.Dispatch
import Lineage.Proofs.SettledRead
import Lineage.Proofs.Locate
import Lineage.Proofs.Meaning
import Lineage.Proofs.Transparency
import Lineage.Proofs.Structure
import Lineage.Proofs.StaticCell
import Lineage.Proofs.Supply
import Lineage.Proofs.Cycle
import Lineage.Proofs.Depth
import Lineage.Proofs.Nesting
import Lineage.Proofs.Confined
import Lineage.Proofs.Finishing
import Lineage.Proofs.Termination
import Lineage.Proofs.Once
import Lineage.Proofs.Frame
import Lineage.Proofs.Carry
import Lineage.Proofs.Dependency
import Lineage.Proofs.SelfReference
import Lineage.Proofs.Spelling
import Lineage.Proofs.SpellingState
import Lineage.Proofs.SpellingRun
import Lineage.Proofs.Preorder
import Lineage.Proofs.StaticOwner
import Lineage.Proofs.StaticSeed
import Lineage.Proofs.ResolveAll
import Lineage.Proofs.Sibling
import Lineage.Proofs.StoredError
import Lineage.Proofs.NameTable
import Lineage.Proofs.PassOn
import Lineage.Proofs.Requests
import Lineage.Proofs.Widening
import Lineage.Proofs.IntegerArithmetic
import Lineage.Proofs.Balance
import Lineage.Proofs.Guard
import Lineage.Proofs.Safety
