import PointerGuard.Module.Printer
import PointerGuard.Proofs.Associations
import PointerGuard.Proofs.Callees
import PointerGuard.Proofs.Derivations
import PointerGuard.Proofs.Discipline
import PointerGuard.Proofs.DominatedMarks
import PointerGuard.Proofs.DynamicMetadata
import PointerGuard.Proofs.Elision
import PointerGuard.Proofs.FrameKeys
import PointerGuard.Proofs.GlobalSeeds
import PointerGuard.Proofs.IndexPaths
import PointerGuard.Proofs.LibraryUses
import PointerGuard.Proofs.ModuleTables
import PointerGuard.Proofs.ModuleTypes
import PointerGuard.Proofs.Monotonicity
import PointerGuard.Proofs.PhiShadows
import PointerGuard.Proofs.ProvenBounds
import PointerGuard.Proofs.Sessions
import PointerGuard.Proofs.Traversals
import PointerGuard.Proofs.Waiting
