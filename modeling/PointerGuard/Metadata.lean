import PointerGuard.Edit
import PointerGuard.Function
import PointerGuard.Layout

/-!
# Pointer metadata

What is known of the memory a pointer may be used for: where the object starts and ends (spatial),
and which allocation it belongs to (temporal). Base, bound and lock are `i8*` operands and the key
is an integer as wide as a pointer; the store takes nothing else.
-/

namespace PointerGuard

/-- Where the object of a pointer lies. -/
structure Spatial where
  /-- Its first byte. -/
  base : Operand
  /-- The byte after its last. -/
  bound : Operand
  deriving DecidableEq, Repr

/-- Which allocation a pointer belongs to. -/
structure Temporal where
  /-- The key of the allocation. -/
  key : Operand
  /-- The cell that holds this key as long as the allocation lives. -/
  lock : Operand
  deriving DecidableEq, Repr

/-- The metadata of a pointer. A half that is not tracked is missing. -/
structure PointerMetadata where
  /-- Base and bound. -/
  spatial : Option Spatial := none
  /-- Key and lock. -/
  temporal : Option Temporal := none
  deriving DecidableEq, Repr, Inhabited

/-- A key that is known. -/
def keyConstant (w : PointerWidth) (key : Int) : Constant := .int w.bits key

namespace PointerMetadata

/-- The metadata of null, with the halves that are asked for. -/
def null (w : PointerWidth) (spatial temporal : Bool) : PointerMetadata where
  spatial :=
    if spatial then some ⟨.const .nullVoidPtr, .const .nullVoidPtr⟩ else none
  temporal :=
    if temporal then some ⟨.const (keyConstant w 0), .const .nullVoidPtr⟩ else none

/-- Whether a record has neither half. -/
def isEmpty (md : PointerMetadata) : Bool := md.spatial.isNone && md.temporal.isNone

/-- The base, or null if it is not tracked. -/
def baseOrNull (md : PointerMetadata) : Operand :=
  (md.spatial.map Spatial.base).getD (.const .nullVoidPtr)

/-- The bound, or null if it is not tracked. -/
def boundOrNull (md : PointerMetadata) : Operand :=
  (md.spatial.map Spatial.bound).getD (.const .nullVoidPtr)

/-- The key, or zero if it is not tracked. -/
def keyOrZero (md : PointerMetadata) (w : PointerWidth) : Operand :=
  (md.temporal.map Temporal.key).getD (.const (keyConstant w 0))

/-- The lock, or null if it is not tracked. -/
def lockOrNull (md : PointerMetadata) : Operand :=
  (md.temporal.map Temporal.lock).getD (.const .nullVoidPtr)

/-- A component, or what stands for it if it is not tracked. -/
def component (md : PointerMetadata) (w : PointerWidth) : Component → Operand
  | .base => md.baseOrNull
  | .bound => md.boundOrNull
  | .key => md.keyOrZero w
  | .lock => md.lockOrNull

end PointerMetadata

/-! ### The store -/

/-- The metadata of the values of a module. -/
structure Store where
  /-- The width of pointers, which gives the type of keys. -/
  width : PointerWidth
  /-- Values with their metadata. -/
  entries : List (ValueId × PointerMetadata) := []
  deriving DecidableEq, Repr

namespace Store

/-- The number of records. -/
def size (s : Store) : Nat := s.entries.length

/-- Whether there is no record. -/
def isEmpty (s : Store) : Bool := s.entries.isEmpty

/-- The record of a value. -/
def lookup (s : Store) (id : ValueId) : Option PointerMetadata := s.entries.lookup id

/-- Whether a value has a record. -/
def has (s : Store) (id : ValueId) : Bool := (s.lookup id).isSome

/-- The metadata of a value, which has to exist. -/
def get (s : Store) (f : Function) (id : ValueId) : Except Error PointerMetadata :=
  match s.lookup id with
  | some md => .ok md
  | none => .error (.missingMetadata f.name id)

/-- Forget the record of a value. -/
def dissociate (s : Store) (id : ValueId) : Store :=
  { s with entries := s.entries.filter (·.1 ≠ id) }

/-- Replace the metadata of a value. -/
def put (s : Store) (id : ValueId) (md : PointerMetadata) : Store :=
  { s with entries := (id, md) :: (s.dissociate id).entries }

/-- Check the type of what is to be recorded as a component. -/
def checkComponent (f : Function) (id : ValueId) (component : Component) (operand : Operand)
    (expected : Ty) : Except Error Unit := do
  let found ← f.operandType operand
  unless found = expected do
    throw (.metadataType id component expected found)

/-- Record bounds, and leave the other half as it is. -/
def setSpatial (s : Store) (f : Function) (id : ValueId) (md : Spatial) : Except Error Store := do
  checkComponent f id .base md.base .voidPtr
  checkComponent f id .bound md.bound .voidPtr
  return s.put id { (s.lookup id).getD {} with spatial := some md }

/-- Record a key and its lock, and leave the other half as it is. -/
def setTemporal (s : Store) (f : Function) (id : ValueId) (md : Temporal) : Except Error Store := do
  checkComponent f id .key md.key s.width.keyTy
  checkComponent f id .lock md.lock .voidPtr
  return s.put id { (s.lookup id).getD {} with temporal := some md }

/-- Set the halves of the metadata of a value that are there; the others stay. -/
def associate (f : Function) (id : ValueId) (md : PointerMetadata) : Edit Store Unit := do
  if let some spatial := md.spatial then
    set (← Edit.ofExcept ((← MonadState.get).setSpatial f id spatial))
  if let some temporal := md.temporal then
    set (← Edit.ofExcept ((← MonadState.get).setTemporal f id temporal))

end Store

end PointerGuard
