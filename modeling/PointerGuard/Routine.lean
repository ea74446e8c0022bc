import PointerGuard.Function.Splice
import PointerGuard.Module

/-!
# Routines of the metadata runtime

Inserted code calls a fixed set of routines that are linked in later. Base,
bound and lock travel as `i8*`, a key as an integer as wide as a pointer, and
routines with several results return a structure.
-/

namespace PointerGuard

/-! ### Names -/

/-- What the symbols of routines and of library wrappers start with. -/
def symbolStem : String := "__softboundcets_"

/-- What a `main` that has a body is renamed to. -/
def pseudoMain : String := "softboundcets_pseudo_main"

/-- The constructor that records the metadata of pointers in initializers. -/
def globalInit : String := "__softboundcets_global_init"

/-- The library routines that have wrappers. -/
def wrappedLibraryFunctions : List String :=
  ["malloc", "calloc", "realloc", "free", "strdup", "strndup", "strcpy", "strncpy", "strcat",
    "strncat", "strlen", "strchr", "strrchr", "strstr", "strtok", "memset", "memchr", "fopen",
    "fclose", "fgets", "getenv", "atoi", "puts"]

/-- What the wrapper of a library function is called. -/
def wrapperSymbol (name : String) : String := symbolStem ++ name

private def startsWith (text start : String) : Bool := start.toList.isPrefixOf text.toList

/-- Whether a function of this name copies memory, as one of the library or its wrapper. -/
def isMemoryCopy (name : String) : Bool :=
  name = "memcpy" || name = "memmove" || startsWith name "llvm.memcpy" ||
    startsWith name "llvm.memmove" || name = wrapperSymbol "memcpy" ||
    name = wrapperSymbol "memmove"

/-- Is this the name of a compiler intrinsic? -/
def isIntrinsic (name : String) : Bool := startsWith name "llvm."

/-! ### Routines -/

/-- A routine of the metadata runtime. -/
inductive Routine where
  /-- Takes base, bound, pointer and size. -/
  | spatialLoadCheck
  /-- Takes base, bound, pointer and size. -/
  | spatialStoreCheck
  /-- Takes lock, key, base and bound. -/
  | temporalLoadCheck
  /-- Takes lock, key, base and bound. -/
  | temporalStoreCheck
  /-- Takes base, bound and target. -/
  | spatialCallCheck
  /-- Takes an address and base, bound, key and lock of the pointer stored there. -/
  | metadataStore
  /-- Takes an address and gives base, bound, key and lock of the pointer stored there. -/
  | metadataLoad
  /-- Takes a number of slots. -/
  | allocateFrame
  /-- Takes nothing. -/
  | deallocateFrame
  /-- Takes a slot and gives a base. -/
  | loadBase
  /-- Takes a slot and gives a bound. -/
  | loadBound
  /-- Takes a slot and gives a key. -/
  | loadKey
  /-- Takes a slot and gives a lock. -/
  | loadLock
  /-- Takes a base and a slot. -/
  | storeBase
  /-- Takes a bound and a slot. -/
  | storeBound
  /-- Takes a key and a slot. -/
  | storeKey
  /-- Takes a lock and a slot. -/
  | storeLock
  /-- Gives lock and key of a stack frame. -/
  | stackAllocation
  /-- Takes the key of a stack frame. -/
  | stackDeallocation
  /-- Gives the lock of all globals. -/
  | globalLock
  /-- Takes destination, source and size. -/
  | copyMetadata
  /-- Takes a pointer, its base and bound, and a slot. -/
  | introspect
  deriving DecidableEq, Repr, Inhabited

namespace Routine

/-- All routines, in the order in which they are declared. -/
def all : List Routine :=
  [.spatialLoadCheck, .spatialStoreCheck, .temporalLoadCheck, .temporalStoreCheck,
    .spatialCallCheck, .metadataStore, .metadataLoad, .allocateFrame, .deallocateFrame,
    .loadBase, .loadBound, .loadKey, .loadLock, .storeBase, .storeBound, .storeKey, .storeLock,
    .stackAllocation, .stackDeallocation, .globalLock, .copyMetadata, .introspect]

/-- The name of a routine, without the stem. -/
def name : Routine → String
  | .spatialLoadCheck => "spatial_load_dereference_check"
  | .spatialStoreCheck => "spatial_store_dereference_check"
  | .temporalLoadCheck => "temporal_load_dereference_check"
  | .temporalStoreCheck => "temporal_store_dereference_check"
  | .spatialCallCheck => "spatial_call_dereference_check"
  | .metadataStore => "metadata_store"
  | .metadataLoad => "metadata_load"
  | .allocateFrame => "allocate_shadow_stack_space"
  | .deallocateFrame => "deallocate_shadow_stack_space"
  | .loadBase => "load_base_shadow_stack"
  | .loadBound => "load_bound_shadow_stack"
  | .loadKey => "load_key_shadow_stack"
  | .loadLock => "load_lock_shadow_stack"
  | .storeBase => "store_base_shadow_stack"
  | .storeBound => "store_bound_shadow_stack"
  | .storeKey => "store_key_shadow_stack"
  | .storeLock => "store_lock_shadow_stack"
  | .stackAllocation => "stack_memory_allocation"
  | .stackDeallocation => "stack_memory_deallocation"
  | .globalLock => "get_global_lock"
  | .copyMetadata => "copy_metadata"
  | .introspect => "introspect_metadata"

/-- What a routine is called in a module. -/
def symbol (r : Routine) : String := symbolStem ++ r.name

/-- What a routine takes and returns. -/
def signature (w : PointerWidth) : Routine → Signature
  | .spatialLoadCheck | .spatialStoreCheck =>
    { ret := .void, params := [.voidPtr, .voidPtr, .voidPtr, w.intPtrTy] }
  | .temporalLoadCheck | .temporalStoreCheck =>
    { ret := .void, params := [.voidPtr, w.keyTy, .voidPtr, .voidPtr] }
  | .spatialCallCheck => { ret := .void, params := [.voidPtr, .voidPtr, .voidPtr] }
  | .metadataStore =>
    { ret := .void, params := [.voidPtr, .voidPtr, .voidPtr, w.keyTy, .voidPtr] }
  | .metadataLoad =>
    { ret := .struct [.voidPtr, .voidPtr, w.keyTy, .voidPtr], params := [.voidPtr] }
  | .allocateFrame => { ret := .void, params := [.int 32] }
  | .deallocateFrame => { ret := .void, params := [] }
  | .loadBase | .loadBound | .loadLock => { ret := .voidPtr, params := [.int 32] }
  | .loadKey => { ret := w.keyTy, params := [.int 32] }
  | .storeBase | .storeBound | .storeLock => { ret := .void, params := [.voidPtr, .int 32] }
  | .storeKey => { ret := .void, params := [w.keyTy, .int 32] }
  | .stackAllocation => { ret := .struct [.voidPtr, w.keyTy], params := [] }
  | .stackDeallocation => { ret := .void, params := [w.keyTy] }
  | .globalLock => { ret := .voidPtr, params := [] }
  | .copyMetadata => { ret := .void, params := [.voidPtr, .voidPtr, w.intPtrTy] }
  | .introspect => { ret := .void, params := [.voidPtr, .voidPtr, .voidPtr, .int 32] }

/-- The part of the result of `metadataLoad` that is a component. -/
def loadedField : Component → Nat
  | .base => 0
  | .bound => 1
  | .key => 2
  | .lock => 3

/-- The part of the result of `stackAllocation` that is the lock. -/
def frameLockField : Nat := 0

/-- The part of the result of `stackAllocation` that is the key. -/
def frameKeyField : Nat := 1

end Routine

/-! ### Declared routines -/

/-- Where the routines are declared in a module. -/
structure RoutineTable where
  /-- The width of pointers on the module's target. -/
  width : PointerWidth
  /-- The handles, in the order of `Routine.all`. -/
  ids : List FuncId
  deriving DecidableEq, Repr

namespace RoutineTable

/-- Declare a routine, and flag it. -/
def declareOne (w : PointerWidth) (r : Routine) : Edit Module FuncId := do
  let id ← Module.declare r.symbol (r.signature w)
  let _ ← Module.addFlags id { runtime := true }
  return id

/-- Declare all routines. Those that a module already declares are used as they are, and have to
have the right signature. -/
def declare : Edit Module RoutineTable := do
  let w := (← get).width
  let ids ← Routine.all.mapM (declareOne w)
  return ⟨w, ids⟩

/-- The function that is a routine. -/
def id (t : RoutineTable) (r : Routine) : FuncId := t.ids.getD (Routine.all.idxOf r) ⟨0⟩

/-- What a routine takes and returns. -/
def signature (t : RoutineTable) (r : Routine) : Signature := r.signature t.width

/-- The address of a routine. -/
def callee (t : RoutineTable) (r : Routine) : Operand :=
  .const (.func (t.id r) (.functionPtr (t.signature r)))

/-- Insert a call of a routine. -/
def call (t : RoutineTable) (r : Routine) (args : List Operand) : Edit Splice ValueId :=
  Splice.call (t.callee r) (t.signature r) args

/-- The routine of a handle. -/
def routine? (t : RoutineTable) (id : FuncId) : Option Routine :=
  Routine.all.find? (t.id · = id)

end RoutineTable

end PointerGuard
