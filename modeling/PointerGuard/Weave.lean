import PointerGuard.Config
import PointerGuard.ConstantMetadata
import PointerGuard.Report

/-!
# Weaving metadata into a function

Instrumenting a function is an edit of a `Weaving`: the function, the store of
metadata, the counters, and what has to be remembered from one step to the next.
All that an edit may look at but not change is in `Env`.

Two things are requested from the runtime at most once for each function, at the
top of the entry block: the lock of all globals, and the key and lock of the
stack frame.
-/

namespace PointerGuard

/-- What instrumentation of a function may look at. -/
structure Env where
  /-- The switches of the run. -/
  config : Config
  /-- What is known of the module. -/
  interface : Interface
  /-- The routines of the runtime. -/
  routines : RoutineTable
  /-- The dominator tree of the function. -/
  dominators : DominatorTree

namespace Env

/-- The width of pointers. -/
def width (env : Env) : PointerWidth := env.interface.width

/-- Whether a block is reached from the entry. -/
def isReachable (env : Env) (block : BlockId) : Bool := env.dominators.isReachable block.index

/-- The metadata of null in the halves that are tracked. -/
def nullMetadata (env : Env) : PointerMetadata :=
  .null env.width env.config.spatialSafety env.config.temporalSafety

end Env

/-- The phis that carry the metadata of a pointer phi, one for each tracked component. -/
structure Placeholder where
  /-- The pointer phi. -/
  phi : ValueId
  /-- The phis of its components. -/
  shadows : List (Component × ValueId)
  deriving DecidableEq, Repr

/-- Why a key check is not needed. -/
inductive Tier where
  /-- The object is on the stack or global. -/
  | trivial
  /-- An earlier check in the same block covers it. -/
  | block
  /-- A check in a dominating block covers it. -/
  | function
  deriving DecidableEq, Repr

/-- A function that is being instrumented. -/
structure Weaving where
  /-- The function. -/
  func : Function
  /-- The metadata found so far. -/
  store : Store
  /-- The counters. -/
  report : FunctionReport
  /-- The lock of all globals, once it has been requested. -/
  globalLock : Option Operand := none
  /-- Key and lock of the stack frame, once they have been requested. -/
  frameKey : Option Temporal := none
  /-- Placeholders whose edges are still missing. -/
  placeholders : List Placeholder := []
  /-- Instructions whose metadata has to wait. -/
  deferred : List ValueId := []
  /-- Accesses whose key check is covered by another. -/
  covered : List (ValueId × Tier) := []
  deriving Repr

namespace Weaving

/-- A function before it is instrumented. -/
def start (f : Function) (store : Store) : Weaving where
  func := f
  store := store
  report := { function := f.name }

/-- Insert instructions into the function. -/
def splice (point : InsertPoint) (body : Edit Splice α) : Edit Weaving α :=
  Edit.within func (fun f s => { s with func := f }) (Function.splice point body)

/-- Record the metadata of a value of the function. -/
def associate (id : ValueId) (md : PointerMetadata) : Edit Weaving Unit := do
  let f := (← get).func
  Edit.within store (fun store s => { s with store := store }) (Store.associate f id md)

/-- Change the counters. -/
def count (change : FunctionReport → FunctionReport) : Edit Weaving Unit :=
  modify fun s => { s with report := change s.report }

/-- The type of an operand in the function that is woven. -/
def operandType (operand : Operand) : Edit Weaving Ty := do
  Edit.ofExcept ((← get).func.operandType operand)

/-! ### Metadata of operands -/

/-- The lock of all globals, requested at the top of the entry block when it is first needed. -/
def requestGlobalLock (env : Env) : Edit Weaving Operand := do
  match (← get).globalLock with
  | some lock => return lock
  | none =>
    let lock ← splice .prologue (env.routines.call .globalLock [])
    modify fun s => { s with globalLock := some (.value lock) }
    return .value lock

/-- Key and lock of the stack frame, requested at the top of the entry block when they are first
needed. -/
def requestFrameKey (env : Env) : Edit Weaving Temporal := do
  match (← get).frameKey with
  | some frameKey => return frameKey
  | none =>
    let frameKey ← splice .prologue do
      let pair ← env.routines.call .stackAllocation []
      let lock ← Splice.extract pair Routine.frameLockField
      let key ← Splice.extract pair Routine.frameKeyField
      return (⟨key, lock⟩ : Temporal)
    modify fun s => { s with frameKey := some frameKey }
    return frameKey

/-- The metadata of a constant as operands. The lock of globals is requested only if it is
needed. -/
def materialize (env : Env) (folded : FoldedMetadata) : Edit Weaving PointerMetadata := do
  let lock ←
    if env.config.temporalSafety && folded.needsGlobalLock then
      requestGlobalLock env
    else
      pure (.const .nullVoidPtr)
  return folded.materialize env.width env.config.spatialSafety env.config.temporalSafety lock

/-- The metadata of an operand; none for a value that has none yet. -/
def tryResolve (env : Env) : Operand → Edit Weaving (Option PointerMetadata)
  | .const c => do
    let folded ← Edit.ofExcept (c.fold env.interface)
    return some (← materialize env folded)
  | .value id => do
    return (← get).store.lookup id

/-- The metadata of an operand, which has to exist. -/
def resolve (env : Env) : Operand → Edit Weaving PointerMetadata
  | .const c => do
    let folded ← Edit.ofExcept (c.fold env.interface)
    materialize env folded
  | .value id => do
    let s ← get
    Edit.ofExcept (s.store.get s.func id)

/-! ### Walking through the function -/

/-- The blocks reached from the first one, in breadth-first order. -/
def bfsBlocks : Edit Weaving (List BlockId) := do
  Edit.ofOption .danglingEdge (← get).func.bfsBlocks?

/-- Do something for every instruction of the program in some blocks. -/
def forProgramInsts (blocks : List BlockId) (visit : ValueId → Edit Weaving Unit) :
    Edit Weaving Unit :=
  blocks.forM fun block => do
    ((← get).func.programInsts block).forM visit

end Weaving

end PointerGuard
