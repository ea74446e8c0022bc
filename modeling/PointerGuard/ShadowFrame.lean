import PointerGuard.Weave

/-!
# Shadow frames

Metadata crosses calls on a stack of its own. Before a call that passes or returns pointers the
caller opens a frame with a slot for the result and one for each pointer argument, and stores the
metadata of the arguments; after the call it loads that of the result and closes the frame. The
callee loads the metadata of its pointer parameters, and stores that of a pointer it returns.

Slot 0 is that of the result; the pointer arguments have slots 1, 2, … in order. Only the halves
that are tracked are transferred.
-/

namespace PointerGuard

/-- The shape of the frame of a call. -/
structure ShadowFrame where
  /-- The positions of the arguments that are pointers, in order. -/
  pointerArgs : List Nat
  /-- Whether the result is a pointer. -/
  returnsPointer : Bool
  deriving DecidableEq, Repr

namespace ShadowFrame

/-- The frame of a call with some arguments and a type of result. -/
def ofCall (f : Function) (args : List Operand) (ret : Ty) : Except Error ShadowFrame := do
  let types ← args.mapM f.operandType
  return ⟨types.zipIdx.filterMap fun (ty, position) => if ty.isPointer then some position else none,
    ret.isPointer⟩

/-- The number of slots; 0 if no frame is needed. -/
def slotCount (frame : ShadowFrame) : Nat :=
  if frame.pointerArgs.isEmpty && !frame.returnsPointer then 0 else frame.pointerArgs.length + 1

/-- Whether a frame has any slot. -/
def isNeeded (frame : ShadowFrame) : Bool := 0 < frame.slotCount

/-- The slot of what is returned. -/
def returnSlot : Nat := 0

/-- The number of a slot, as it is passed. -/
def slotOperand (slot : Nat) : Operand := .const (.int 32 slot)

/-- Store the halves of a record in a slot. -/
def storeSlot (routines : RoutineTable) (md : PointerMetadata) (slot : Nat) : Edit Splice Unit := do
  if let some spatial := md.spatial then
    let _ ← routines.call .storeBase [spatial.base, slotOperand slot]
    let _ ← routines.call .storeBound [spatial.bound, slotOperand slot]
  if let some temporal := md.temporal then
    let _ ← routines.call .storeKey [temporal.key, slotOperand slot]
    let _ ← routines.call .storeLock [temporal.lock, slotOperand slot]

/-- Insert the loads of base and bound from a slot. -/
def loadSpatial (routines : RoutineTable) (slot : Nat) : Edit Splice Spatial := do
  let base ← routines.call .loadBase [slotOperand slot]
  let bound ← routines.call .loadBound [slotOperand slot]
  return ⟨base, bound⟩

/-- Insert the loads of key and lock from a slot. -/
def loadTemporal (routines : RoutineTable) (slot : Nat) : Edit Splice Temporal := do
  let key ← routines.call .loadKey [slotOperand slot]
  let lock ← routines.call .loadLock [slotOperand slot]
  return ⟨key, lock⟩

/-- Insert the loads of the tracked halves from a slot. -/
def loadSlot (env : Env) (slot : Nat) : Edit Splice PointerMetadata := do
  let spatial ←
    if env.config.spatialSafety then some <$> loadSpatial env.routines slot else pure none
  let temporal ←
    if env.config.temporalSafety then some <$> loadTemporal env.routines slot else pure none
  return ⟨spatial, temporal⟩

end ShadowFrame

/-- The pointer parameters of a function with their positions. -/
def Function.pointerParams (f : Function) : List (ValueId × Nat) :=
  f.params.zipIdx.filter fun (param, _) => f.isPointerValue param

namespace Weaving

open ShadowFrame

/-- Put a frame around a call. The metadata is that of the pointer arguments, in order. A pointer
result gets the metadata that the callee left. -/
def marshalCall (env : Env) (call : ValueId) (frame : ShadowFrame) (args : List PointerMetadata) :
    Edit Weaving Unit := do
  if frame.isNeeded then
    splice (.before call) do
      let _ ← env.routines.call .allocateFrame [slotOperand frame.slotCount]
      args.zipIdx.forM fun (md, n) => storeSlot env.routines md (n + 1)
    let result ← splice (.after call) do
      let result ←
        if frame.returnsPointer then some <$> loadSlot env returnSlot else pure none
      let _ ← env.routines.call .deallocateFrame []
      return result
    if let some md := result then
      associate call md
    count fun r => { r with shadowStackFrames := r.shadowStackFrames + 1 }

/-- Store the metadata of a returned pointer before the function leaves. -/
def marshalReturn (env : Env) (ret : ValueId) (md : PointerMetadata) : Edit Weaving Unit :=
  splice (.before ret) (storeSlot env.routines md returnSlot)

/-- Load the metadata of a pointer parameter from its slot, and report it if asked to. A parameter
that points to a private copy may be used without limit. -/
def parameterMetadata (env : Env) (param : ValueId) (byval : Bool) (slot : Nat) :
    Edit Weaving PointerMetadata := do
  if byval then
    materialize env (.unbounded env.width)
  else
    splice .prologue do
      let md ← loadSlot env slot
      if env.config.introspectMetadata then
        if let some spatial := md.spatial then
          let ptr ← Splice.toVoidPtr param
          let _ ← env.routines.call .introspect
            [ptr, spatial.base, spatial.bound, slotOperand slot]
      return md

/-- Record the metadata of all pointer parameters. -/
def loadParameters (env : Env) : Edit Weaving Unit := do
  let f := (← get).func
  f.pointerParams.zipIdx.forM fun ((param, position), n) => do
    let md ← parameterMetadata env param (f.attrsAt position).byval (n + 1)
    associate param md

end Weaving

end PointerGuard
