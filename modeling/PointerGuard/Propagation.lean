import PointerGuard.ShadowFrame

/-!
# Propagation of metadata

The metadata of what an instruction defines. Results of calls come with metadata in shadow frames,
loaded pointers have that of their place, stack allocations share one key, and a derived pointer has
that of what it is derived from. A pointer phi gets placeholders, and any other pointer is as good
as null. If an operand has no metadata yet the instruction has to wait.
-/

namespace PointerGuard

namespace Weaving

/-- A stack allocation: from its address up to its end, with the key of the frame. -/
def propagateAlloca (env : Env) (alloca : ValueId) (ty : Ty) (copies : Option Operand) :
    Edit Weaving Unit := do
  let temporal ←
    if env.config.temporalSafety then some <$> requestFrameKey env else pure none
  let spatial ←
    if env.config.spatialSafety then
      splice (.after alloca) do
        let base ← Splice.toVoidPtr alloca
        let past ← Splice.gep alloca [copies.getD (.const (.int env.width.bits 1))] ty
        let bound ← Splice.toVoidPtr past
        return some (⟨base, bound⟩ : Spatial)
    else pure none
  count fun r => { r with stackAllocations := r.stackAllocations + 1 }
  associate alloca ⟨spatial, temporal⟩

/-- The tracked halves of a record of all four components. -/
def extractRecord (env : Env) (record : ValueId) : Edit Splice PointerMetadata := do
  let spatial ←
    if env.config.spatialSafety then do
      let base ← Splice.extract record (Routine.loadedField .base)
      let bound ← Splice.extract record (Routine.loadedField .bound)
      pure (some (⟨base, bound⟩ : Spatial))
    else pure none
  let temporal ←
    if env.config.temporalSafety then do
      let key ← Splice.extract record (Routine.loadedField .key)
      let lock ← Splice.extract record (Routine.loadedField .lock)
      pure (some (⟨key, lock⟩ : Temporal))
    else pure none
  return ⟨spatial, temporal⟩

/-- A loaded pointer: what is recorded for the place it was loaded from. -/
def propagateLoad (env : Env) (load : ValueId) (ptr : Operand) : Edit Weaving Unit := do
  let md ← splice (.after load) do
    let address ← Splice.toVoidPtr ptr
    let record ← env.routines.call .metadataLoad [address]
    extractRecord env record
  count fun r => { r with metadataLoads := r.metadataLoads + 1 }
  associate load md

/-- A pointer derived from another: the same metadata. -/
def propagateDerived (env : Env) (derived : ValueId) (source : Operand) : Edit Weaving Bool := do
  match ← tryResolve env source with
  | some md =>
    associate derived md
    return true
  | none => return false

/-- Insert the choice between the components of two pointers. A half has to be there for both. -/
def selectComponents (cond : Operand) (ifTrue ifFalse : PointerMetadata) :
    Edit Splice PointerMetadata := do
  let spatial ← match ifTrue.spatial, ifFalse.spatial with
    | some t, some f => do
      let base ← Splice.select cond t.base f.base
      let bound ← Splice.select cond t.bound f.bound
      pure (some (⟨base, bound⟩ : Spatial))
    | _, _ => pure none
  let temporal ← match ifTrue.temporal, ifFalse.temporal with
    | some t, some f => do
      let key ← Splice.select cond t.key f.key
      let lock ← Splice.select cond t.lock f.lock
      pure (some (⟨key, lock⟩ : Temporal))
    | _, _ => pure none
  return ⟨spatial, temporal⟩

/-- A choice between pointers: the same choice between their components. Both are resolved before
anything is decided. -/
def propagateSelect (env : Env) (select : ValueId) (cond ifTrue ifFalse : Operand) :
    Edit Weaving Bool := do
  let onTrue ← tryResolve env ifTrue
  let onFalse ← tryResolve env ifFalse
  match onTrue, onFalse with
  | some onTrue, some onFalse =>
    let md ← splice (.after select) (selectComponents cond onTrue onFalse)
    associate select md
    return true
  | _, _ => return false

/-- Insert phis without edges for the tracked components. -/
def placeholderPhis (env : Env) :
    Edit Splice (Option (ValueId × ValueId) × Option (ValueId × ValueId)) := do
  let spatial ←
    if env.config.spatialSafety then do
      let base ← Splice.phi .voidPtr
      let bound ← Splice.phi .voidPtr
      pure (some (base, bound))
    else pure none
  let temporal ←
    if env.config.temporalSafety then do
      let key ← Splice.phi env.width.keyTy
      let lock ← Splice.phi .voidPtr
      pure (some (key, lock))
    else pure none
  return (spatial, temporal)

/-- A pointer phi: placeholders that get their edges later. -/
def propagatePhi (env : Env) (phi : ValueId) : Edit Weaving Unit := do
  let (spatial, temporal) ← splice (.after phi) (placeholderPhis env)
  associate phi
    ⟨spatial.map fun (base, bound) => ⟨base, bound⟩, temporal.map fun (key, lock) => ⟨key, lock⟩⟩
  let shadows :=
    (spatial.map fun (base, bound) => [(Component.base, base), (.bound, bound)]).getD [] ++
      (temporal.map fun (key, lock) => [(Component.key, key), (.lock, lock)]).getD []
  modify fun s => { s with placeholders := s.placeholders ++ [⟨phi, shadows⟩] }
  count fun r => { r with placeholderPhis := r.placeholderPhis + 1 }

/-- The metadata of operands, up to the first that has none; none if there is such an operand. -/
def tryResolveAll (env : Env) : List Operand → Edit Weaving (Option (List PointerMetadata))
  | [] => return some []
  | operand :: rest => do
    match ← tryResolve env operand with
    | none => return none
    | some md =>
      match ← tryResolveAll env rest with
      | none => return none
      | some mds => return some (md :: mds)

/-- A call: a shadow frame if the callee knows about metadata; otherwise a pointer result is as good
as null. -/
def propagateCall (env : Env) (call : ValueId) (ret : Ty) (callee : Operand) (args : List Operand) :
    Edit Weaving Bool := do
  if env.interface.isInstrumentedCall callee then
    let frame ← Edit.ofExcept (ShadowFrame.ofCall (← get).func args ret)
    match ← tryResolveAll env (frame.pointerArgs.filterMap fun position => args[position]?) with
    | some mds =>
      marshalCall env call frame mds
      return true
    | none => return false
  else
    if ret.isPointer then
      associate call env.nullMetadata
    return true

/-- A returned pointer: its metadata goes to the caller. -/
def propagateReturn (env : Env) (ret : ValueId) (returned : Operand) : Edit Weaving Bool := do
  if (← operandType returned).isPointer then
    match ← tryResolve env returned with
    | some md =>
      marshalReturn env ret md
      return true
    | none => return false
  else
    return true

/-- Create the metadata of one instruction, or tell that an operand has none yet. -/
def propagate (env : Env) (id : ValueId) : Edit Weaving Bool := do
  let f := (← get).func
  match f.value? id with
  | some ⟨ty, .inst inst⟩ =>
    match inst.kind with
    | .alloca _ copies =>
      propagateAlloca env id ty copies
      return true
    | .call callee args _ => propagateCall env id ty callee args
    | .ret (some returned) => propagateReturn env id returned
    | .load ptr =>
      if ty.isPointer then
        propagateLoad env id ptr
      return true
    | .gep source _ | .cast .bitcast source =>
      if ty.isPointer then propagateDerived env id source else return true
    | .select cond ifTrue ifFalse =>
      if ty.isPointer then propagateSelect env id cond ifTrue ifFalse else return true
    | .phi _ =>
      if ty.isPointer then
        propagatePhi env id
      return true
    | .cast .intToPtr _ | .extract .. =>
      if ty.isPointer then
        associate id env.nullMetadata
      return true
    | .cast .ptrToInt _ | .store .. | .binary .. | .icmp .. | .jump _ | .branch .. | .ret none
    | .unreachable => return true
  | _ => throw (.breach (.notInstruction id f.name))

end Weaving

end PointerGuard
