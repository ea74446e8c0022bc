import PointerGuard.Coverage
import PointerGuard.Weave

/-!
# Checks

Before every load and store a bounds check and a key check are inserted, as far as they are wanted
and needed. Constant indices may prove an access in bounds, and a key check is not needed for stack
objects and globals, or if another check covers the access. Indirect calls get a bounds check of
their target, and memory copies are followed by a copy of the metadata.
-/

namespace PointerGuard

/-- What an access does to memory. -/
inductive Access where
  | load | store
  deriving DecidableEq, Repr

namespace Access

/-- Whether accesses of the kind get a bounds check. -/
def wantsSpatial (config : Config) : Access → Bool
  | .load => config.spatialSafety && config.loadChecks
  | .store => config.spatialSafety && config.storeChecks

/-- Whether accesses of the kind get a key check. -/
def wantsTemporal (config : Config) : Access → Bool
  | .load => config.temporalSafety && config.temporalLoadChecks
  | .store => config.temporalSafety && config.temporalStoreChecks

/-- The routine that checks bounds. -/
def spatialRoutine : Access → Routine
  | .load => .spatialLoadCheck
  | .store => .spatialStoreCheck

/-- The routine that checks keys. -/
def temporalRoutine : Access → Routine
  | .load => .temporalLoadCheck
  | .store => .temporalStoreCheck

end Access

/-- Count a key check that was left out. -/
def FunctionReport.countEliminated (r : FunctionReport) : Tier → FunctionReport
  | .trivial => { r with temporalEliminatedTrivial := r.temporalEliminatedTrivial + 1 }
  | .block => { r with temporalEliminatedBlock := r.temporalEliminatedBlock + 1 }
  | .function => { r with temporalEliminatedFunction := r.temporalEliminatedFunction + 1 }

/-- Can an object not be freed while the function runs, as far as the configuration uses that? -/
def Function.isTriviallyLive (f : Function) (config : Config) : Operand → Bool
  | .value id =>
    match f.kind? id with
    | some (.alloca ..) => config.eliminateStackTemporal
    | _ => false
  | .const (.global ..) => config.eliminateGlobalTemporal
  | .const _ => false

/-- Whether a call copies memory. -/
def Interface.isCopy (i : Interface) (callee : Operand) : Bool :=
  match i.calleeName? callee with
  | some name => isMemoryCopy name
  | none => false

/-- Reachable blocks in breadth-first order, then the others in order. -/
def Function.checkOrder? (f : Function) : Option (List BlockId) :=
  f.bfsBlocks?.map fun reached => reached ++ f.blockIds.filter (· ∉ reached)

namespace Weaving

/-! ### Loads and stores -/

/-- Why the key check of an access is not needed; none if it is. -/
def elision? (s : Weaving) (config : Config) (access : ValueId) (source : Operand) : Option Tier :=
  match s.covered.lookup access with
  | some tier => some tier
  | none => if s.func.isTriviallyLive config source then some .trivial else none

/-- Insert a bounds check. The size has to be a signed word. -/
def spatialCheck (env : Env) (access : Access) (ptr : Operand) (bytes : Nat)
    (md : PointerMetadata) : Edit Splice Unit := do
  let raw ← Splice.toVoidPtr ptr
  match signedWord? bytes with
  | some size =>
    let _ ← env.routines.call access.spatialRoutine
      [md.baseOrNull, md.boundOrNull, raw, .const (.int env.width.bits size)]
  | none => throw (.breach (.accessSize bytes))

/-- Call the key check for an access through a pointer with the given metadata. -/
def temporalCheck (env : Env) (access : Access) (md : PointerMetadata) : Edit Splice Unit := do
  let _ ← env.routines.call access.temporalRoutine
    [md.lockOrNull, md.keyOrZero env.width, md.baseOrNull, md.boundOrNull]

/-- Mark those of some instructions as covered that access a source. The first mark of an access
counts. All pointers through which they access memory have to have sources. -/
def cover (tier : Tier) (source : Operand) (insts : List ValueId) : Edit Weaving Unit := do
  let f := (← get).func
  Edit.refuse .cyclicDerivation (f.endless? insts)
  let accesses := insts.filter (f.accessesSource source)
  modify fun s => { s with covered := s.covered ++ accesses.map (·, tier) }

/-- Mark the accesses that an inserted key check covers. -/
def coverFrom (env : Env) (check : ValueId) (source : Operand) : Edit Weaving Unit := do
  let f := (← get).func
  if env.config.eliminateBlockTemporal then
    cover .block source (f.searchedInBlock env.config.opaqueCalls check)
  if env.config.eliminateFunctionTemporal then
    let insts ← Edit.ofOption .danglingEdge
      (f.searchedInDominated? env.dominators env.config.opaqueCalls check)
    cover .function source insts

/-- Is an access found to stay inside its object? All sizes that this rests on have to be words. -/
def isProven (env : Env) (ptr : Operand) (bytes : Nat) : Edit Weaving Bool := do
  if env.config.eliminateConstantIndexSpatial then
    let f := (← get).func
    Edit.refuse .oversized (f.oversized? env.interface ptr)
    return f.provenInBounds env.interface ptr bytes
  else
    return false

/-- Is a bounds check to be inserted? One that is wanted and left out is counted. -/
def needsSpatial (env : Env) (access : Access) (ptr : Operand) (bytes : Nat) :
    Edit Weaving Bool := do
  if access.wantsSpatial env.config then
    if ← isProven env ptr bytes then
      count fun r =>
        { r with spatialEliminatedConstantIndex := r.spatialEliminatedConstantIndex + 1 }
      return false
    else
      return true
  else
    return false

/-- Is a key check to be inserted? One that is wanted and left out is counted. -/
def needsTemporal (env : Env) (access : Access) (id : ValueId) (source : Operand) :
    Edit Weaving Bool := do
  if access.wantsTemporal env.config then
    match (← get).elision? env.config id source with
    | some tier =>
      count (·.countEliminated tier)
      return false
    | none => return true
  else
    return false

/-- Insert the checks of an access to a value of a type. -/
def checkAccess (env : Env) (access : Access) (id : ValueId) (ptr : Operand) (ty : Ty) :
    Edit Weaving Unit := do
  if ptr.isNull || !(access.wantsSpatial env.config || access.wantsTemporal env.config) then
    return
  let bytes ← Edit.ofOption (.oversized ty) (Layout.wordSize? env.width ty)
  let spatial ← needsSpatial env access ptr bytes
  let source ← Edit.ofOption (.cyclicDerivation ptr) ((← get).func.source? ptr)
  let temporal ← needsTemporal env access id source
  if spatial || temporal then
    let md ← resolve env ptr
    splice (.before id) do
      if spatial then
        spatialCheck env access ptr bytes md
      if temporal then
        temporalCheck env access md
    if spatial then
      count fun r => { r with spatialChecks := r.spatialChecks + 1 }
    if temporal then
      count fun r => { r with temporalChecks := r.temporalChecks + 1 }
      coverFrom env id source

/-! ### Calls -/

/-- Insert the check of the target of an indirect call. -/
def checkCallTarget (env : Env) (call : ValueId) (callee : Operand) : Edit Weaving Unit := do
  if env.config.callChecks && env.config.spatialSafety && callee.value?.isSome then
    let md ← resolve env callee
    splice (.before call) do
      let target ← Splice.toVoidPtr callee
      let _ ← env.routines.call .spatialCallCheck [md.baseOrNull, md.boundOrNull, target]
    count fun r => { r with callChecks := r.callChecks + 1 }

/-- Insert the copy of the metadata of copied memory. -/
def copyMetadata (env : Env) (call : ValueId) (callee : Operand) (args : List Operand) :
    Edit Weaving Unit := do
  if env.config.memcpyMetadata && env.interface.isCopy callee then
    match args with
    | target :: source :: size :: _ =>
      unless (← operandType target).isPointer do
        return
      unless (← operandType source).isPointer do
        return
      splice (.after call) do
        let target ← Splice.toVoidPtr target
        let source ← Splice.toVoidPtr source
        let _ ← env.routines.call .copyMetadata [target, source, size]
      count fun r => { r with metadataCopies := r.metadataCopies + 1 }
    | _ => return

/-! ### The pass -/

/-- Insert what one instruction needs. -/
def checkInst (env : Env) (id : ValueId) : Edit Weaving Unit := do
  let f := (← get).func
  match f.kind? id with
  | some (.load ptr) => checkAccess env .load id ptr ((f.valueType? id).getD .void)
  | some (.store value ptr) => checkAccess env .store id ptr (← operandType value)
  | some (.call callee args _) =>
    checkCallTarget env id callee
    copyMetadata env id callee args
  | _ => return

/-- Insert all checks, and tell whether there is anything to show for it. -/
def insertChecks (env : Env) : Edit Weaving Bool := do
  modify fun s => { s with covered := [] }
  let before := (← get).report.totalChecks
  let order ← Edit.ofOption .danglingEdge (← get).func.checkOrder?
  forProgramInsts order (checkInst env)
  let report := (← get).report
  return report.totalChecks != before || report.metadataCopies != 0

end Weaving

end PointerGuard
