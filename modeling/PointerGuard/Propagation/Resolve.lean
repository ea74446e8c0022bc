import PointerGuard.Propagation

/-!
# Resolving metadata

The second pass over a function. It tries the deferred instructions again until
none is left, gives the placeholders their edges, and records the metadata of
every pointer that is stored in memory.
-/

namespace PointerGuard

namespace Weaving

/-! ### Deferred instructions -/

/-- The first pointer an instruction uses that has no metadata, or the instruction itself. -/
def firstUnresolved (s : Weaving) (id : ValueId) : ValueId :=
  let operands := ((s.func.kind? id).map InstKind.operands).getD []
  ((operands.filterMap Operand.value?).find? fun used =>
    s.func.isPointerValue used && !s.store.has used).getD id

/-- Try deferred instructions again, round by round. A round that leaves all of them has failed, so
there are no more rounds than instructions. -/
def resolveRounds (env : Env) : Nat → List ValueId → Edit Weaving Unit
  | 0, _ => return
  | _ + 1, [] => return
  | fuel + 1, first :: rest => do
    let waiting ← (first :: rest).filterM fun id => do return !(← propagate env id)
    if waiting.length = rest.length + 1 then
      let s ← get
      throw (.missingMetadata s.func.name (firstUnresolved s first))
    resolveRounds env fuel waiting

/-- Retry what was deferred until nothing is left. -/
def resolveDeferred (env : Env) : Edit Weaving Unit := do
  let waiting := (← get).deferred
  modify fun s => { s with deferred := [] }
  resolveRounds env waiting.length waiting

/-! ### Placeholders -/

/-- Add an edge to a phi of the function that is woven. -/
def addIncoming (phi : ValueId) (value : Operand) (block : BlockId) : Edit Weaving Unit := do
  let s ← get
  set { s with func := ← Edit.ofExcept (s.func.addIncoming phi value block) }

/-- The metadata of what a phi takes from one edge. Nothing comes from an unreachable block. -/
def edgeMetadata (env : Env) (phi : ValueId) (expected filled : Nat) (operand : Operand)
    (pred : BlockId) : Edit Weaving PointerMetadata := do
  if env.isReachable pred then
    match ← tryResolve env operand with
    | some md => return md
    | none => throw (.phiArity (← get).func.name phi expected filled)
  else
    return env.nullMetadata

/-- Add an edge to the shadows of a phi for each of its own. -/
def fillPlaceholder (env : Env) (placeholder : Placeholder) : Edit Weaving Unit := do
  match (← get).func.kind? placeholder.phi with
  | some (.phi incoming) =>
    let expected := incoming.length
    incoming.zipIdx.forM fun ((operand, pred), filled) => do
      let md ← edgeMetadata env placeholder.phi expected filled operand pred
      placeholder.shadows.forM fun (component, shadow) =>
        addIncoming shadow (md.component env.width component) pred
    let f := (← get).func
    placeholder.shadows.forM fun (_, shadow) => do
      let found := (f.phiArity? shadow).getD 0
      unless found = expected do
        throw (.phiArity f.name placeholder.phi expected found)
  | _ => throw (.breach (.placeholderOfNonPhi placeholder.phi))

/-- Fill all shadows that wait for their edges. -/
def fillPlaceholders (env : Env) : Edit Weaving Unit := do
  let placeholders := (← get).placeholders
  modify fun s => { s with placeholders := [] }
  placeholders.forM (fillPlaceholder env)

/-! ### Stored pointers -/

/-- Record the metadata of a pointer that is stored in memory. -/
def recordStore (env : Env) (id : ValueId) : Edit Weaving Unit := do
  match (← get).func.kind? id with
  | some (.store stored ptr) =>
    if (← operandType stored).isPointer then
      let md ← resolve env stored
      splice (.after id) do
        let address ← Splice.toVoidPtr ptr
        let _ ← env.routines.call .metadataStore
          [address, md.baseOrNull, md.boundOrNull, md.keyOrZero env.width, md.lockOrNull]
      count fun r => { r with metadataStores := r.metadataStores + 1 }
  | _ => return

/-- The second pass: what was deferred, the shadows of phis, and the pointers that are stored. -/
def resolveMetadata (env : Env) : Edit Weaving Unit := do
  resolveDeferred env
  fillPlaceholders env
  forProgramInsts (← bfsBlocks) (recordStore env)

end Weaving

end PointerGuard
