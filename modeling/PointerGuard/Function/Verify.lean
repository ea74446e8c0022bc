import PointerGuard.Function

/-!
# Verification of function bodies

The rules that everything else relies on and has to keep:

* every block ends in a terminator and has no other, its phis come first, and
  its instructions say they belong to it; every branch target exists;
* every operand names a value of the function that is not `void`;
* in blocks that can be reached, a phi has one edge for each predecessor, and
  every use is dominated by the definition it uses.

Verification finds the first broken rule: first the shape of all blocks, in
order, then the uses of all instructions, in order. Declarations break no rule.
-/

namespace PointerGuard

namespace Function

/-! ### Shape of blocks -/

/-- Check the instructions of a block from some point on. `seen` holds the instructions of the
function that were listed before, and `phisDone` says whether one of this block was not a phi. -/
def checkInsts (f : Function) (block : BlockId) :
    (seen : List ValueId) → (phisDone : Bool) → List ValueId → Except Violation Unit
  | _, _, [] => .ok ()
  | seen, phisDone, id :: rest =>
    match f.inst? id with
    | none => .error (.notInstruction block id)
    | some inst =>
      if inst.block ≠ block then .error (.wrongBlock id block inst.block)
      else if id ∈ seen then .error (.placedTwice id)
      else if inst.kind.isTerminator ≠ rest.isEmpty then
        .error (.badTerminator block id inst.kind.mnemonic)
      else if inst.kind.isPhi && phisDone then .error (.latePhi id block)
      else f.checkInsts block (id :: seen) (phisDone || !inst.kind.isPhi) rest

/-- Check that the blocks control may move to from a block exist. -/
def checkTargets (f : Function) (block : BlockId) : Except Violation Unit :=
  (f.successors block).forM fun target =>
    if (f.block? target).isSome then .ok () else .error (.missingTarget block target)

/-- Check the shape of one block, given the instructions listed in earlier ones. -/
def checkBlock (f : Function) (seen : List ValueId) (block : BlockId) : Except Violation Unit := do
  if (f.instsOf block).isEmpty then
    throw (.emptyBlock block)
  f.checkInsts block seen false (f.instsOf block)
  f.checkTargets block

/-- Check the shape of blocks, given the instructions listed in earlier ones. -/
def checkBlocks (f : Function) : (seen : List ValueId) → List BlockId → Except Violation Unit
  | _, [] => .ok ()
  | seen, block :: rest => do
    f.checkBlock seen block
    f.checkBlocks (f.instsOf block ++ seen) rest

/-- Check every block, with no value placed before the first. -/
def checkShape (f : Function) : Except Violation Unit := f.checkBlocks [] f.blockIds

/-! ### Uses -/

/-- Where an instruction is listed: the block it belongs to and its position there. -/
def placement? (f : Function) (id : ValueId) : Option (BlockId × Nat) := do
  let inst ← f.inst? id
  let position ← (f.instsOf inst.block).idxOf? id
  return (inst.block, position)

/-- Is a value defined whenever control comes to a position of a block? A parameter always is. -/
def definedAt (f : Function) (tree : DominatorTree) (id : ValueId) (block : BlockId)
    (position : Nat) : Bool :=
  match f.value? id with
  | none => false
  | some ⟨_, .param _⟩ => true
  | some ⟨_, .inst _⟩ =>
    match f.placement? id with
    | none => false
    | some (definition, index) =>
      if definition = block then index < position
      else tree.strictlyDominates definition.index block.index

/-- Check that an operand has a value to give. -/
def checkOperand (f : Function) (id : ValueId) : Operand → Except Violation Unit
  | .const _ => .ok ()
  | .value used =>
    match f.value? used with
    | none => .error (.usesUndefined id used)
    | some info => if info.ty.isVoid then .error (.usesVoid id used) else .ok ()

/-- Check that an operand is defined where it is used. -/
def checkUse (f : Function) (tree : DominatorTree) (id : ValueId) (block : BlockId)
    (position : Nat) : Operand → Except Violation Unit
  | .const _ => .ok ()
  | .value used =>
    if f.definedAt tree used block position then .ok () else .error (.notDominated used id)

/-- Check that an edge of a phi comes from a predecessor, and that its operand is defined at the
end of it. Nothing is asked of edges that are never taken. -/
def checkEdge (f : Function) (tree : DominatorTree) (id : ValueId) (preds : List BlockId)
    (edge : Operand × BlockId) : Except Violation Unit :=
  let (operand, pred) := edge
  if pred ∉ preds then .error (.phiForeignEdge id pred)
  else match operand with
    | .const _ => .ok ()
    | .value used =>
      if tree.isReachable pred.index &&
          !f.definedAt tree used pred (f.instsOf pred).length then
        .error (.phiNotDominated used pred id)
      else .ok ()

/-- Check the edges of a phi against the predecessors of its block. -/
def checkPhi (f : Function) (tree : DominatorTree) (id : ValueId) (block : BlockId)
    (incoming : List (Operand × BlockId)) : Except Violation Unit := do
  let preds := f.predecessors block
  unless incoming.length = preds.length do
    throw (.phiEdgeCount id incoming.length block preds.length)
  incoming.forM (f.checkEdge tree id preds)
  unless (incoming.map Prod.snd).Nodup do
    throw (.phiRepeatedEdge id)

/-- Check what an instruction at a position of a block uses. -/
def checkInst (f : Function) (tree : DominatorTree) (block : BlockId) (id : ValueId)
    (position : Nat) : Except Violation Unit :=
  match f.kind? id with
  | none => .ok ()
  | some kind => do
    kind.operands.forM (f.checkOperand id)
    if tree.isReachable block.index then
      match kind with
      | .phi incoming => f.checkPhi tree id block incoming
      | _ => kind.operands.forM (f.checkUse tree id block position)

/-- Check what the instructions of all blocks use. -/
def checkUses (f : Function) (tree : DominatorTree) : Except Violation Unit :=
  f.blockIds.forM fun block =>
    (f.instsOf block).zipIdx.forM fun (id, position) => f.checkInst tree block id position

/-! ### Verification -/

/-- Find the first rule the function breaks. -/
def verify (f : Function) : Except Error Unit := do
  if f.isDeclaration then
    return
  f.checkShape.mapError (.verification f.name)
  match f.dominators? with
  | none => throw (.fault .danglingEdge)
  | some tree => (f.checkUses tree).mapError (.verification f.name)

end Function

end PointerGuard
