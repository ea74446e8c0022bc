import PointerGuard.Provenance

/-!
# Coverage of key checks

A key check vouches for an allocation until a call may have freed it. So it covers an access to the
same allocation if no path from the check to the access passes a call: further down in its block, or
in blocks that its block strictly dominates. Of these, none is taken for *dirty* at first, and they
are swept again and again, spreading dirt along the edges, until a sweep changes nothing.
-/

namespace PointerGuard

namespace Function

/-- Whether a value is a call. -/
def isCall (f : Function) (id : ValueId) : Bool :=
  match f.kind? id with
  | some kind => kind.isCall
  | none => false

/-- Does an instruction access memory through a pointer with a given source? Accesses through a
literal null pointer do not count. -/
def accessesSource (f : Function) (source : Operand) (id : ValueId) : Bool :=
  match (f.kind? id).bind InstKind.accessedPointer? with
  | some ptr => !ptr.isNull && f.source? ptr == some source
  | none => false

/-- A pointer without a source, through which one of some instructions accesses memory. -/
def endless? (f : Function) (insts : List ValueId) : Option Operand :=
  insts.findSome? fun id =>
    ((f.kind? id).bind InstKind.accessedPointer?).filter fun ptr =>
      !ptr.isNull && (f.source? ptr).isNone

/-- Some instructions up to the first call, if calls matter. -/
def beforeCall (f : Function) (opaqueCalls : Bool) (insts : List ValueId) : List ValueId :=
  insts.takeWhile fun id => !(opaqueCalls && f.isCall id)

/-- The instructions of the program that follow one in its block. -/
def programInstsAfter (f : Function) (block : BlockId) (id : ValueId) : List ValueId :=
  ((f.programInsts block).dropWhile (· ≠ id)).tail

/-- Where the accesses stand that a check covers further down in its block. -/
def searchedInBlock (f : Function) (opaqueCalls : Bool) (check : ValueId) : List ValueId :=
  match f.inst? check with
  | some inst => f.beforeCall opaqueCalls (f.programInstsAfter inst.block check)
  | none => []

end Function

/-! ### Dominated blocks -/

/-- A block that the block of a check strictly dominates. -/
structure DominatedBlock where
  /-- The block. -/
  block : BlockId
  /-- The blocks from which control may move to it. -/
  preds : List BlockId
  /-- Whether it has a call that matters. -/
  hasCall : Bool
  deriving DecidableEq, Repr

/-- What is known of the blocks around a check. -/
structure CheckScope where
  /-- The block of the check. -/
  origin : BlockId
  /-- Whether a call that matters follows the check in its block. -/
  originDirty : Bool
  /-- The blocks that the block of the check strictly dominates. -/
  region : List DominatedBlock
  deriving DecidableEq, Repr

/-- Which blocks of a region are known to be dirty. A call that matters may have been made since the
check before one with a dirty entry starts, and before one with a dirty exit ends. -/
structure Dirt where
  /-- The blocks with a dirty entry. -/
  entries : List BlockId := []
  /-- The blocks with a dirty exit. -/
  exits : List BlockId := []
  deriving DecidableEq, Repr

/-- Note that a block is dirty, or that it is not. -/
def setDirty (blocks : List BlockId) (block : BlockId) (dirty : Bool) : List BlockId :=
  if dirty then blocks.insert block else blocks.filter (· ≠ block)

namespace CheckScope

/-- Does an edge lead from dirt into a block of the region, given the dirty exits? An edge from
elsewhere is dirty unless it is never taken. -/
def entersDirty (scope : CheckScope) (isReachable : BlockId → Bool) (exits : List BlockId)
    (b : DominatedBlock) : Bool :=
  b.preds.any fun pred =>
    if pred = scope.origin then scope.originDirty
    else if scope.region.any (·.block = pred) then pred ∈ exits
    else isReachable pred

/-- Look at one block of the region again. What is known of it is replaced at once. -/
def visit (scope : CheckScope) (isReachable : BlockId → Bool) (dirt : Dirt) (b : DominatedBlock) :
    Dirt :=
  let entry := scope.entersDirty isReachable dirt.exits b
  ⟨setDirty dirt.entries b.block entry, setDirty dirt.exits b.block (entry || b.hasCall)⟩

/-- Is what is known of a block still what a visit finds? -/
def isSettled (scope : CheckScope) (isReachable : BlockId → Bool) (dirt : Dirt)
    (b : DominatedBlock) : Bool :=
  let entry := scope.entersDirty isReachable dirt.exits b
  decide (b.block ∈ dirt.entries) == entry && decide (b.block ∈ dirt.exits) == (entry || b.hasCall)

/-- Visit blocks in order, and tell whether a visit has changed anything. -/
def sweep (scope : CheckScope) (isReachable : BlockId → Bool) :
    List DominatedBlock → Dirt → Dirt × Bool
  | [], dirt => (dirt, false)
  | b :: rest, dirt =>
    let (swept, changed) := scope.sweep isReachable rest (scope.visit isReachable dirt b)
    (swept, !scope.isSettled isReachable dirt b || changed)

/-- Sweep the region until nothing changes, at most as often as the number says. -/
def settle (scope : CheckScope) (isReachable : BlockId → Bool) : Nat → Dirt → Dirt
  | 0, dirt => dirt
  | rounds + 1, dirt =>
    let (swept, changed) := scope.sweep isReachable scope.region dirt
    if changed then scope.settle isReachable rounds swept else swept

/-- What is dirty in the end. A sweep that changes something finds more dirt, and there are only two
places for it in each block. -/
def dirt (scope : CheckScope) (isReachable : BlockId → Bool) : Dirt :=
  scope.settle isReachable (2 * scope.region.length + 1) {}

/-- The blocks of the region that are entered only by edges that no call precedes. -/
def cleanEntries (scope : CheckScope) (isReachable : BlockId → Bool) : List BlockId :=
  let dirty := (scope.dirt isReachable).entries
  (scope.region.map DominatedBlock.block).filter (· ∉ dirty)

end CheckScope

namespace Function

/-- The blocks around a check. There is no answer if control may move to a missing block. -/
def checkScope? (f : Function) (tree : DominatorTree) (opaqueCalls : Bool) (origin : BlockId)
    (check : ValueId) : Option CheckScope := do
  let nodes ← f.flowGraph.bfs origin.index
  let region := (nodes.filter (tree.strictlyDominates origin.index)).map BlockId.mk
  return {
    origin := origin
    originDirty := opaqueCalls && (f.programInstsAfter origin check).any f.isCall
    region := region.map fun block =>
      ⟨block, f.predecessors block, opaqueCalls && (f.programInsts block).any f.isCall⟩ }

/-- Where the accesses stand that a check covers in dominated blocks. -/
def searchedInDominated? (f : Function) (tree : DominatorTree) (opaqueCalls : Bool)
    (check : ValueId) : Option (List ValueId) :=
  match f.inst? check with
  | some inst => do
    let scope ← f.checkScope? tree opaqueCalls inst.block check
    let entries := scope.cleanEntries fun block => tree.isReachable block.index
    return entries.flatMap fun block => f.beforeCall opaqueCalls (f.programInsts block)
  | none => some []

end Function

end PointerGuard
