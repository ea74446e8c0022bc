import PointerGuard.Propagation

/-!
# Creating metadata

The first pass over a function. It loads the metadata of the parameters, then
goes through the instructions of the program in breadth-first order of the blocks
and creates the metadata of each; an instruction whose operand has none yet is
deferred. Last, the key of the frame is released before every return.
-/

namespace PointerGuard

/-- The return that ends a block, if it is one. -/
def Function.returnOf? (f : Function) (block : BlockId) : Option ValueId := do
  let last ← f.terminator? block
  let kind ← f.kind? last
  if kind.isReturn then some last else none

namespace Weaving

/-- Create the metadata of an instruction, or defer it. -/
def propagateOrDefer (env : Env) (id : ValueId) : Edit Weaving Unit := do
  unless ← propagate env id do
    modify fun s => { s with deferred := s.deferred ++ [id] }
    count fun r => { r with deferred := r.deferred + 1 }

/-- Release the key of the frame before every reachable return. -/
def releaseFrameKey (env : Env) : Edit Weaving Unit := do
  let s ← get
  if let some frameKey := s.frameKey then
    let returns := (s.func.blockIds.filter env.isReachable).filterMap s.func.returnOf?
    returns.forM fun ret =>
      splice (.before ret) do
        let _ ← env.routines.call .stackDeallocation [frameKey.key]

/-- The first pass: metadata for the parameters and, along the blocks, for all pointers whose
operands have theirs. -/
def createMetadata (env : Env) : Edit Weaving Unit := do
  loadParameters env
  forProgramInsts (← bfsBlocks) (propagateOrDefer env)
  releaseFrameKey env

end Weaving

end PointerGuard
