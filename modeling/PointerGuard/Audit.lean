import PointerGuard.Weave

/-!
# Audit of metadata

After propagation every reachable pointer has to have metadata. The audit finds
the first one that was missed.
-/

namespace PointerGuard

/-- The pointers that have to have metadata: parameters, and instructions of the program in
reachable blocks. -/
def Env.auditedValues (env : Env) (f : Function) : List ValueId :=
  (f.params ++ (f.blockIds.filter env.isReachable).flatMap f.programInsts).filter f.isPointerValue

/-- Make sure that every pointer has metadata. -/
def Weaving.auditMetadata (env : Env) : Edit Weaving Unit := do
  let s ← get
  match (env.auditedValues s.func).find? (!s.store.has ·) with
  | some id => throw (.missingMetadata s.func.name id)
  | none => return

end PointerGuard
