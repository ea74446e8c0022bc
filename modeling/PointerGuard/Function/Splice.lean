import PointerGuard.Edit
import PointerGuard.Function

/-!
# Splicing instructions in

A splice is a place in a block at which instructions are inserted one after another. Each insertion
moves the place behind it, and everything inserted is marked.
-/

namespace PointerGuard

namespace Function

/-- The block and position an insert point names. An instruction counts as being where it says it
is, provided it is listed there. -/
def locate? (f : Function) : InsertPoint → Option (BlockId × Nat)
  | .before anchor => do
    let inst ← f.inst? anchor
    let position ← (f.instsOf inst.block).idxOf? anchor
    return (inst.block, position)
  | .after anchor => do
    let inst ← f.inst? anchor
    let position ← (f.instsOf inst.block).idxOf? anchor
    return (inst.block, position + 1)
  | .afterPhis id => do
    let block ← f.block? id
    let isPhi id := match f.kind? id with
      | some kind => kind.isPhi
      | none => false
    return (id, (block.insts.takeWhile isPhi).length)
  | .prologue => do
    let entry ← f.entryId?
    let block ← f.block? entry
    return (entry, (block.insts.takeWhile (!f.isProgramInst ·)).length)
  | .beforeTerminator id => do
    let block ← f.block? id
    return (id, if (f.terminator? id).isSome then block.insts.length - 1 else block.insts.length)

/-- The block and position an insert point names; an error if it names none. -/
def locate (f : Function) (point : InsertPoint) : Except Error (BlockId × Nat) :=
  match f.locate? point with
  | some place => .ok place
  | none => .error (.invalidIr (.noInsertPoint point f.name))

end Function

/-- A function with a place in one of its blocks. -/
structure Splice where
  /-- The function, with what has been inserted so far. -/
  func : Function
  /-- The block instructions go into. -/
  block : BlockId
  /-- The position the next instruction will have. -/
  position : Nat
  deriving Repr

namespace Splice

/-- Insert an instruction whose result has a type. -/
def insert (kind : InstKind) (ty : Ty) : Edit Splice ValueId := do
  let s ← get
  set { s with
    func := s.func.insertAt s.block s.position kind ty
    position := s.position + 1 }
  return s.func.nextValue

/-- The type of an operand in the function that is edited. -/
def operandType (operand : Operand) : Edit Splice Ty := do
  Edit.ofExcept ((← get).func.operandType operand)

/-- Insert the computation of an address. -/
def gep (base : Operand) (indices : List Operand) (ty : Ty) : Edit Splice ValueId :=
  insert (.gep base indices) ty

/-- Insert a cast to another pointer type. -/
def bitcast (value : Operand) (ty : Ty) : Edit Splice ValueId :=
  insert (.cast .bitcast value) ty

/-- A pointer as an `i8*`. An instruction is inserted only for a value of another pointer type;
constants are cast as constants. -/
def toVoidPtr (value : Operand) : Edit Splice Operand := do
  let ty ← operandType value
  unless ty.isPointer do
    throw (.invalidIr (.notPointer ty value))
  if ty.isVoidPtr then
    return value
  match value with
  | .const (.null _) => return .const .nullVoidPtr
  | .const c => return .const (.cast .bitcast c .voidPtr)
  | .value _ => return .value (← bitcast value .voidPtr)

/-- Insert a choice between two values. -/
def select (cond ifTrue ifFalse : Operand) : Edit Splice ValueId := do
  insert (.select cond ifTrue ifFalse) (← operandType ifTrue)

/-- Insert a phi that has no edges yet. -/
def phi (ty : Ty) : Edit Splice ValueId := insert (.phi []) ty

/-- Insert a call. -/
def call (callee : Operand) (sig : Signature) (args : List Operand) : Edit Splice ValueId :=
  insert (.call callee args sig) sig.ret

/-- Insert the extraction of a part of an aggregate. -/
def extract (aggregate : Operand) (index : Nat) : Edit Splice ValueId := do
  match (← operandType aggregate).element? index with
  | some ty => insert (.extract aggregate index) ty
  | none => throw (.invalidIr (.extractIndex index))

end Splice

/-- Insert instructions at one place of a function. What was inserted stays when an insertion
fails. -/
def Function.splice (point : InsertPoint) (body : Edit Splice α) : Edit Function α := do
  let f ← get
  let (block, position) ← Edit.ofExcept (f.locate point)
  let (outcome, s) := body.apply ⟨f, block, position⟩
  set s.func
  Edit.ofExcept outcome

end PointerGuard
