import PointerGuard.Interface
import PointerGuard.Metadata

/-!
# Metadata of constants

The metadata of a pointer constant follows from the constant alone:

* null, undefined and zero pointers, and integers taken as addresses, point nowhere;
* the address of a global that is defined here covers exactly that global;
* other globals and all functions may be used without limit;
* addresses computed from a constant, and casts that keep its bits, have its metadata.
-/

namespace PointerGuard

/-- The lock of a constant. -/
inductive ConstLock where
  /-- The null lock. -/
  | null
  /-- The lock of all globals and functions. -/
  | global
  deriving DecidableEq, Repr

/-- Metadata of a pointer constant, its lock not yet an operand. -/
structure FoldedMetadata where
  /-- The base, an `i8*` constant. -/
  base : Constant
  /-- The bound, an `i8*` constant. -/
  bound : Constant
  /-- The key. -/
  key : Int
  /-- The lock. -/
  lock : ConstLock
  deriving DecidableEq, Repr

namespace FoldedMetadata

/-- The metadata of a pointer to nothing. -/
def null : FoldedMetadata := ⟨.nullVoidPtr, .nullVoidPtr, 0, .null⟩

/-- The bound that no address reaches: all bits set. -/
def infiniteBound (w : PointerWidth) : Constant :=
  .cast .intToPtr (.int w.bits (-1)) .voidPtr

/-- Metadata that allows every access, for ever. -/
def unbounded (w : PointerWidth) : FoldedMetadata := ⟨.nullVoidPtr, infiniteBound w, 1, .global⟩

/-- The metadata of a global at an address: from the address up to one value further on. -/
def ofGlobal (w : PointerWidth) (address : Constant) : FoldedMetadata where
  base := address.asVoidPtr
  bound := (Constant.gep address [.int w.bits 1] address.ty).asVoidPtr
  key := 1
  lock := .global

/-- Is the lock the one of all globals? -/
def needsGlobalLock (md : FoldedMetadata) : Bool := md.lock = .global

/-- The metadata as operands, in the halves that are asked for. -/
def materialize (md : FoldedMetadata) (w : PointerWidth) (spatial temporal : Bool)
    (globalLock : Operand) : PointerMetadata where
  spatial := if spatial then some ⟨.const md.base, .const md.bound⟩ else none
  temporal :=
    if temporal then
      some ⟨.const (keyConstant w md.key),
        match md.lock with
        | .null => .const .nullVoidPtr
        | .global => globalLock⟩
    else none

end FoldedMetadata

/-- The metadata of a pointer constant. A pointer into a global has the bounds of the global. -/
def Constant.fold (i : Interface) : Constant → Except Error FoldedMetadata
  | .null t => if t.isPointer then .ok .null else .error (.breach (.notPointerConstant (.null t)))
  | .undef t => if t.isPointer then .ok .null else .error (.breach (.notPointerConstant (.undef t)))
  | .zero t => if t.isPointer then .ok .null else .error (.breach (.notPointerConstant (.zero t)))
  | .global id t => do
    if (← i.global id).external then
      return .unbounded i.width
    else
      return .ofGlobal i.width (.global id t)
  | .func .. => .ok (.unbounded i.width)
  | .gep base _ _ => base.fold i
  | .cast .bitcast value _ => value.fold i
  | .cast .intToPtr _ _ => .ok .null
  | .cast .ptrToInt value t => .error (.breach (.notPointerConstant (.cast .ptrToInt value t)))
  | .int bits value => .error (.breach (.notPointerConstant (.int bits value)))
  | .aggregate t elements => .error (.breach (.notPointerConstant (.aggregate t elements)))

end PointerGuard
