import PointerGuard.Handle
import PointerGuard.Ty

/-!
# Constants

The values known before the program runs: literals, addresses of globals and
functions, aggregates of constants, and addresses and casts computed from
constants.
-/

namespace PointerGuard

/-- A change of type that keeps or reinterprets the bits of a value. -/
inductive CastOp where
  /-- The same bits at another type. -/
  | bitcast
  /-- An integer taken as an address. -/
  | intToPtr
  /-- An address taken as an integer. -/
  | ptrToInt
  deriving DecidableEq, Repr

/-- The word for a cast in written programs. -/
def CastOp.mnemonic : CastOp → String
  | .bitcast => "bitcast"
  | .intToPtr => "inttoptr"
  | .ptrToInt => "ptrtoint"

/-- A constant. -/
inductive Constant where
  /-- The null pointer. -/
  | null (ty : Ty)
  /-- Any value at all. -/
  | undef (ty : Ty)
  /-- All bits zero. -/
  | zero (ty : Ty)
  /-- An integer of a number of bits. -/
  | int (bits : Nat) (value : Int)
  /-- The address of a global. -/
  | global (id : GlobalId) (ty : Ty)
  /-- The address of a function. -/
  | func (id : FuncId) (ty : Ty)
  /-- The parts of an aggregate, in order. -/
  | aggregate (ty : Ty) (elements : List Constant)
  /-- The address reached from a base along a path of indices. -/
  | gep (base : Constant) (indices : List Constant) (ty : Ty)
  /-- A constant at another type. -/
  | cast (op : CastOp) (value : Constant) (ty : Ty)
  deriving Repr, Inhabited

namespace Constant

/-! ### Equality -/

mutual

/-- Equality of constants, decided by their shape. -/
def decEq : (c d : Constant) → Decidable (c = d)
  | .null s, d => match d with
    | .null t => decidable_of_iff (s = t) (by simp)
    | .undef _ | .zero _ | .int .. | .global .. | .func .. | .aggregate .. | .gep .. | .cast .. =>
      isFalse nofun
  | .undef s, d => match d with
    | .undef t => decidable_of_iff (s = t) (by simp)
    | .null _ | .zero _ | .int .. | .global .. | .func .. | .aggregate .. | .gep .. | .cast .. =>
      isFalse nofun
  | .zero s, d => match d with
    | .zero t => decidable_of_iff (s = t) (by simp)
    | .null _ | .undef _ | .int .. | .global .. | .func .. | .aggregate .. | .gep .. | .cast .. =>
      isFalse nofun
  | .int m v, d => match d with
    | .int n w => decidable_of_iff (m = n ∧ v = w) (by simp)
    | .null _ | .undef _ | .zero _ | .global .. | .func .. | .aggregate .. | .gep .. | .cast .. =>
      isFalse nofun
  | .global g s, d => match d with
    | .global h t => decidable_of_iff (g = h ∧ s = t) (by simp)
    | .null _ | .undef _ | .zero _ | .int .. | .func .. | .aggregate .. | .gep .. | .cast .. =>
      isFalse nofun
  | .func f s, d => match d with
    | .func g t => decidable_of_iff (f = g ∧ s = t) (by simp)
    | .null _ | .undef _ | .zero _ | .int .. | .global .. | .aggregate .. | .gep .. | .cast .. =>
      isFalse nofun
  | .aggregate s cs, d => match d with
    | .aggregate t ds => match decEqList cs ds with
      | isTrue h => decidable_of_iff (s = t) (by simp [h])
      | isFalse h => isFalse fun e => h (Constant.aggregate.inj e).2
    | .null _ | .undef _ | .zero _ | .int .. | .global .. | .func .. | .gep .. | .cast .. =>
      isFalse nofun
  | .gep b is s, d => match d with
    | .gep c js t => match decEq b c, decEqList is js with
      | isTrue h, isTrue k => decidable_of_iff (s = t) (by simp [h, k])
      | isFalse h, _ => isFalse fun e => h (Constant.gep.inj e).1
      | _, isFalse h => isFalse fun e => h (Constant.gep.inj e).2.1
    | .null _ | .undef _ | .zero _ | .int .. | .global .. | .func .. | .aggregate .. | .cast .. =>
      isFalse nofun
  | .cast o c s, d => match d with
    | .cast p e t => match decEq c e with
      | isTrue h => decidable_of_iff (o = p ∧ s = t) (by simp [h])
      | isFalse h => isFalse fun e => h (Constant.cast.inj e).2.1
    | .null _ | .undef _ | .zero _ | .int .. | .global .. | .func .. | .aggregate .. | .gep .. =>
      isFalse nofun

/-- Equality of lists of constants, member by member. -/
def decEqList : (cs ds : List Constant) → Decidable (cs = ds)
  | [], [] => isTrue rfl
  | [], _ :: _ => isFalse nofun
  | _ :: _, [] => isFalse nofun
  | c :: cs, d :: ds => match decEq c d, decEqList cs ds with
    | isTrue h, isTrue k => isTrue (by rw [h, k])
    | isFalse h, _ => isFalse fun e => h (List.cons.inj e).1
    | _, isFalse h => isFalse fun e => h (List.cons.inj e).2

end

instance : DecidableEq Constant := decEq

/-! ### Common constants -/

/-- The null pointer of type `voidPtr`. -/
def nullVoidPtr : Constant := .null .voidPtr

/-! ### Queries -/

/-- The type of a constant. -/
def ty : Constant → Ty
  | .null t | .undef t | .zero t | .global _ t | .func _ t | .aggregate t _ | .gep _ _ t
  | .cast _ _ t => t
  | .int bits _ => .int bits

/-- The constant as an `i8*`, cast only if it is not one. -/
def asVoidPtr (c : Constant) : Constant :=
  if c.ty.isVoidPtr then c else .cast .bitcast c .voidPtr

/-- The value of an integer. -/
def asInt? : Constant → Option Int
  | .int _ value => some value
  | _ => none

/-- Part `index` of an aggregate. The parts of a zero or undefined aggregate are zero or
undefined. -/
def element? : Constant → Nat → Option Constant
  | .aggregate _ elements, index => elements[index]?
  | .zero t, index => (t.element? index).map .zero
  | .undef t, index => (t.element? index).map .undef
  | _, _ => none

/-! ### Redirecting functions -/

mutual

/-- Replace the functions that `map` maps, at any depth, and count them. A replaced address
keeps its type. -/
def redirect (map : FuncId → Option FuncId) : Constant → Constant × Nat
  | .func id t =>
    match map id with
    | some target => (.func target t, 1)
    | none => (.func id t, 0)
  | .aggregate t elements =>
    let (elements, n) := redirectAll map elements
    (.aggregate t elements, n)
  | .gep base indices t =>
    let (base, m) := redirect map base
    let (indices, n) := redirectAll map indices
    (.gep base indices t, m + n)
  | .cast op value t =>
    let (value, n) := redirect map value
    (.cast op value t, n)
  | .null t => (.null t, 0)
  | .undef t => (.undef t, 0)
  | .zero t => (.zero t, 0)
  | .int bits value => (.int bits value, 0)
  | .global id t => (.global id t, 0)

/-- Replace functions in every constant of a list, and count them all. -/
def redirectAll (map : FuncId → Option FuncId) : List Constant → List Constant × Nat
  | [] => ([], 0)
  | c :: cs =>
    let (c, m) := redirect map c
    let (cs, n) := redirectAll map cs
    (c :: cs, m + n)

end

/-! ### Written form -/

mutual

/-- The constant as it is written. -/
def text : Constant → String
  | .null t => t.text ++ " null"
  | .undef t => t.text ++ " undef"
  | .zero t => t.text ++ " zeroinitializer"
  | .int bits value => "i" ++ toString bits ++ " " ++ toString value
  | .global id t => t.text ++ " @g" ++ toString id.index
  | .func id t => t.text ++ " @f" ++ toString id.index
  | .aggregate t elements => t.text ++ " [" ++ ", ".intercalate (texts elements) ++ "]"
  | .gep base indices t =>
    t.text ++ " getelementptr (" ++ ", ".intercalate (base.text :: texts indices) ++ ")"
  | .cast op value t => op.mnemonic ++ " (" ++ value.text ++ " to " ++ t.text ++ ")"

/-- The constants of a list as they are written. -/
def texts : List Constant → List String
  | [] => []
  | c :: cs => c.text :: texts cs

end

instance : ToString Constant := ⟨text⟩

end Constant

end PointerGuard
