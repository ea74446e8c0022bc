/-!
# Types

First-class types with typed pointers: every pointer names the type it points
to, so the size of an access and the extent of an object can be read off a
type alone. `i8*` doubles as the untyped pointer in which all pointer metadata
travels. Function types occur only behind pointers.
-/

namespace PointerGuard

/-- A type of the program. -/
inductive Ty where
  /-- No value at all. -/
  | void
  /-- An integer of a number of bits. -/
  | int (bits : Nat)
  /-- A 32-bit float. -/
  | float
  /-- A 64-bit float. -/
  | double
  /-- A pointer to a value of a type. -/
  | ptr (pointee : Ty)
  /-- A number of elements of one type. -/
  | array (elem : Ty) (len : Nat)
  /-- Fields in order. -/
  | struct (fields : List Ty)
  /-- Code that takes parameters, and further arguments if `variadic`. -/
  | func (ret : Ty) (params : List Ty) (variadic : Bool)
  deriving Repr, Inhabited

/-- What a function takes and returns. -/
structure Signature where
  /-- The type of the result. -/
  ret : Ty
  /-- The types of the parameters, in order. -/
  params : List Ty
  /-- Whether arguments may follow those of the parameters. -/
  variadic : Bool := false
  deriving Repr, Inhabited

/-! ### Equality -/

namespace Ty

mutual

/-- Equality of types, decided by their shape. -/
def decEq : (s t : Ty) → Decidable (s = t)
  | .void, t => match t with
    | .void => isTrue rfl
    | .int _ | .float | .double | .ptr _ | .array .. | .struct _ | .func .. => isFalse nofun
  | .int m, t => match t with
    | .int n => decidable_of_iff (m = n) (by simp)
    | .void | .float | .double | .ptr _ | .array .. | .struct _ | .func .. => isFalse nofun
  | .float, t => match t with
    | .float => isTrue rfl
    | .void | .int _ | .double | .ptr _ | .array .. | .struct _ | .func .. => isFalse nofun
  | .double, t => match t with
    | .double => isTrue rfl
    | .void | .int _ | .float | .ptr _ | .array .. | .struct _ | .func .. => isFalse nofun
  | .ptr s, t => match t with
    | .ptr t => match decEq s t with
      | isTrue h => isTrue (h ▸ rfl)
      | isFalse h => isFalse fun e => h (Ty.ptr.inj e)
    | .void | .int _ | .float | .double | .array .. | .struct _ | .func .. => isFalse nofun
  | .array s m, t => match t with
    | .array t n => match decEq s t with
      | isTrue h => decidable_of_iff (m = n) (by simp [h])
      | isFalse h => isFalse fun e => h (Ty.array.inj e).1
    | .void | .int _ | .float | .double | .ptr _ | .struct _ | .func .. => isFalse nofun
  | .struct fs, t => match t with
    | .struct gs => match decEqList fs gs with
      | isTrue h => isTrue (h ▸ rfl)
      | isFalse h => isFalse fun e => h (Ty.struct.inj e)
    | .void | .int _ | .float | .double | .ptr _ | .array .. | .func .. => isFalse nofun
  | .func r ps v, t => match t with
    | .func s qs w => match decEq r s, decEqList ps qs with
      | isTrue h, isTrue k => decidable_of_iff (v = w) (by simp [h, k])
      | isFalse h, _ => isFalse fun e => h (Ty.func.inj e).1
      | _, isFalse h => isFalse fun e => h (Ty.func.inj e).2.1
    | .void | .int _ | .float | .double | .ptr _ | .array .. | .struct _ => isFalse nofun

/-- Equality of lists of types, member by member. -/
def decEqList : (ss ts : List Ty) → Decidable (ss = ts)
  | [], [] => isTrue rfl
  | [], _ :: _ => isFalse nofun
  | _ :: _, [] => isFalse nofun
  | s :: ss, t :: ts => match decEq s t, decEqList ss ts with
    | isTrue h, isTrue k => isTrue (by rw [h, k])
    | isFalse h, _ => isFalse fun e => h (List.cons.inj e).1
    | _, isFalse h => isFalse fun e => h (List.cons.inj e).2

end

instance : DecidableEq Ty := decEq

end Ty

deriving instance DecidableEq for Signature

/-! ### Common types -/

namespace Ty

/-- The type of pointers to bytes. -/
def voidPtr : Ty := .ptr (.int 8)

/-- The type of functions with a signature. -/
def ofSignature (sig : Signature) : Ty := .func sig.ret sig.params sig.variadic

/-- A pointer to code with a signature. -/
def functionPtr (sig : Signature) : Ty := .ptr (ofSignature sig)

/-! ### Queries -/

/-- Whether it is a pointer type. -/
def isPointer : Ty → Bool
  | .ptr _ => true
  | _ => false

/-- Whether it is an integer type. -/
def isInt : Ty → Bool
  | .int _ => true
  | _ => false

/-- Whether it is `void`. -/
def isVoid : Ty → Bool
  | .void => true
  | _ => false

theorem isVoid_of_isPointer {t : Ty} (h : t.isPointer) : t.isVoid = false := by
  cases t with
  | ptr => rfl
  | _ => cases h

/-- Whether it is `voidPtr`. -/
def isVoidPtr (t : Ty) : Bool := t = voidPtr

/-- What a pointer type points to. -/
def pointee? : Ty → Option Ty
  | .ptr t => some t
  | _ => none

/-- The signature of a function type or of a pointer to one. -/
def signature? : Ty → Option Signature
  | .func ret params variadic | .ptr (.func ret params variadic) => some ⟨ret, params, variadic⟩
  | _ => none

mutual

/-- Does a value of the type hold a pointer? Code behind a pointer does not count: the pointer
itself already does. -/
def containsPointer : Ty → Bool
  | .ptr _ => true
  | .array elem _ => elem.containsPointer
  | .struct fields => anyContainsPointer fields
  | .void | .int _ | .float | .double | .func .. => false

/-- Does any type of the list hold a pointer? -/
def anyContainsPointer : List Ty → Bool
  | [] => false
  | t :: ts => t.containsPointer || anyContainsPointer ts

end

/-- The type of part `index` of an aggregate. Every index names the element of an array, whatever
the array's length. -/
def element? : Ty → Nat → Option Ty
  | .array elem _, _ => some elem
  | .struct fields, index => fields[index]?
  | _, _ => none

end Ty

/-- The number of parameters that are pointers. -/
def Signature.pointerParamCount (sig : Signature) : Nat :=
  sig.params.countP Ty.isPointer

/-! ### Written form -/

namespace Ty

mutual

/-- The type as it is written. -/
def text : Ty → String
  | .void => "void"
  | .int bits => "i" ++ toString bits
  | .float => "float"
  | .double => "double"
  | .ptr pointee => pointee.text ++ "*"
  | .array elem len => "[" ++ toString len ++ " x " ++ elem.text ++ "]"
  | .struct fields => "\x7b " ++ ", ".intercalate (texts fields) ++ " \x7d"
  | .func ret params variadic =>
    ret.text ++ " (" ++
      ", ".intercalate (texts params ++ if variadic then ["..."] else []) ++ ")"

/-- The types of a list as they are written. -/
def texts : List Ty → List String
  | [] => []
  | t :: ts => t.text :: texts ts

end

instance : ToString Ty := ⟨text⟩

end Ty

/-- The signature as it is written: the result, then the parameters in parentheses. -/
def Signature.text (sig : Signature) : String := (Ty.ofSignature sig).text

instance : ToString Signature := ⟨Signature.text⟩

end PointerGuard
