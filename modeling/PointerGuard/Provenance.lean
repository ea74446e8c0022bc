import PointerGuard.Interface

/-!
# Provenance of pointers

Addresses are computed and cast from other pointers. The source of a pointer is
what is left when all of these derivations are taken away; pointers with one
source point into one allocation. If every derivation moves the pointer by a
known distance and the source is an object of known size, the extent of the
pointer says how large the object is and how far into it the pointer lies.

A pointer whose derivation leads back to itself has neither.
-/

namespace PointerGuard

/-! ### Sources -/

/-- A constant without the computations and casts around it. -/
def Constant.source : Constant → Constant
  | .gep base _ _ => base.source
  | .cast .bitcast value _ => value.source
  | c => c

namespace Function

/-- What a value is derived from by an address computation or a cast that keeps the bits. -/
def derivedFrom? (f : Function) (id : ValueId) : Option Operand :=
  match f.kind? id with
  | some (.gep base _) => some base
  | some (.cast .bitcast value) => some value
  | _ => none

/-- The source of a pointer, following at most as many values as the first argument says. -/
def sourceWithin (f : Function) : Nat → Operand → Option Operand
  | _, .const c => some (.const c.source)
  | 0, .value _ => none
  | fuel + 1, .value id =>
    match f.derivedFrom? id with
    | some next => f.sourceWithin fuel next
    | none => some (.value id)

/-- The source of a pointer. A derivation that does not come back to a value follows each value of
the function at most once, and may end in a value of another. -/
def source? (f : Function) (ptr : Operand) : Option Operand :=
  f.sourceWithin (f.values.size + 1) ptr

end Function

/-! ### Extents -/

/-- An object of known size and a place relative to its start. -/
structure Extent where
  /-- The size of the object in bytes. -/
  size : Nat
  /-- The distance from the start of the object, in bytes. -/
  offset : Int
  deriving DecidableEq, Repr

/-- Move a distance further along a path of known indices, within a signed word. -/
def advance? (w : PointerWidth) (offset : Int) (baseTy : Ty) (path : List (Option Int)) :
    Option Int := do
  let path ← path.mapM id
  let distance ← Layout.pathOffset? w (← baseTy.pointee?) path
  signedWord? (offset + distance)

/-- The extent of a constant that is to be moved by a distance. -/
def Constant.extent? (i : Interface) (offset : Int) : Constant → Option Extent
  | .global id _ =>
    match i.globals[id.index]? with
    | some info => if info.external then none else some ⟨Layout.size i.width info.valueType, offset⟩
    | none => none
  | .gep base indices _ => do
    let offset ← advance? i.width offset base.ty (indices.map Constant.asInt?)
    base.extent? i offset
  | .cast .bitcast value _ => value.extent? i offset
  | _ => none

namespace Function

/-- The size of a stack allocation of a known number of values; none if it does not fit a word. -/
def allocaSize? (w : PointerWidth) (allocated : Ty) (copies : Option Operand) : Option Nat := do
  let copies ← match copies with
    | none => some 1
    | some copies => copies.asInt?
  let total := Layout.size w allocated * copies.toNat
  if 0 ≤ copies ∧ total ≤ maxWord then some total else none

/-- The extent of a pointer that is to be moved by a distance, following at most as many values as
the first number says. -/
def extentWithin (f : Function) (i : Interface) : Nat → Int → Operand → Option Extent
  | _, offset, .const c => c.extent? i offset
  | 0, _, .value _ => none
  | fuel + 1, offset, .value id =>
    match f.kind? id with
    | some (.gep base indices) => do
      let baseTy ← (f.operandType base).toOption
      let offset ← advance? i.width offset baseTy (indices.map Operand.asInt?)
      f.extentWithin i fuel offset base
    | some (.cast .bitcast value) => f.extentWithin i fuel offset value
    | some (.alloca allocated copies) => do
      return ⟨← allocaSize? i.width allocated copies, offset⟩
    | _ => none

/-- Where a pointer is known to point into an object of known size. -/
def extent? (f : Function) (i : Interface) (ptr : Operand) : Option Extent :=
  f.extentWithin i (f.values.size + 1) 0 ptr

/-! ### Sizes that extents rest on -/

/-- The type whose size is asked for to move along a path of known indices. -/
def strideType? (baseTy : Ty) (path : List (Option Int)) : Option Ty :=
  if path.isEmpty || path.contains none then none else baseTy.pointee?

end Function

/-- The types whose sizes are asked for to find the extent of a constant. -/
def Constant.measured (i : Interface) (offset : Int) : Constant → List Ty
  | .global id _ =>
    match i.globals[id.index]? with
    | some info => if info.external then [] else [info.valueType]
    | none => []
  | .gep base indices _ =>
    let path := indices.map Constant.asInt?
    (Function.strideType? base.ty path).toList ++
      match advance? i.width offset base.ty path with
      | some offset => base.measured i offset
      | none => []
  | .cast .bitcast value _ => value.measured i offset
  | _ => []

namespace Function

/-- The types whose sizes are asked for to find the extent of a pointer, following at most as many
values as the first number says. -/
def measuredWithin (f : Function) (i : Interface) : Nat → Int → Operand → List Ty
  | _, offset, .const c => c.measured i offset
  | 0, _, .value _ => []
  | fuel + 1, offset, .value id =>
    match f.kind? id with
    | some (.gep base indices) =>
      match f.operandType base with
      | .ok baseTy =>
        let path := indices.map Operand.asInt?
        (strideType? baseTy path).toList ++
          match advance? i.width offset baseTy path with
          | some offset => f.measuredWithin i fuel offset base
          | none => []
      | .error _ => []
    | some (.cast .bitcast value) => f.measuredWithin i fuel offset value
    | some (.alloca allocated copies) =>
      if copies.all fun copies => copies.asInt?.any (0 ≤ ·) then [allocated] else []
    | _ => []

/-- A type that no word can hold the size of, and whose size is asked for to find the extent of a
pointer. -/
def oversized? (f : Function) (i : Interface) (ptr : Operand) : Option Ty :=
  (f.measuredWithin i (f.values.size + 1) 0 ptr).find? fun ty =>
    (Layout.wordSize? i.width ty).isNone

/-- Do so many bytes at a pointer lie inside an object of known size? -/
def provenInBounds (f : Function) (i : Interface) (ptr : Operand) (bytes : Nat) : Bool :=
  match f.extent? i ptr with
  | some extent => 0 ≤ extent.offset && extent.offset.toNat + bytes ≤ extent.size
  | none => false

end Function

end PointerGuard
