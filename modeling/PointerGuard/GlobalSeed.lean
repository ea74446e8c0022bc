import PointerGuard.Config
import PointerGuard.ConstantMetadata
import PointerGuard.Draft

/-!
# Seeding the metadata of globals

A pointer that is loaded from memory has the metadata recorded for its place. For pointers in
initializers this is recorded before the program starts, by a constructor. Zero and undefined parts
need nothing: a place for which nothing is recorded counts as null.
-/

namespace PointerGuard

/-- A pointer in an initializer. -/
structure PointerField where
  /-- Where it lies, as an `i8*` constant. -/
  address : Constant
  /-- What it points to. -/
  value : Constant
  deriving DecidableEq, Repr

namespace PointerField

/-- The address of the part of a global that a path leads to. The whole global is its own part. -/
def addressOf (globalAddress : Constant) (path : List Nat) (ty : Ty) : Constant :=
  if path.isEmpty then globalAddress.asVoidPtr
  else
    let indices : List Constant := (0 :: path).map fun index => .int 32 (index : Nat)
    (Constant.gep globalAddress indices (.ptr ty)).asVoidPtr

/-- Is nothing recorded for the parts of this constant? -/
def isBlank : Constant → Bool
  | .zero _ | .undef _ => true
  | _ => false

/-- The elements an initializer of an array lists. -/
def elementsOf : Constant → List Constant
  | .aggregate _ elements => elements
  | _ => []

mutual

/-- The pointer fields of an initializer `value` of a type, at a path of a global. Only parts whose
type holds a pointer are looked at. -/
def collect (globalAddress : Constant) (path : List Nat) (value : Constant) :
    Ty → Except Error (List PointerField)
  | .ptr pointee =>
    if isBlank value then .ok []
    else .ok [⟨addressOf globalAddress path (.ptr pointee), value⟩]
  | .array elem len =>
    if isBlank value || !elem.containsPointer then .ok []
    else do
      let elements := (elementsOf value).take len
      let found ← elements.zipIdx.mapM fun (element, index) =>
        collect globalAddress (path ++ [index]) element elem
      if elements.length < len then
        throw (.invalidIr (.noElement value elements.length))
      return found.flatten
  | .struct members =>
    if isBlank value then .ok [] else collectMembers globalAddress path value 0 members
  | .void | .int _ | .float | .double | .func .. => .ok []

/-- The pointer fields of the members of a structure, the first of which has number `index`. -/
def collectMembers (globalAddress : Constant) (path : List Nat) (value : Constant) (index : Nat) :
    List Ty → Except Error (List PointerField)
  | [] => .ok []
  | member :: members =>
    if member.containsPointer then
      match value.element? index with
      | none => .error (.invalidIr (.noElement value index))
      | some element => do
        let here ← collect globalAddress (path ++ [index]) element member
        let rest ← collectMembers globalAddress path value (index + 1) members
        return here ++ rest
    else
      collectMembers globalAddress path value (index + 1) members

end

end PointerField

namespace Module

/-- The pointers in the initializer of a global, if it has one. -/
def pointerFieldsOf (g : Global) : Except Error (List PointerField) :=
  match g.initializer with
  | none => .ok []
  | some init => PointerField.collect g.address [] init g.valueType

/-- The pointer fields of all globals, in order. -/
def pointerFields (m : Module) : Except Error (List PointerField) :=
  (m.globals.toList.mapM pointerFieldsOf).map List.flatten

/-- Insert the recording of one field into the constructor. -/
def seedField (i : Interface) (routines : RoutineTable) (config : Config) (lock : Operand)
    (field : PointerField) : Edit Splice Unit := do
  let folded ← Edit.ofExcept (field.value.fold i)
  let md := folded.materialize i.width config.spatialSafety config.temporalSafety lock
  let _ ← routines.call .metadataStore
    [.const field.address, md.baseOrNull, md.boundOrNull, md.keyOrZero i.width, md.lockOrNull]

/-- Insert the recording of all fields into the constructor. The lock of globals is asked for only
if keys are tracked. -/
def seedFields (i : Interface) (routines : RoutineTable) (config : Config)
    (fields : List PointerField) : Edit Splice Unit := do
  let lock ←
    if config.temporalSafety then
      Operand.value <$> routines.call .globalLock []
    else
      pure (.const .nullVoidPtr)
  fields.forM (seedField i routines config lock)

/-- Make the constructor that records the metadata of pointers in initializers, and give their
number. Nothing is made if there are none. -/
def seedGlobals (routines : RoutineTable) (config : Config) : Edit Module Nat := do
  let m ← get
  let fields ← Edit.ofExcept m.pointerFields
  if fields.isEmpty then
    return 0
  let (id, _) ← Module.define globalInit { ret := .void, params := [] } [.inst 0 (.ret none)]
  Module.addConstructor id
  let _ ← Module.addFlags id { synthetic := true, constructor := true }
  Module.onFunction id
    (Function.splice (.beforeTerminator ⟨0⟩) (seedFields m.interface routines config fields))
  return fields.length

end Module

end PointerGuard
