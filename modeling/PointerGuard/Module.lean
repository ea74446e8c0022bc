import PointerGuard.Edit
import PointerGuard.Function
import PointerGuard.Layout

/-!
# Modules

A module is a table of globals, a table of functions with different names, and the functions to run
before the program starts. The operations on it are edits: a failed one keeps what it has done so
far.
-/

namespace PointerGuard

/-- A global variable. -/
structure Global where
  /-- Its handle. -/
  id : GlobalId
  /-- Its name. -/
  name : String
  /-- The type of its value. -/
  valueType : Ty
  /-- Its initial value; none if it is defined elsewhere. -/
  initializer : Option Constant
  /-- Whether it never changes. -/
  constant : Bool
  deriving DecidableEq, Repr, Inhabited

namespace Global

/-- Is the global defined elsewhere? -/
def isExternal (g : Global) : Bool := g.initializer.isNone

/-- The type of the address. -/
def pointerType (g : Global) : Ty := .ptr g.valueType

/-- The address. -/
def address (g : Global) : Constant := .global g.id g.pointerType

end Global

/-- A module. -/
structure Module where
  /-- Its name. -/
  name : String
  /-- The width of pointers on its target. -/
  width : PointerWidth
  /-- Its globals. -/
  globals : Array Global := #[]
  /-- Its functions. -/
  functions : Array Function := #[]
  /-- The functions to run before the program starts, in order. -/
  constructors : List FuncId := []
  deriving DecidableEq, Repr, Inhabited

namespace Module

/-! ### Lookups -/

/-- The global with an identifier. -/
def global (m : Module) (id : GlobalId) : Except Error Global :=
  match m.globals[id.index]? with
  | some g => .ok g
  | none => .error (.unknownGlobal id)

/-- The function with an identifier. -/
def function (m : Module) (id : FuncId) : Except Error Function :=
  match m.functions[id.index]? with
  | some f => .ok f
  | none => .error (.unknownFunction id)

/-- The address of a global. -/
def globalAddress (m : Module) (id : GlobalId) : Except Error Constant :=
  (m.global id).map Global.address

/-- The address of a function. -/
def functionAddress (m : Module) (id : FuncId) : Except Error Constant :=
  (m.function id).map fun f => .func id f.pointerType

/-- The first global of a name. -/
def globalNamed? (m : Module) (name : String) : Option GlobalId :=
  (m.globals.find? (·.name = name)).map Global.id

/-- The first function of a name. -/
def functionNamed? (m : Module) (name : String) : Option FuncId :=
  (m.functions.find? (·.name = name)).map Function.id

/-- The function that comes next. -/
def nextFunction (m : Module) : FuncId := ⟨m.functions.size⟩

/-- The handle a declaration of a name will give. -/
def handleFor (m : Module) (name : String) : FuncId :=
  (m.functionNamed? name).getD m.nextFunction

/-! ### Changes -/

/-- Put a function in place of the one that has a handle. -/
def setFunction (m : Module) (id : FuncId) (f : Function) : Module :=
  { m with functions := m.functions.setIfInBounds id.index f }

/-- Add a global. -/
def addGlobal (m : Module) (name : String) (valueType : Ty) (initializer : Option Constant)
    (constant : Bool) : Module × GlobalId :=
  let id : GlobalId := ⟨m.globals.size⟩
  ({ m with globals := m.globals.push ⟨id, name, valueType, initializer, constant⟩ }, id)

/-- Edit one function of the module. -/
def onFunction (id : FuncId) (edit : Edit Function α) : Edit Module α := do
  let m ← get
  let f ← Edit.ofExcept (m.function id)
  let (outcome, f) := edit.apply f
  set (m.setFunction id f)
  Edit.ofExcept outcome

/-- Declare a function. A name that is declared already must have the same signature. -/
def declare (name : String) (sig : Signature) : Edit Module FuncId := do
  let m ← get
  match m.functionNamed? name with
  | some id =>
    let f ← Edit.ofExcept (m.function id)
    if f.signature = sig then
      return id
    else
      throw (.invalidIr (.redeclared name sig f.signature))
  | none =>
    let id := m.nextFunction
    set { m with functions := m.functions.push (.declaration id name sig) }
    return id

/-- Give a function another name, which no other function may have. -/
def rename (id : FuncId) (name : String) : Edit Module Unit := do
  let m ← get
  match m.functionNamed? name with
  | some other =>
    unless other = id do
      throw (.invalidIr (.nameTaken name))
  | none => pure ()
  onFunction id (modify fun f => { f with name := name })

/-- Run a function before the program starts. -/
def addConstructor (id : FuncId) : Edit Module Unit := do
  let m ← get
  let _ ← Edit.ofExcept (m.function id)
  unless id ∈ m.constructors do
    set { m with constructors := m.constructors ++ [id] }

/-- Add to the flags of a function, and give all its flags. -/
def addFlags (id : FuncId) (flags : FunctionFlags) : Edit Module FunctionFlags :=
  onFunction id do
    modify fun f => { f with flags := f.flags.union flags }
    return (← get).flags

end Module

end PointerGuard
