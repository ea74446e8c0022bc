import PointerGuard.Routine

/-!
# The interface of a module

What instrumentation of one function may know about the rest of the module: of functions their
names, signatures, flags and whether they have a body, and of globals their names, types and whether
they are defined here.
-/

namespace PointerGuard

/-- What is known of a function. -/
structure CalleeInfo where
  /-- Its name. -/
  name : String
  /-- What it takes and returns. -/
  signature : Signature
  /-- Its role. -/
  flags : FunctionFlags
  /-- Whether it has no body. -/
  isDeclaration : Bool
  deriving DecidableEq, Repr

/-- Do calls of the function pass metadata? Those of functions with a body and of wrappers do; those
of runtime routines, of intrinsics and of other external functions do not. -/
def CalleeInfo.isInstrumented (info : CalleeInfo) : Bool :=
  if info.flags.runtime then false
  else if info.flags.wrapper then true
  else !info.isDeclaration && !isIntrinsic info.name

/-- What is known of a global. -/
structure GlobalInfo where
  /-- Its name. -/
  name : String
  /-- The type of its value. -/
  valueType : Ty
  /-- Whether it is defined elsewhere. -/
  external : Bool
  deriving DecidableEq, Repr

/-- What is known of a module. -/
structure Interface where
  /-- The width of pointers on its target. -/
  width : PointerWidth
  /-- Its functions. -/
  functions : Array CalleeInfo
  /-- Its globals. -/
  globals : Array GlobalInfo
  deriving DecidableEq, Repr

/-- The interface of a module as it is now. -/
def Module.interface (m : Module) : Interface where
  width := m.width
  functions := m.functions.map fun f => ⟨f.name, f.signature, f.flags, f.isDeclaration⟩
  globals := m.globals.map fun g => ⟨g.name, g.valueType, g.isExternal⟩

/-- The function whose address a constant is, possibly at another type. -/
def Constant.directCallee? : Constant → Option FuncId
  | .func id _ => some id
  | .cast .bitcast value _ => value.directCallee?
  | _ => none

/-- The function a callee names. -/
def Operand.directCallee? (callee : Operand) : Option FuncId :=
  callee.const?.bind Constant.directCallee?

namespace Interface

/-- What is known of a function. -/
def callee (i : Interface) (id : FuncId) : Except Error CalleeInfo :=
  match i.functions[id.index]? with
  | some info => .ok info
  | none => .error (.unknownFunction id)

/-- What is known of a global. -/
def global (i : Interface) (id : GlobalId) : Except Error GlobalInfo :=
  match i.globals[id.index]? with
  | some info => .ok info
  | none => .error (.unknownGlobal id)

/-- What is known of the function a callee names. -/
def calleeInfo? (i : Interface) (callee : Operand) : Option CalleeInfo :=
  callee.directCallee?.bind fun id => i.functions[id.index]?

/-- The name of the function a callee names. -/
def calleeName? (i : Interface) (callee : Operand) : Option String :=
  (i.calleeInfo? callee).map CalleeInfo.name

/-- Does a call pass metadata? One through a value is taken to reach instrumented code; one through
a constant that names no function is not. -/
def isInstrumentedCall (i : Interface) (callee : Operand) : Bool :=
  match callee with
  | .value _ => true
  | .const _ =>
    match i.calleeInfo? callee with
    | some info => info.isInstrumented
    | none => false

end Interface

end PointerGuard
