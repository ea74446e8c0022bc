import PointerGuard.Audit
import PointerGuard.Checks
import PointerGuard.Function.Verify
import PointerGuard.GlobalSeed
import PointerGuard.Propagation.Create
import PointerGuard.Propagation.Resolve
import PointerGuard.Wrapping

/-!
# Instrumentation of a module

First the module is prepared: the runtime is declared, library calls are redirected to wrappers,
`main` is renamed, and the metadata of pointers in initializers is seeded. Then every function of
the program goes through the passes, and is verified.
-/

namespace PointerGuard

/-- Run a pass, and tell whether it may have changed the function. -/
def Weaving.runPass (env : Env) : Pass → Edit Weaving Bool
  | .create => do
    createMetadata env
    return true
  | .resolve => do
    resolveMetadata env
    return true
  | .audit => do
    auditMetadata env
    return false
  | .check => insertChecks env

namespace Function

/-- Is the function to be instrumented? It has a body, and the program wrote it. -/
def isTarget (f : Function) : Bool :=
  !f.isDeclaration && !(f.flags.runtime || f.flags.synthetic || f.flags.wrapper)

/-- The first block must not be a branch target, so that what is inserted at its top runs once. -/
def checkEntry (f : Function) : Except Error Unit :=
  match f.entryId? with
  | none => .error (.invalidIr (.noEntry f.name))
  | some entry =>
    if (f.predecessors entry).isEmpty then .ok ()
    else .error (.invalidIr (.entryReentered f.name))

end Function

namespace Module

/-- The functions to be instrumented, in order. -/
def targets (m : Module) : List FuncId :=
  (m.functions.toList.filter Function.isTarget).map Function.id

/-- Rename a `main` that has a body, and tell whether there was one. -/
def renameMain : Edit Module Bool := do
  let m ← get
  match m.functionNamed? "main" with
  | some id =>
    if (← Edit.ofExcept (m.function id)).isDeclaration then
      return false
    else
      Module.rename id pseudoMain
      return true
  | none => return false

/-- Edit a function as a weaving. What was done to the function stays, whatever the outcome. -/
def weave (id : FuncId) (store : Store) (edit : Edit Weaving α) :
    Edit Module (α × Store × FunctionReport) :=
  Module.onFunction id do
    let (outcome, s) := edit.apply (.start (← get) store)
    set s.func
    return (← Edit.ofExcept outcome, s.store, s.report)

/-- Instrument one function: check that it can be done, run the passes, verify. -/
def instrumentFunction (config : Config) (interface : Interface) (routines : RoutineTable)
    (store : Store) (id : FuncId) : Edit Module (Store × FunctionReport) := do
  let f ← Edit.ofExcept ((← get).function id)
  Edit.ofExcept f.checkEntry
  let dominators ← Edit.ofOption .danglingEdge f.dominators?
  let env : Env := ⟨config, interface, routines, dominators⟩
  let (_, store, report) ← weave id store (config.pipeline.mapM (Weaving.runPass env))
  if config.verifyOutput then
    Edit.ofExcept ((← get).function id >>= Function.verify)
  return (store, report)

/-- Instrument functions one after another. They share one store of metadata. -/
def instrumentAll (config : Config) (interface : Interface) (routines : RoutineTable) :
    Store → List FuncId → Edit Module (List FunctionReport)
  | _, [] => return []
  | store, id :: rest => do
    let (store, report) ← instrumentFunction config interface routines store id
    let reports ← instrumentAll config interface routines store rest
    return report :: reports

/-- Instrument a module: prepare it, then weave metadata and checks into each target. -/
def instrument (config : Config) : Edit Module Report := do
  Edit.ofExcept config.validate
  let targets := (← get).targets
  let routines ← RoutineTable.declare
  let wrapped ← if config.wrapLibraryCalls then wrapLibraryCalls targets else pure 0
  let renamed ← if config.renameMain then renameMain else pure false
  let seeded ← seedGlobals routines config
  let m ← get
  let reports ← instrumentAll config m.interface routines ⟨m.width, []⟩ targets
  return ⟨reports, seeded, wrapped, renamed⟩

end Module

end PointerGuard
