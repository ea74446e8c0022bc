import PointerGuard.Routine

/-!
# Wrapping library routines

Library routines know nothing about metadata, so uses of some of them are
redirected to wrappers that do. Calls, addresses taken in instructions and
addresses in initializers are all redirected; uses in functions that are not
instrumented are not.
-/

namespace PointerGuard

/-- Which functions to use instead of which. -/
abbrev Redirection := List (FuncId × FuncId)

/-- The constant with functions redirected, and the number of uses found. -/
def Redirection.onConstant (r : Redirection) (c : Constant) : Constant × Nat :=
  c.redirect fun id => r.lookup id

/-- The operand with functions redirected, and the number of uses found. -/
def Redirection.onOperand (r : Redirection) : Operand → Operand × Nat
  | .const c => ((r.onConstant c).map .const fun n => n)
  | .value id => (.value id, 0)

/-- The number of redirected uses in an instruction. -/
def Redirection.usesIn (r : Redirection) (kind : InstKind) : Nat :=
  kind.operands.foldl (fun n operand => n + (r.onOperand operand).2) 0

namespace Function

/-- Redirect the operands of one instruction, and count. -/
def redirectInst (r : Redirection) (f : Function) (id : ValueId) : Function × Nat :=
  match f.kind? id with
  | some kind =>
    (f.modifyInst id fun inst =>
      { inst with kind := kind.mapOperands fun operand => (r.onOperand operand).1 },
      r.usesIn kind)
  | none => (f, 0)

/-- Redirect the operands of all listed instructions, and count. -/
def redirect (r : Redirection) (f : Function) : Function × Nat :=
  f.listedInsts.foldl (fun (f, total) id =>
    let (f, n) := f.redirectInst r id
    (f, total + n)) (f, 0)

end Function

namespace Module

/-- The declared library routines that have wrappers. -/
def libraryFunctions (m : Module) : List Function :=
  m.functions.toList.filter fun f =>
    f.isDeclaration && f.flags.isEmpty && f.name ∈ wrappedLibraryFunctions

/-- Declare the wrapper of a library routine, and flag it. -/
def declareWrapper (f : Function) : Edit Module (FuncId × FuncId) := do
  let id ← Module.declare (wrapperSymbol f.name) f.signature
  let _ ← Module.addFlags id { wrapper := true }
  return (f.id, id)

/-- Redirect the uses in a function, and count them. -/
def redirectFunction (r : Redirection) (id : FuncId) : Edit Module Nat :=
  Module.onFunction id do
    let (f, n) := (← get).redirect r
    set f
    return n

/-- Redirect the uses in initializers, and count them. -/
def redirectGlobals (r : Redirection) (m : Module) : Module × Nat :=
  let globals := m.globals.map fun g =>
    match g.initializer with
    | some init =>
      let (init, n) := r.onConstant init
      ({ g with initializer := some init }, n)
    | none => (g, 0)
  ({ m with globals := globals.map Prod.fst }, globals.foldl (fun n g => n + g.2) 0)

/-- Redirect all uses of library routines in some functions and in the initializers to wrappers, and
count them. -/
def wrapLibraryCalls (targets : List FuncId) : Edit Module Nat := do
  let libraries := (← get).libraryFunctions
  if libraries.isEmpty then
    return 0
  let r ← libraries.mapM declareWrapper
  let counts ← targets.mapM (redirectFunction r)
  let (m, n) := (← get).redirectGlobals r
  set m
  return counts.foldl (· + ·) n

end Module

end PointerGuard
