import PointerGuard.ConstantMetadata

/-!
# The functions that constants name

Addresses of functions stand in operands and initializers at any depth: in the parts of an
aggregate, in the base and the indices of a computed address, under casts.
-/

namespace PointerGuard

variable {change : FuncId → FuncId} {c : Constant} {operand : Operand}

namespace Constant

mutual

/-- The functions a constant names, in the order in which they are written. -/
def functions : Constant → List FuncId
  | .func id _ => [id]
  | .aggregate _ elements => functionsOfAll elements
  | .gep base indices _ => base.functions ++ functionsOfAll indices
  | .cast _ value _ => value.functions
  | .null _ | .undef _ | .zero _ | .int .. | .global .. => []

def functionsOfAll : List Constant → List FuncId
  | [] => []
  | c :: cs => c.functions ++ functionsOfAll cs

end

theorem functionsOfAll_eq {cs : List Constant} : functionsOfAll cs = cs.flatMap functions := by
  induction cs with
  | nil => rfl
  | cons c cs ih => rw [functionsOfAll, ih, List.flatMap_cons]

mutual

/-- The constant with other functions in the place of those it names. -/
def mapFunctions (change : FuncId → FuncId) : Constant → Constant
  | .func id t => .func (change id) t
  | .aggregate t elements => .aggregate t (mapFunctionsOfAll change elements)
  | .gep base indices t => .gep (base.mapFunctions change) (mapFunctionsOfAll change indices) t
  | .cast op value t => .cast op (value.mapFunctions change) t
  | .null t => .null t
  | .undef t => .undef t
  | .zero t => .zero t
  | .int bits value => .int bits value
  | .global id t => .global id t

/-- The constants of a list with other functions in the place of those they name. -/
def mapFunctionsOfAll (change : FuncId → FuncId) : List Constant → List Constant
  | [] => []
  | c :: cs => c.mapFunctions change :: mapFunctionsOfAll change cs

end

section

mutual

@[simp] theorem functions_mapFunctions :
    ∀ c : Constant, (c.mapFunctions change).functions = c.functions.map change
  | .func id t => rfl
  | .aggregate t elements => by
    rw [mapFunctions, functions, functions, functionsOfAll_mapFunctionsOfAll]
  | .gep base indices t => by
    rw [mapFunctions, functions, functions, functions_mapFunctions,
      functionsOfAll_mapFunctionsOfAll, List.map_append]
  | .cast op value t => by rw [mapFunctions, functions, functions, functions_mapFunctions]
  | .null _ | .undef _ | .zero _ | .int .. | .global .. => rfl

@[simp] theorem functionsOfAll_mapFunctionsOfAll :
    ∀ cs : List Constant,
      functionsOfAll (mapFunctionsOfAll change cs) = (functionsOfAll cs).map change
  | [] => rfl
  | c :: cs => by
    rw [mapFunctionsOfAll, functionsOfAll, functionsOfAll, functions_mapFunctions,
      functionsOfAll_mapFunctionsOfAll, List.map_append]

end

mutual

theorem mapFunctions_eq_self :
    ∀ c : Constant, (∀ id ∈ c.functions, change id = id) → c.mapFunctions change = c
  | .func id t, h => by rw [mapFunctions, h id (List.mem_singleton_self id)]
  | .aggregate t elements, h => by rw [mapFunctions, mapFunctionsOfAll_eq_self elements h]
  | .gep base indices t, h => by
    rw [functions, List.forall_mem_append] at h
    rw [mapFunctions, mapFunctions_eq_self base h.1, mapFunctionsOfAll_eq_self indices h.2]
  | .cast op value t, h => by rw [mapFunctions, mapFunctions_eq_self value h]
  | .null _, _ | .undef _, _ | .zero _, _ | .int .., _ | .global .., _ => rfl

theorem mapFunctionsOfAll_eq_self :
    ∀ cs : List Constant, (∀ id ∈ functionsOfAll cs, change id = id) →
      mapFunctionsOfAll change cs = cs
  | [], _ => rfl
  | c :: cs, h => by
    rw [functionsOfAll, List.forall_mem_append] at h
    rw [mapFunctionsOfAll, mapFunctions_eq_self c h.1, mapFunctionsOfAll_eq_self cs h.2]

end

end

mutual

/-- Redirecting changes the functions that a constant names, and nothing else. Those that are mapped
are counted as often as they are named. -/
theorem redirect_eq {map : FuncId → Option FuncId} : ∀ c : Constant, c.redirect map =
    (c.mapFunctions fun id => (map id).getD id, c.functions.countP fun id => (map id).isSome)
  | .func id t => by
    rw [redirect, mapFunctions, functions, List.countP_singleton]
    cases map id <;> rfl
  | .aggregate t elements => by rw [redirect, redirectAll_eq elements, mapFunctions, functions]
  | .gep base indices t => by
    rw [redirect, redirect_eq base, redirectAll_eq indices, mapFunctions, functions,
      List.countP_append]
  | .cast op value t => by rw [redirect, redirect_eq value, mapFunctions, functions]
  | .null _ | .undef _ | .zero _ | .int .. | .global .. => rfl

theorem redirectAll_eq {map : FuncId → Option FuncId} : ∀ cs : List Constant, redirectAll map cs =
    (mapFunctionsOfAll (fun id => (map id).getD id) cs,
      (functionsOfAll cs).countP fun id => (map id).isSome)
  | [] => rfl
  | c :: cs => by
    rw [redirectAll, redirect_eq c, redirectAll_eq cs, mapFunctionsOfAll, functionsOfAll,
      List.countP_append]

end

theorem functions_asVoidPtr : c.asVoidPtr.functions = c.functions := by
  rw [asVoidPtr]
  split
  · rfl
  · rw [functions]

/-- The bounds of a constant are those of a global or none at all, so they name no function. -/
theorem functions_of_fold {i : Interface} {folded : FoldedMetadata} (h : c.fold i = .ok folded) :
    folded.base.functions = [] ∧ folded.bound.functions = [] := by
  fun_induction fold i c with
  | case7 id t =>
    cases hglobal : i.global id with
    | error e =>
      rw [hglobal] at h
      cases h
    | ok info =>
      rw [hglobal] at h
      obtain rfl | rfl : .unbounded i.width = folded ∨
        .ofGlobal i.width (.global id t) = folded := by
        cases hexternal : info.external with
        | true => exact .inl (by simpa [bind, Except.bind, hexternal, pure, Except.pure] using h)
        | false => exact .inr (by simpa [bind, Except.bind, hexternal, pure, Except.pure] using h)
      · exact ⟨rfl, rfl⟩
      · rw [FoldedMetadata.ofGlobal, functions_asVoidPtr, functions_asVoidPtr]
        exact ⟨rfl, rfl⟩
  | case9 base indices ty ih => exact ih h
  | case10 value ty ih => exact ih h
  | _ =>
    -- null bounds and those without limit are literal
    first
    | obtain rfl := Except.ok.inj h
      exact ⟨rfl, rfl⟩
    | cases h

end Constant

def Operand.functions : Operand → List FuncId
  | .value _ => []
  | .const c => c.functions

/-- The operand with other functions in the place of those it names. -/
def Operand.mapFunctions (change : FuncId → FuncId) : Operand → Operand
  | .value v => .value v
  | .const c => .const (c.mapFunctions change)

@[simp] theorem Operand.functions_mapFunctions :
    (operand.mapFunctions change).functions = operand.functions.map change := by
  cases operand with
  | value v => rfl
  | const c => exact c.functions_mapFunctions

theorem Operand.mapFunctions_eq_self (h : ∀ id ∈ operand.functions, change id = id) :
    operand.mapFunctions change = operand := by
  cases operand with
  | value v => rfl
  | const c => rw [mapFunctions, c.mapFunctions_eq_self h]

/-- The functions the operands of an instruction name. -/
def InstKind.functions (kind : InstKind) : List FuncId := kind.operands.flatMap Operand.functions

theorem InstKind.mem_functions {kind : InstKind} {id : FuncId} :
    id ∈ kind.functions ↔ ∃ operand ∈ kind.operands, id ∈ operand.functions :=
  List.mem_flatMap

end PointerGuard
