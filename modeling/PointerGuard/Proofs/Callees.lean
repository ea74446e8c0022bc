import PointerGuard.Proofs.Libraries

/-!
# Callers and callees

A function is woven by whether it has a body and by its flags; a call passes metadata by what is
known of the callee, and there the name is looked at too. The tests agree on all functions with a
body but those that bear the name of an intrinsic: these read a frame that their callers do not
make.
-/

namespace PointerGuard

open Edit

variable {callee : Operand} {r : Redirection}

/-- An operand is the address of a function of the module that has a body, possibly at another
type. -/
def Module.NamesBody (m : Module) (callee : Operand) (id : FuncId) : Prop :=
  callee.directCallee? = some id ∧ ∃ f, m.function id = .ok f ∧ f.isDeclaration = false

/-- A function is still there: it has its body and its flags, its name unless that was `main`, and
its direct calls of functions with a body. -/
structure Function.Persists (m : Module) (f g : Function) : Prop where
  body : g.isDeclaration = false
  flags_eq : g.flags = f.flags
  name_eq : g.name = f.name ∨ f.name = "main" ∧ g.name = pseudoMain
  calls : ∀ {x callee args sig id}, f.kind? x = some (.call callee args sig) →
    m.NamesBody callee id → ∃ args', g.kind? x = some (.call callee args' sig)

/-- All functions of a module that have a body are still there. -/
def Module.Persist (m u : Module) : Prop :=
  ∀ id f, m.function id = .ok f → f.isDeclaration = false →
    ∃ g, u.function id = .ok g ∧ f.Persists m g

variable {m u : Module} {id : FuncId} {f g : Function}

/-! ### Redirecting -/

private theorem Constant.redirect_of_directCallee? {map : FuncId → Option FuncId} {c : Constant}
    (h : c.directCallee? = some id) (hmap : map id = none) : (c.redirect map).1 = c := by
  fun_induction Constant.directCallee? c with
  | case1 id' t =>
    cases h
    rw [Constant.redirect, hmap]
  | case2 value t ih =>
    show Constant.cast .bitcast (value.redirect map).1 t = _
    rw [ih h]
  | case3 => cases h

private theorem Redirection.onOperand_of_directCallee? (h : callee.directCallee? = some id)
    (hr : r.lookup id = none) :
    (r.onOperand callee).1 = callee := by
  cases callee with
  | value x => rfl
  | const c =>
    have hc : c.directCallee? = some id := by simpa [Operand.directCallee?, Operand.const?] using h
    show Operand.const (r.onConstant c).1 = .const c
    rw [onConstant, Constant.redirect_of_directCallee? hc hr]

/-- A function that is furnished is still there, and so it is if uses are redirected of what has no
body. -/
theorem Function.persists_of_furnishes {r? : Option Redirection} (T : f.Tidy)
    (hbody : f.isDeclaration = false) (hname : f.name ∉ reservedNames)
    (hr : ∀ r, r? = some r → ∀ id k, m.function id = .ok k → k.isDeclaration = false →
      r.lookup id = none) (F : (f.redirected r?).Furnishes g) : f.Persists m g := by
  have L := F.body (isDeclaration_redirected.trans hbody)
  have hsame : (f.redirected r?).name = f.name ∧ (f.redirected r?).flags = f.flags := by
    rw [redirected_eq]
    exact ⟨rfl, rfl⟩
  refine ⟨F.isDeclaration (isDeclaration_redirected.trans hbody),
    (L.flags_eq (hsame.1 ▸ hname)).trans hsame.2, hsame.1 ▸ L.name_eq,
    fun {x callee args sig id} hcall ⟨hdirect, k, hk, hbody⟩ => ?_⟩
  have hcallee : f.redirection r? callee = callee := by
    cases r? with
    | none => rfl
    | some r =>
      simp only [redirection]
      split
      · exact Redirection.onOperand_of_directCallee? hdirect (hr r rfl id k hk hbody)
      · rfl
  obtain ⟨inst, ty, hkind, hvalue⟩ := value?_of_kind? hcall
  have hvalue' := value?_redirected T r? hvalue
  rw [L.eq_relabel]
  show ∃ args', (f.redirected r?).kind? x = _
  split at hvalue'
  · refine ⟨args.map (f.redirection r?), (kind?_of_value? hvalue').trans ?_⟩
    simp [hkind, InstKind.mapOperands, hcallee]
  · exact ⟨args, (kind?_congr (hvalue'.trans hvalue.symm)).trans hcall⟩

namespace Module

variable {config : Config}

/-- All functions that have a body are still there when a module has been prepared. -/
theorem persist_of_runs_prepare {prepared : Prepared} (hm : m.WellFormed)
    (hnames : ∀ id f, m.function id = .ok f → f.name ∉ reservedNames)
    (h : (prepare config).Runs m prepared u) : m.Persist u := by
  obtain ⟨v, v', w, S⟩ := stages_of_runs_prepare h
  -- only uses of library routines are redirected, and those have no body
  obtain ⟨r?, P, hr⟩ : ∃ r?, m.Prepares r? w ∧ ∀ r, r? = some r → ∀ id k, m.function id = .ok k →
      k.isDeclaration = false → r.lookup id = none := by
    by_cases hwrap : config.wrapLibraryCalls
    · obtain ⟨r, P, E, -⟩ := S.redirects hm hwrap
      refine ⟨some r, P, fun r' hr' id k hk hbody => ?_⟩
      cases hr'
      have hmaps := E.maps_eq id
      rw [isLibrary, has_of_function hk, Function.isLibrary, hbody] at hmaps
      simpa [Redirection.maps] using hmaps
    · have hwraps := S.wraps
      rw [if_neg hwrap] at hwraps
      obtain ⟨-, rfl⟩ := runs_pure.mp hwraps
      have L := S.labels hm
      have L' := (renameIfAsked_labelling _ L.wellFormed).of_runs S.renames
      exact ⟨none, (L.trans L').furnishes.prepares, by simp⟩
  have F := (seedGlobals_endsIn P.wellFormed).of_runs S.seeds
  intro id f hf hbody
  obtain ⟨g, hg, hfg⟩ := (P.furnish F).function hf
  exact ⟨g, hg, Function.persists_of_furnishes (hm.wellFormed hf).tidy hbody
    (hnames id f hf) hr hfg⟩

/-! ### Calls -/

section

variable (hdirect : callee.directCallee? = some id) (hf : u.function id = .ok f)

include hdirect hf

private theorem calleeInfo?_of_function :
    u.interface.calleeInfo? callee = some ⟨f.name, f.signature, f.flags, f.isDeclaration⟩ := by
  rw [Interface.calleeInfo?, hdirect]
  simp [interface, function_eq_ok_iff.mp hf]

theorem isInstrumentedCall_of_function :
    u.interface.isInstrumentedCall callee =
      CalleeInfo.isInstrumented ⟨f.name, f.signature, f.flags, f.isDeclaration⟩ := by
  cases callee with
  | value x => simp [Operand.directCallee?, Operand.const?] at hdirect
  | const c => simp only [Interface.isInstrumentedCall, calleeInfo?_of_function hdirect hf]

end

/-- Renaming `main` neither makes nor hides the name of an intrinsic. -/
theorem isIntrinsic_of_persists (P : f.Persists m g) : isIntrinsic g.name = isIntrinsic f.name := by
  rcases P.name_eq with hname | ⟨hmain, hname⟩
  · rw [hname]
  · rw [hname, hmain]
    decide

/-- In a module without flags and reserved names all functions with a body are woven, and direct
calls of them are taken to pass metadata unless they bear the name of an intrinsic. -/
theorem isInstrumentedCall_iff_not_isIntrinsic {m' : Module} {report : Report} (hm : m.WellFormed)
    (hflags : ∀ f ∈ m.functions, f.flags = {})
    (hnames : ∀ f ∈ m.functions, f.name ∉ reservedNames)
    (h : (instrument config).Runs m report m') :
    ∃ prepared u, (prepare config).Runs m prepared u ∧
      List.Forall₂ (fun id r =>
        ∃ turn : Turn config u.interface prepared.routines u m' id, turn.s.report = r ∧
          ∀ f x callee args sig g k, m.function id = .ok f →
            f.kind? x = some (.call callee args sig) →
            callee.directCallee? = some g → m.function g = .ok k → k.isDeclaration = false →
            (∃ args', turn.f.kind? x = some (.call callee args' sig)) ∧ g ∈ m.targets ∧
            (turn.env.interface.isInstrumentedCall callee ↔ ¬isIntrinsic k.name))
        m.targets report.functions := by
  have hnames' : ∀ id f, m.function id = .ok f → f.name ∉ reservedNames := fun id f hf =>
    hnames f (Array.mem_of_getElem? (function_eq_ok_iff.mp hf))
  obtain ⟨prepared, u, hprepare, hall, -⟩ := runs_instrument h
  obtain ⟨-, htargets, -, r?, R⟩ := of_runs_prepare hm hprepare
  have P := persist_of_runs_prepare hm hnames' hprepare
  rw [htargets] at hall
  obtain ⟨-, hturns⟩ := each_of_runs_instrumentAll R.wellFormed (nodup_targets hm)
    (fun _ _ _ _ => rfl) hall
  refine ⟨prepared, u, hprepare, ?_⟩
  rw [List.forall₂_iff_get] at hturns ⊢
  refine ⟨hturns.1, fun n hn hn' => ?_⟩
  obtain ⟨turn, hreport⟩ := hturns.2 n hn hn'
  refine ⟨turn, hreport, fun f x callee args sig g k hf hcall hdirect hk hbody => ⟨?_, ?_, ?_⟩⟩
  · obtain ⟨f₀, hf₀, htarget⟩ := (mem_targets hm).mp (List.get_mem m.targets ⟨n, hn⟩)
    obtain rfl := Except.ok.inj (hf₀.symm.trans hf)
    simp only [Function.isTarget, Bool.and_eq_true, Bool.not_eq_true'] at htarget
    obtain ⟨f', hf', Q⟩ := P _ _ hf htarget.1
    obtain rfl := Except.ok.inj (turn.function.symm.trans hf')
    exact Q.calls hcall ⟨hdirect, k, hk, hbody⟩
  · refine (mem_targets hm).mpr ⟨k, hk, ?_⟩
    rw [Function.isTarget, hflags k (Array.mem_of_getElem? (function_eq_ok_iff.mp hk)), hbody]
    rfl
  · obtain ⟨k', hk', Q⟩ := P _ _ hk hbody
    have hempty : k'.flags = {} :=
      Q.flags_eq.trans (hflags k (Array.mem_of_getElem? (function_eq_ok_iff.mp hk)))
    rw [Turn.env, isInstrumentedCall_of_function hdirect hk', CalleeInfo.isInstrumented, hempty,
      Q.body, isIntrinsic_of_persists Q]
    simp

end Module

/-! ### A function with the name of an intrinsic

Two functions that read through their argument, of which one is named like an intrinsic, and a third
that calls both. -/

/-- Read through the argument. -/
def reader (id : FuncId) (name : String) : Function :=
  .ofBlocks id name ⟨.int 32, [.ptr (.int 32)], false⟩ [
  [(.int 32, .load (.value ⟨id, 0⟩)), (.void, .ret (some (.value ⟨id, 1⟩)))]]

/-- The address of the function with the name of an intrinsic. -/
def intrinsicAddress : Operand := .const (.func ⟨0⟩ (reader ⟨0⟩ "llvm.peek").pointerType)

/-- The address of the other one, at another type. -/
def peekAddress : Operand :=
  .const (.cast .bitcast (.func ⟨1⟩ (reader ⟨1⟩ "peek").pointerType)
    (.ptr (.func (.int 64) [.ptr (.int 32)] false)))

/-- Call both. -/
def peekCaller : Function := .ofBlocks ⟨2⟩ "poke" ⟨.int 64, [.ptr (.int 32)], false⟩ [
  [(.int 32, .call intrinsicAddress [.value ⟨⟨2⟩, 0⟩] ⟨.int 32, [.ptr (.int 32)], false⟩),
    (.int 64, .call peekAddress [.value ⟨⟨2⟩, 0⟩] ⟨.int 64, [.ptr (.int 32)], false⟩),
    (.void, .ret (some (.value ⟨⟨2⟩, 2⟩)))]]

def peekModule : Module :=
  { name := "peek", width := .bits64,
    functions := #[reader ⟨0⟩ "llvm.peek", reader ⟨1⟩ "peek", peekCaller] }

/-- Both functions are woven, and only one of the calls is taken to pass metadata. -/
theorem isInstrumentedCall_peekModule :
    peekModule.WellFormed ∧ (∀ f ∈ peekModule.functions, f.flags = {}) ∧
      (∀ f ∈ peekModule.functions, f.name ∉ reservedNames) ∧
      ∃ report m', (Module.instrument {}).Runs peekModule report m' ∧
        ∃ prepared u, (Module.prepare {}).Runs peekModule prepared u ∧
          (⟨0⟩ ∈ peekModule.targets ∧ ¬u.interface.isInstrumentedCall intrinsicAddress) ∧
          ⟨1⟩ ∈ peekModule.targets ∧ u.interface.isInstrumentedCall peekAddress := by
  have hm : peekModule.WellFormed := by decide +kernel
  have hflags : ∀ f ∈ peekModule.functions, f.flags = {} := by decide +kernel
  have hnames : ∀ f ∈ peekModule.functions, f.name ∉ reservedNames := by decide +kernel
  obtain ⟨report, hrun⟩ : ∃ report, (Module.instrument {}).Runs peekModule report _ :=
    Edit.exists_runs (by decide +kernel)
  obtain ⟨prepared, u, hprepare, hturns⟩ :=
    Module.isInstrumentedCall_iff_not_isIntrinsic hm hflags hnames hrun
  refine ⟨hm, hflags, hnames, report, _, hrun, prepared, u, hprepare, ?_⟩
  obtain ⟨_, _, -, hturns, -⟩ := List.forall₂_cons_left_iff.mp hturns
  obtain ⟨_, _, -, hturns, -⟩ := List.forall₂_cons_left_iff.mp hturns
  obtain ⟨_, _, ⟨turn, -, hcalls⟩, -⟩ := List.forall₂_cons_left_iff.mp hturns
  obtain ⟨-, hfirst, hcall⟩ := hcalls peekCaller ⟨⟨2⟩, 1⟩ intrinsicAddress _ _ ⟨0⟩
    (reader ⟨0⟩ "llvm.peek") rfl rfl rfl rfl rfl
  obtain ⟨-, hsecond, hcall'⟩ := hcalls peekCaller ⟨⟨2⟩, 2⟩ peekAddress _ _ ⟨1⟩
    (reader ⟨1⟩ "peek") rfl rfl rfl rfl rfl
  refine ⟨⟨hfirst, fun h => hcall.mp h (by decide)⟩, hsecond, hcall'.mpr (by decide)⟩

end PointerGuard
