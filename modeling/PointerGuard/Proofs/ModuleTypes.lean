import PointerGuard.Proofs.Independence
import PointerGuard.Proofs.ModuleValidity

/-!
# Types of the code that instrumentation adds

In a valid module every inserted call hands a routine what its signature asks for, and inserted
choices and phis join operands of one type. There is one exception: the size of a copy is handed on
as the program gives it, so one that is not as wide as a pointer leads to a call that is not well
typed.
-/

namespace PointerGuard

open Edit

/-! ### Functions -/

/-- What the passes add to a function that uses no values of others is well typed. -/
theorem Env.Passes.wellTyped {env : Env} {f : Function} {store : Store} {s : Weaving}
    (P : env.Passes f store s) (T : f.Tidy) (F : f.Enclosed)
    (hwidth : env.routines.width = env.width) (hstore : store.width = env.width)
    (hfresh : ∀ v : ValueId, v.func = f.id → store.lookup v = none) :
    s.func.WellTypedFrom env.routines (· ∈ f.copySizes env.interface) f.values.size := by
  obtain ⟨changed, hrun⟩ := P.runs
  have start : (Weaving.start f store).WellTyped env f := by
    refine ⟨hstore, Function.wellTypedFrom_size, fun v md hv hmd => ?_, nofun, nofun, ?_⟩
    · rw [Weaving.start, hfresh v hv] at hmd
      cases hmd
    · simp [Weaving.start]
  have hpasses := Weaving.pipeline_advances F (fun _ h => h) (fun _ _ h => h) (fun _ => hwidth) True
    (Weaving.advances_start T fun _ : True => start)
  exact ((hpasses.endsIn.of_runs hrun).wellTyped trivial).added

/-! ### The constructor -/

namespace PointerField

private theorem ty_addressOf {address : Constant} {path : List Nat} {ty : Ty} :
    (addressOf address path ty).ty = .voidPtr := by
  rw [addressOf]
  split <;> exact Constant.ty_asVoidPtr _

end PointerField

namespace Module

variable {m m' : Module} {config : Config} {t : RoutineTable}

/-- Where a pointer of an initializer lies is given as an `i8*`. -/
theorem ty_address_of_pointerFields {fields : List PointerField}
    (h : m.pointerFields = .ok fields) :
    ∀ field ∈ fields, field.address.ty = .voidPtr := by
  intro field hfield
  obtain ⟨g, -, path, ty, haddress⟩ := exists_address_of_pointerFields h field hfield
  rw [haddress]
  exact PointerField.ty_addressOf

theorem Seeding.wellTyped {g : Function} (S : Seeding m t config g) (hwidth : t.width = m.width) :
    ∀ x ∈ g.listing, ∀ ty inst, g.value? x = some ⟨ty, .inst inst⟩ →
      inst.kind.WellTyped t Never g ty := by
  intro x hx ty inst hvalue
  by_cases hold : x.index < S.start.values.size
  · -- the return is no call, choice or phi
    obtain ⟨b, hx⟩ := Function.mem_listing.mp hx
    have hlisted : x ∈ S.start.instsOf b := by
      rw [← S.grows.filter_instsOf S.onlyReturns.valid.tidy b]
      exact List.mem_filter.mpr ⟨hx, decide_eq_true hold⟩
    obtain ⟨-, rfl⟩ := S.onlyReturns.mem_instsOf hlisted
    obtain rfl : inst = ⟨.ret none, ⟨0⟩, false⟩ := by
      rw [S.grows.value?_eq hold] at hvalue
      have hinst := Function.inst?_eq_some_iff.mpr ⟨ty, hvalue⟩
      exact Option.some.inj (hinst.symm.trans S.onlyReturns.inst)
    trivial
  · have hspins : Splice.Spins t ⟨fun _ => True, True, fun _ => False⟩ ⟨S.start, ⟨0⟩, 0⟩ S.s :=
      ((heeds_seedFields Splice.carries_true (fun _ => hwidth) fun field hfield => ⟨trivial,
        fun _ => congrArg _ (ty_address_of_pointerFields S.pointerFields field hfield)⟩)
          _ .refl).endsIn.of_runs S.runs
    have hadded : S.s.func.WellTypedFrom t Never S.start.values.size :=
      hspins.wellTypedFrom trivial Function.wellTypedFrom_size
    rw [S.result] at hadded
    exact hadded x ty inst (Nat.not_lt.mp hold) hvalue

/-- The code that is added to the functions of a valid module is well typed, apart from sizes of
copies that are not as wide as a pointer; and so is the constructor. -/
theorem instrument_wellTyped {report : Report} (hm : m.WellFormed) (hverify : m.verify = .ok ())
    (h : (instrument config).Runs m report m') :
    ∃ prepared u, (prepare config).Runs m prepared u ∧ prepared.routines.width = m.width ∧
      (∀ id ∈ m.targets, ∃ f, m.function id = .ok f ∧
        ∃ turn : Turn config u.interface prepared.routines u m' id,
          turn.s.func.WellTypedFrom prepared.routines (· ∈ turn.f.copySizes u.interface)
            f.values.size ∧
          ((∀ size ∈ turn.f.copySizes u.interface,
              turn.f.operandType size = .ok m.width.intPtrTy) →
            turn.s.func.WellTypedFrom prepared.routines (fun _ => False) f.values.size)) ∧
      (report.seededGlobalFields ≠ 0 → ∃ id g, m'.function id = .ok g ∧ g.name = globalInit ∧
        g.flags.synthetic ∧ g.flags.constructor ∧ (∀ f, m.function id = .ok f → f.isDeclaration) ∧
        ∀ x ∈ g.listing, ∀ ty inst, g.value? x = some ⟨ty, .inst inst⟩ →
          inst.kind.WellTyped prepared.routines (fun _ => False) g ty) := by
  obtain ⟨prepared, u, hprepare, hturns⟩ := exists_turns hm h
  obtain ⟨-, htargets, hdeclared, r?, P⟩ := of_runs_prepare hm hprepare
  have hwidth : prepared.routines.width = m.width := hdeclared.width_eq.trans P.width_eq
  refine ⟨prepared, u, hprepare, hwidth, fun id hid => ?_, fun hn => ?_⟩
  · obtain ⟨-, -, f, hf, turn, -, S⟩ := exists_of_forall₂ hturns.flip hid
    obtain ⟨change, -, R⟩ := S.readdresses
    have F : turn.f.Enclosed :=
      enclosed_of_runs_prepare hm hverify hprepare (htargets ▸ hid) turn.function
    have T := S.wellFormed.tidy
    have hadded := turn.passes.wellTyped T F hdeclared.width_eq S.width S.fresh
    refine ⟨f, hf, turn, R.size_eq ▸ hadded, fun hsizes => R.size_eq ▸ hadded.of_sizes ?_⟩
    intro size hsize
    rw [hwidth]
    exact (turn.passes.grows T).operandType_eq (hsizes size hsize)
  · obtain ⟨prepared', u', hprepare', hall, hseeded, -⟩ := runs_instrument h
    obtain ⟨rfl, rfl⟩ := hprepare.unique hprepare'
    obtain ⟨w, hw, id, g, hg, ⟨S⟩, hnone⟩ := seeding_of_runs_prepare hm hprepare (hseeded ▸ hn)
    obtain ⟨hname, hsynthetic, hconstructor, -⟩ := S.header
    refine ⟨id, g, ?_, hname, hsynthetic, hconstructor, hnone, S.wellTyped (hwidth.trans hw.symm)⟩
    rw [htargets] at hall
    have hothers := each_of_runs_instrumentAll P.wellFormed (nodup_targets hm)
      (fun _ _ _ _ => rfl) hall
    -- the constructor is no target, so the passes leave it as it was made
    rw [hothers.1, hg]
    intro hid
    obtain ⟨f, hf, htarget⟩ := (mem_targets hm).mp hid
    simp [Function.isTarget, hnone f hf] at htarget

end Module

/-! ### Copies with a narrow and with a wide size

One function copies from one of two places, with a size of 32 bits, and another with a size of 64. A
global holds the address of another, so that a constructor is made. -/

/-- What copies memory, with a size of some number of bits. -/
def copyDeclaration (id : FuncId) (name : String) (bits : Nat) : Function :=
  .declaration id name ⟨.void, [.voidPtr, .voidPtr, .int bits], false⟩

/-- Copy from one of two places. -/
def moveFunction (id : FuncId) (name : String) (copy : FuncId) (bits : Nat) : Function :=
  .ofBlocks id name ⟨.void, [.voidPtr, .voidPtr, .int bits, .int 1], false⟩ [
  [(.voidPtr, .select (.value ⟨id, 3⟩) (.value ⟨id, 0⟩) (.value ⟨id, 1⟩)), (.void, .jump ⟨1⟩)],
  [(.voidPtr, .phi [(.value ⟨id, 4⟩, ⟨0⟩)]),
    (.void, .call
      (.const (.func copy (.functionPtr ⟨.void, [.voidPtr, .voidPtr, .int bits], false⟩)))
      [.value ⟨id, 0⟩, .value ⟨id, 6⟩, .value ⟨id, 2⟩]
      ⟨.void, [.voidPtr, .voidPtr, .int bits], false⟩),
    (.void, .ret none)]]

/-- Both copies. -/
def copyModule : Module where
  name := "copy"
  width := .bits64
  globals := #[⟨⟨0⟩, "cell", .int 32, some (.int 32 0), false⟩,
    ⟨⟨1⟩, "first", .ptr (.int 32), some (.global ⟨0⟩ (.ptr (.int 32))), false⟩]
  functions := #[
    copyDeclaration ⟨0⟩ "llvm.memcpy.p0i8.p0i8.i32" 32, copyDeclaration ⟨1⟩ "memcpy" 64,
    moveFunction ⟨2⟩ "narrow" ⟨0⟩ 32, moveFunction ⟨3⟩ "wide" ⟨1⟩ 64]

/-- Is there a copy of metadata whose size has some number of bits? -/
def Function.copiesMetadata (g : Function) (w : PointerWidth) (bits : Nat) : Bool :=
  g.listing.any fun x => match g.kind? x with
    | some (.call _ [_, _, size] sig) =>
      sig = Routine.copyMetadata.signature w && g.operandType size = .ok (.int bits)
    | _ => false

/-- The wide copy leaves nothing to be desired. In the narrow one the copy of the metadata is
handed a size of 32 bits, on a target with pointers of 64. -/
theorem instrument_wellTyped_copyModule :
    copyModule.WellFormed ∧ copyModule.verify = .ok () ∧
      ∃ report m', (Module.instrument {}).Runs copyModule report m' ∧
        ∃ prepared u, (Module.prepare {}).Runs copyModule prepared u ∧
          prepared.routines.width = .bits64 ∧
          (∃ turn : Module.Turn {} u.interface prepared.routines u m' ⟨2⟩,
            turn.s.func.WellTypedFrom prepared.routines (· ∈ turn.f.copySizes u.interface) 9 ∧
            turn.s.func.copiesMetadata .bits64 32) ∧
          (∃ turn : Module.Turn {} u.interface prepared.routines u m' ⟨3⟩,
            turn.s.func.WellTypedFrom prepared.routines (fun _ => False) 9) ∧
          ∃ id g, m'.function id = .ok g ∧ g.name = globalInit ∧
            ∀ x ∈ g.listing, ∀ ty inst, g.value? x = some ⟨ty, .inst inst⟩ →
              inst.kind.WellTyped prepared.routines (fun _ => False) g ty := by
  have hm : copyModule.WellFormed := by decide +kernel
  have hverify : copyModule.verify = .ok () := by decide +kernel
  obtain ⟨report, hrun, hseeded⟩ : ∃ report, (Module.instrument {}).Runs copyModule report _ ∧
      report.seededGlobalFields = 1 := Edit.exists_runs_of_map (by decide +kernel)
  have hnarrow : (((Module.instrument {}).apply copyModule).2.function ⟨2⟩).map
      (·.copiesMetadata .bits64 32) = .ok true := by decide +kernel
  have hwide : (((Module.prepare {}).apply copyModule).2.function ⟨3⟩).map (fun f =>
      decide (∀ size ∈ f.copySizes ((Module.prepare {}).apply copyModule).2.interface,
        f.operandType size = .ok (.int 64))) = .ok true := by decide +kernel
  obtain ⟨prepared, u, hprepare, hwidth, htargets, hconstructor⟩ :=
    Module.instrument_wellTyped hm hverify hrun
  rw [hprepare] at hwide
  obtain ⟨f, hf, turn, htyped, -⟩ := htargets ⟨2⟩ (by decide +kernel)
  obtain rfl : moveFunction ⟨2⟩ "narrow" ⟨0⟩ 32 = f := Except.ok.inj hf
  obtain ⟨f, hf, turn', -, hstrict⟩ := htargets ⟨3⟩ (by decide +kernel)
  obtain rfl : moveFunction ⟨3⟩ "wide" ⟨1⟩ 64 = f := Except.ok.inj hf
  rw [turn.result] at hnarrow
  rw [turn'.function] at hwide
  obtain ⟨id, g, hg, hname, -, -, -, hall⟩ := hconstructor (by omega)
  exact ⟨hm, hverify, report, _, hrun, prepared, u, hprepare, hwidth,
    ⟨turn, htyped, Except.ok.inj hnarrow⟩,
    ⟨turn', hstrict (of_decide_eq_true (Except.ok.inj hwide))⟩, id, g, hg, hname, hall⟩

end PointerGuard
