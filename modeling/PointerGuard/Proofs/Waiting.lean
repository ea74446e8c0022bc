import PointerGuard.Proofs.Readiness
import PointerGuard.Proofs.Samples

/-!
# Instructions that have to wait

Propagation gives up if it comes to an operand that has no metadata yet. Until then it has only
looked up operands, which may request the lock of the globals at the top of the function. A second
attempt finds the lock in place.
-/

namespace PointerGuard

variable {cond ifTrue : Operand}

/-- Is the operand a constant whose metadata takes the lock of the globals? -/
def Env.needsLock (env : Env) : Operand → Bool
  | .value _ => false
  | .const c =>
    match c.fold env.interface with
    | .ok folded => env.config.temporalSafety && folded.needsGlobalLock
    | .error _ => false

namespace Weaving

open Edit

/-- Is the operand a value that has no metadata yet? -/
def lacks (s : Weaving) : Operand → Bool
  | .value v => (s.store.lookup v).isNone
  | .const _ => false

/-- The lock of the globals has been requested at a place of the function. -/
def withGlobalLock (env : Env) (s : Weaving) (b : BlockId) (i : Nat) : Weaving :=
  { s with
    func := s.func.insertAt b i (env.callOf .globalLock []) (env.routines.signature .globalLock).ret
    globalLock := some (.value s.func.nextValue) }

/-- What looking up some operands may do: nothing, unless one of them needs the lock of the globals
and the lock is not there. -/
inductive Consults (env : Env) (operands : List Operand) (s : Weaving) : Weaving → Prop where
  | nothing : Consults env operands s s
  /-- The lock is requested. -/
  | lock {b : BlockId} {i : Nat} : s.globalLock = none →
    (∃ operand ∈ operands, env.needsLock operand) → s.func.locate? .prologue = some (b, i) →
    Consults env operands s (s.withGlobalLock env b i)

variable {env : Env} {s s' u : Weaving} {id x : ValueId}
  {operand callee source returned lock ifFalse : Operand} {operands others args : List Operand}
  {found : Option PointerMetadata} {ret : Ty}

namespace Consults

section

variable (C : Consults env operands s s')

include C

theorem store : s'.store = s.store := by
  cases C <;> rfl

theorem lacks : s'.lacks = s.lacks := by
  funext operand
  cases operand with
  | value v => rw [Weaving.lacks, Weaving.lacks, C.store]
  | const c => rfl

theorem value? {info : ValueInfo} (h : s.func.value? x = some info) :
    s'.func.value? x = some info := by
  cases C with
  | nothing => exact h
  | lock => exact (Function.value?_insertAt_of_some h).trans h

theorem operandType {ty : Ty} (h : s.func.operandType operand = .ok ty) :
    s'.func.operandType operand = .ok ty := by
  cases operand with
  | const c => exact h
  | value v =>
    rw [Function.operandType_value_eq_ok, Function.valueType?, Option.map_eq_some_iff] at h ⊢
    obtain ⟨info, hinfo, rfl⟩ := h
    exact ⟨info, C.value? hinfo, rfl⟩

theorem eq_or_lock : s' = s ∨ s'.globalLock ≠ none := by
  cases C with
  | nothing => exact .inl rfl
  | lock => exact .inr nofun

theorem mono (h : operands ⊆ others) : Consults env others s s' := by
  cases C with
  | nothing => exact .nothing
  | lock hnone hneeds hlocate =>
    obtain ⟨operand, hmem, hneeds⟩ := hneeds
    exact .lock hnone ⟨operand, h hmem, hneeds⟩ hlocate

end

theorem trans (C : Consults env operands s u) (C' : Consults env operands u s') :
    Consults env operands s s' := by
  cases C with
  | nothing => exact C'
  | lock hnone hneeds hlocate =>
    -- once the lock is there, it is not requested again
    cases C' with
    | nothing => exact .lock hnone hneeds hlocate
    | lock hnone' => cases hnone'

end Consults

/-! ### Looking up operands -/

theorem runs_requestGlobalLock :
    (requestGlobalLock env).Runs s lock s' ↔
      s.globalLock = some lock ∧ s = s' ∨
        s.globalLock = none ∧ lock = .value s.func.nextValue ∧
          ∃ b i, s.func.locate? .prologue = some (b, i) ∧ s.withGlobalLock env b i = s' := by
  rw [requestGlobalLock, runs_get_bind]
  split
  · rename_i found hfound
    simp [hfound]
  · rename_i hnone
    simp only [runs_bind, runs_splice, runs_modify, runs_pure, RoutineTable.call, Splice.call,
      Splice.runs_insert, hnone, reduceCtorEq, false_and, false_or, true_and]
    constructor
    · rintro ⟨_, _, ⟨b, i, _, hlocate, ⟨rfl, rfl⟩, rfl⟩, _, _, rfl, rfl, rfl⟩
      exact ⟨rfl, b, i, hlocate, rfl⟩
    · rintro ⟨rfl, b, i, hlocate, rfl⟩
      exact ⟨_, _, ⟨b, i, _, hlocate, ⟨rfl, rfl⟩, rfl⟩, ⟨⟩, _, rfl, rfl, rfl⟩

theorem tryResolve_consults (h : (tryResolve env operand).Runs s found s') :
    Consults env [operand] s s' ∧ (found = none ↔ s.lacks operand) := by
  cases operand with
  | value v =>
    obtain ⟨rfl, rfl⟩ := h
    exact ⟨.nothing, by simp [lacks]⟩
  | const c =>
    simp only [tryResolve, runs_bind, runs_ofExcept] at h
    obtain ⟨folded, _, ⟨hfold, rfl⟩, md, _, hmd, rfl, rfl⟩ := h
    refine ⟨?_, by simp [lacks]⟩
    by_cases hneeds : env.config.temporalSafety && folded.needsGlobalLock
    · simp only [materialize, hneeds, if_true, runs_bind] at hmd
      obtain ⟨lock, _, hlock, -, rfl⟩ := hmd
      rcases runs_requestGlobalLock.mp hlock with ⟨-, rfl⟩ | ⟨hnone, -, b, i, hlocate, rfl⟩
      · exact .nothing
      · exact .lock hnone ⟨_, List.mem_singleton_self _, by rwa [Env.needsLock, hfold]⟩ hlocate
    · simp only [materialize, hneeds] at hmd
      obtain ⟨-, rfl⟩ := hmd
      exact .nothing

/-- What is looked up again, with the lock there, changes nothing and is found if it was before. -/
theorem tryResolve_again (h : (tryResolve env operand).Runs s found s') (hstore : u.store = s.store)
    (hlock : u.globalLock ≠ none) :
    ∃ again, (tryResolve env operand).Runs u again u ∧ (again = none ↔ found = none) := by
  cases operand with
  | value v =>
    simp only [tryResolve, runs_get_bind, runs_pure] at h ⊢
    exact ⟨_, ⟨rfl, trivial⟩, by rw [hstore, h.1]⟩
  | const c =>
    simp only [tryResolve, runs_bind, runs_ofExcept, runs_pure] at h ⊢
    obtain ⟨folded, _, ⟨hfold, rfl⟩, md, _, -, rfl, rfl⟩ := h
    obtain ⟨lock, hlock⟩ := Option.ne_none_iff_exists'.mp hlock
    have hrequest : (requestGlobalLock env).Runs u lock u :=
      runs_requestGlobalLock.mpr (.inl ⟨hlock, rfl⟩)
    obtain ⟨md', hmd⟩ : ∃ md', (materialize env folded).Runs u md' u := by
      rw [materialize]
      split
      · exact ⟨_, runs_bind.mpr ⟨lock, u, hrequest, runs_pure.mpr ⟨rfl, rfl⟩⟩⟩
      · exact ⟨_, runs_pure.mpr ⟨rfl, rfl⟩⟩
    exact ⟨some md', ⟨folded, u, ⟨hfold, rfl⟩, md', u, hmd, rfl, rfl⟩, by simp⟩

/-- Operands are looked up until one has no metadata. -/
theorem tryResolveAll_consults {all : Option (List PointerMetadata)}
    (h : (tryResolveAll env operands).Runs s all s') :
    Consults env operands s s' ∧ (all = none → ∃ operand ∈ operands, s.lacks operand) := by
  induction operands generalizing s s' all with
  | nil =>
    obtain ⟨rfl, rfl⟩ := runs_pure.mp h
    exact ⟨.nothing, nofun⟩
  | cons operand rest ih =>
    rw [tryResolveAll, runs_bind] at h
    obtain ⟨found, u, hfirst, h⟩ := h
    obtain ⟨C, hlacks⟩ := tryResolve_consults hfirst
    have C : Consults env (operand :: rest) s u := C.mono (by simp)
    cases found with
    | none => grind [runs_pure]
    | some md =>
      rw [runs_bind] at h
      obtain ⟨all', w, hrest, h⟩ := h
      obtain ⟨C', hlacks'⟩ := ih hrest
      have D := C.trans (C'.mono (List.subset_cons_self ..))
      cases all' with
      | some mds =>
        obtain ⟨rfl, rfl⟩ := runs_pure.mp h
        exact ⟨D, by simp⟩
      | none =>
        obtain ⟨-, rfl⟩ := runs_pure.mp h
        obtain ⟨other, hmem, hlacks'⟩ := hlacks' rfl
        exact ⟨D, fun _ => ⟨other, .tail _ hmem, by rwa [← C.lacks]⟩⟩

theorem tryResolveAll_again (h : (tryResolveAll env operands).Runs s none s')
    (hstore : u.store = s.store) (hlock : u.globalLock ≠ none) :
    (tryResolveAll env operands).Runs u none u := by
  induction operands generalizing s s' with
  | nil => cases (runs_pure.mp h).1
  | cons operand rest ih =>
    rw [tryResolveAll, runs_bind] at h ⊢
    obtain ⟨found, t, hfirst, h⟩ := h
    obtain ⟨again, hagain, hnone⟩ := tryResolve_again hfirst hstore hlock
    refine ⟨again, u, hagain, ?_⟩
    cases found with
    | none =>
      obtain rfl := hnone.mpr rfl
      exact runs_pure.mpr ⟨rfl, rfl⟩
    | some md =>
      cases again with
      | none => cases hnone.mp rfl
      | some md' =>
        rw [runs_bind] at h
        obtain ⟨all, w, hrest, h⟩ := h
        cases all with
        | some mds => cases (runs_pure.mp h).1
        | none =>
          have hrest' := ih hrest (hstore.trans (tryResolve_consults hfirst).1.store.symm)
          exact runs_bind.mpr ⟨none, u, hrest', runs_pure.mpr ⟨rfl, rfl⟩⟩

/-! ### Kinds of instructions

A single operand that is waited for is a value, so nothing is requested for it. -/

theorem eq_of_tryResolve_none (h : (tryResolve env operand).Runs s none s') :
    s' = s ∧ s.lacks operand := by
  obtain ⟨C, hlacks⟩ := tryResolve_consults h
  cases operand with
  | const c => cases hlacks.mp rfl
  | value v =>
    refine ⟨?_, hlacks.mp rfl⟩
    cases C with
    | nothing => rfl
    | lock _ hneeds => simp [Env.needsLock] at hneeds

theorem propagateDerived_waits (h : (propagateDerived env id source).Runs s false s') :
    s' = s ∧ s.lacks source := by
  rw [propagateDerived, runs_bind] at h
  obtain ⟨found, u, hresolve, h⟩ := h
  cases found with
  | some md => simp at h
  | none => grind [runs_pure, eq_of_tryResolve_none]

theorem propagateReturn_waits (h : (propagateReturn env id returned).Runs s false s') :
    s' = s ∧ s.func.isPointerOperand returned ∧ s.lacks returned := by
  simp only [propagateReturn, runs_bind, runs_operandType] at h
  obtain ⟨ty, _, ⟨htype, rfl⟩, h⟩ := h
  by_cases hpointer : ty.isPointer
  · rw [if_pos hpointer, runs_bind] at h
    obtain ⟨found, u, hresolve, h⟩ := h
    cases found with
    | some md => simp at h
    | none =>
      obtain ⟨-, rfl⟩ := runs_pure.mp h
      obtain ⟨heq, hlacks⟩ := eq_of_tryResolve_none hresolve
      exact ⟨heq, Function.isPointerOperand_iff.mpr ⟨ty, htype, hpointer⟩, hlacks⟩
  · rw [if_neg hpointer] at h
    cases (runs_pure.mp h).1

private theorem runs_propagateSelect_false :
    (propagateSelect env id cond ifTrue ifFalse).Runs s false s' ↔
      ∃ onTrue u onFalse, (tryResolve env ifTrue).Runs s onTrue u ∧
        (tryResolve env ifFalse).Runs u onFalse s' ∧ (onTrue = none ∨ onFalse = none) := by
  simp only [propagateSelect, runs_bind]
  constructor
  · rintro ⟨onTrue, u, htrue, onFalse, w, hfalse, h⟩
    cases onTrue with
    | none => grind [runs_pure]
    | some onTrue =>
      cases onFalse with
      | none => grind [runs_pure]
      | some onFalse => simp at h
  · grind [runs_pure]

theorem propagateSelect_waits (h : (propagateSelect env id cond ifTrue ifFalse).Runs s false s') :
    (∃ operand ∈ [ifTrue, ifFalse], s.lacks operand) ∧ Consults env [ifTrue, ifFalse] s s' ∧
      (propagateSelect env id cond ifTrue ifFalse).Runs s' false s' := by
  obtain ⟨onTrue, u, onFalse, htrue, hfalse, hnone⟩ := runs_propagateSelect_false.mp h
  obtain ⟨C, hlacks⟩ := tryResolve_consults htrue
  obtain ⟨C', hlacks'⟩ := tryResolve_consults hfalse
  rw [C.lacks] at hlacks'
  have D : Consults env [ifTrue, ifFalse] s s' := (C.mono (by simp)).trans (C'.mono (by simp))
  refine ⟨?_, D, ?_⟩
  · grind
  · rcases D.eq_or_lock with rfl | hlock
    · exact h
    · obtain ⟨onTrue', htrue', hagain⟩ := tryResolve_again htrue D.store hlock
      obtain ⟨onFalse', hfalse', hagain'⟩ := tryResolve_again hfalse C'.store hlock
      refine runs_propagateSelect_false.mpr ⟨onTrue', s', onFalse', htrue', hfalse', ?_⟩
      rwa [hagain, hagain']

private theorem runs_propagateCall_false :
    (propagateCall env id ret callee args).Runs s false s' ↔
      env.interface.isInstrumentedCall callee ∧ ∃ frame,
        ShadowFrame.ofCall s.func args ret = .ok frame ∧
          (tryResolveAll env (args.filter s.func.isPointerOperand)).Runs s none s' := by
  rw [propagateCall]
  by_cases hcallee : env.interface.isInstrumentedCall callee
  · rw [if_pos hcallee]
    rw [runs_get_bind]
    simp only [runs_bind, runs_ofExcept, hcallee, true_and]
    constructor
    · rintro ⟨frame, _, ⟨hframe, rfl⟩, found, u, hfound, h⟩
      rw [(ShadowFrame.ofCall_eq_ok hframe).1] at hfound
      cases found with
      | some mds => simp at h
      | none => grind [runs_pure]
    · rintro ⟨frame, hframe, hfound⟩
      rw [← (ShadowFrame.ofCall_eq_ok hframe).1] at hfound
      exact ⟨frame, s, ⟨hframe, rfl⟩, none, s', hfound, runs_pure.mpr ⟨rfl, rfl⟩⟩
  · rw [if_neg hcallee]
    simp only [hcallee]
    split <;> simp

private theorem propagateCall_waits (h : (propagateCall env id ret callee args).Runs s false s') :
    (∃ operand ∈ args.filter s.func.isPointerOperand, s.lacks operand) ∧
      Consults env (args.filter s.func.isPointerOperand) s s' ∧
      (propagateCall env id ret callee args).Runs s' false s' := by
  obtain ⟨hcallee, frame, hframe, hall⟩ := runs_propagateCall_false.mp h
  obtain ⟨C, hlacks⟩ := tryResolveAll_consults hall
  refine ⟨hlacks rfl, C, ?_⟩
  rcases C.eq_or_lock with rfl | hlock
  · exact h
  -- all arguments keep their types, so the same of them are pointers
  have htypes := ShadowFrame.operandType_of_ofCall hframe
  have hpointers : args.filter s'.func.isPointerOperand = args.filter s.func.isPointerOperand := by
    refine List.filter_congr fun arg harg => ?_
    obtain ⟨ty, hty⟩ := htypes arg harg
    rw [Function.isPointerOperand_eq hty, Function.isPointerOperand_eq (C.operandType hty)]
  obtain ⟨frame', hframe'⟩ := ShadowFrame.exists_ofCall ret fun arg harg =>
    (htypes arg harg).imp fun _ => C.operandType
  refine runs_propagateCall_false.mpr ⟨hcallee, frame', hframe', ?_⟩
  rw [hpointers]
  exact tryResolveAll_again hall C.store hlock

/-! ### All instructions -/

/-- An instruction waits for an operand that has no metadata. Meanwhile nothing has happened but
that the lock of the globals may have been requested for another operand, and the next attempt, if
nothing happens before it, ends in the same way and changes nothing. -/
theorem propagate_waits (h : (propagate env id).Runs s false s') :
    (∃ operand ∈ s.func.pointerSources id, s.lacks operand) ∧
      Consults env (s.func.pointerSources id) s s' ∧ (propagate env id).Runs s' false s' := by
  have hrun := h
  rw [propagate, runs_get_bind] at h
  dsimp only at h
  split at h
  · rename_i ty inst hvalue
    obtain ⟨kind, block, inserted⟩ := inst
    have hkind : s.func.kind? id = some kind := by
      rw [Function.kind?, Function.inst?, hvalue]
      rfl
    have hpointer : s.func.isPointerValue id = ty.isPointer := by
      rw [Function.isPointerValue, Function.valueType?, hvalue]
      rfl
    -- an instruction with one source looks up nothing but that
    have single : ∀ {source}, source ∈ s.func.pointerSources id → s' = s ∧ s.lacks source →
        (∃ operand ∈ s.func.pointerSources id, s.lacks operand) ∧
          Consults env (s.func.pointerSources id) s s' ∧ (propagate env id).Runs s' false s' := by
      rintro source hsource ⟨rfl, hlacks⟩
      exact ⟨⟨source, hsource, hlacks⟩, .nothing, hrun⟩
    cases kind with
    | gep source indices =>
      rcases runs_ite.mp h with ⟨hty, h⟩ | ⟨-, h⟩
      · refine single ?_ (propagateDerived_waits h)
        simp [Function.pointerSources, hkind, hpointer, hty]
      · simp at h
    | cast op source =>
      cases op with
      | bitcast =>
        rcases runs_ite.mp h with ⟨hty, h⟩ | ⟨-, h⟩
        · refine single ?_ (propagateDerived_waits h)
          simp [Function.pointerSources, hkind, hpointer, hty]
        · simp at h
      | intToPtr => rcases runs_ite.mp h with ⟨-, h⟩ | ⟨-, h⟩ <;> simp at h
      | ptrToInt => simp at h
    | ret returned =>
      cases returned with
      | none => simp at h
      | some returned =>
        obtain ⟨heq, hreturned, hlacks⟩ := propagateReturn_waits h
        refine single ?_ ⟨heq, hlacks⟩
        simp [Function.pointerSources, hkind, hreturned]
    | select cond ifTrue ifFalse =>
      rcases runs_ite.mp h with ⟨hty, h⟩ | ⟨-, h⟩
      · obtain ⟨hlacks, C, hagain⟩ := propagateSelect_waits h
        simp only [Function.pointerSources, hkind, hpointer, hty]
        refine ⟨hlacks, C, ?_⟩
        rw [propagate, runs_get_bind]
        simp only [C.value? hvalue, hty]
        exact hagain
      · simp at h
    | call callee args sig =>
      obtain ⟨hlacks, C, hagain⟩ := propagateCall_waits h
      simp only [Function.pointerSources, hkind]
      refine ⟨hlacks, C, ?_⟩
      rw [propagate, runs_get_bind]
      simp only [C.value? hvalue]
      exact hagain
    | load | phi | extract => rcases runs_ite.mp h with ⟨-, h⟩ | ⟨-, h⟩ <;> simp at h
    | alloca | store | binary | icmp | jump | branch | unreachable => simp at h
  · simp at h

/-- Choose between a global and a pointer that is made in a later block. -/
def forwardChoice : Function := .ofBlocks ⟨0⟩ "f" ⟨.void, [.int 1], false⟩ [
  [(.ptr (.int 32), .select (val 0) (.const (.global ⟨0⟩ (.ptr (.int 32)))) (val 3)),
    (.void, .jump ⟨1⟩)],
  [(.ptr (.int 32), .cast .intToPtr (.const (.int 64 4096))), (.void, .ret none)]]

/-- A module with the function and one global. -/
def forwardEnv : Env :=
  { gatherEnv forwardChoice with interface := ⟨.bits64, #[], #[⟨"g", .int 32, false⟩]⟩ }

/-- The choice has to wait for the later pointer, but the lock is requested for the global. -/
theorem propagate_waits_forwardChoice :
    ∃ s' b i, (propagate forwardEnv ⟨⟨0⟩, 1⟩).Runs (.start forwardChoice ⟨.bits64, []⟩) false s' ∧
      s' = withGlobalLock forwardEnv (.start forwardChoice ⟨.bits64, []⟩) b i ∧
      (propagate forwardEnv ⟨⟨0⟩, 1⟩).Runs s' false s' := by
  have hwaits : ((propagate forwardEnv ⟨⟨0⟩, 1⟩).apply
      (.start forwardChoice ⟨.bits64, []⟩)).1.toOption.map id = some false := by decide +kernel
  have hlock : ((propagate forwardEnv ⟨⟨0⟩, 1⟩).apply
      (.start forwardChoice ⟨.bits64, []⟩)).2.globalLock ≠ none := by decide +kernel
  obtain ⟨_, hrun, rfl⟩ := exists_runs_of_map hwaits
  obtain ⟨-, C, hagain⟩ := propagate_waits hrun
  generalize ((propagate forwardEnv ⟨⟨0⟩, 1⟩).apply (.start forwardChoice ⟨.bits64, []⟩)).2 = s'
    at hrun C hagain hlock
  cases C with
  | nothing => exact absurd rfl hlock
  | @lock b i => exact ⟨_, b, i, hrun, rfl, hagain⟩

end Weaving

end PointerGuard
