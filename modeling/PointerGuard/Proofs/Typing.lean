import PointerGuard.Proofs.Successes

/-!
# Types of insertions

What well typed means for one instruction, for a record and for a function. The size of a copy may
be of any type, so it is kept track of which operands these are.
-/

namespace PointerGuard

variable {f g : Function}

/-! ### Well typed instructions -/

/-- What a routine may be handed where it takes a parameter of a type: an operand of this type
or, for the routine that copies metadata, one of some sizes that are handed on as they are. -/
def Function.MayPass (g : Function) (t : RoutineTable) (sizes : Operand → Prop) (r : Routine)
    (arg : Operand) (param : Ty) : Prop :=
  g.operandType arg = .ok param ∨ r = .copyMetadata ∧ param = t.width.intPtrTy ∧ sizes arg

/-- Operands are used as they should be in an instruction whose result has some type. Calls are
calls of routines, and are handed what these take; both arms of a choice and what comes along
the edges of a phi have the type of the result. -/
def InstKind.WellTyped (t : RoutineTable) (sizes : Operand → Prop) (g : Function) (ty : Ty) :
    InstKind → Prop
  | .call callee args sig => ∃ r, callee = t.callee r ∧ sig = t.signature r ∧
      List.Forall₂ (g.MayPass t sizes r) args sig.params
  | .select _ ifTrue ifFalse => g.operandType ifTrue = .ok ty ∧ g.operandType ifFalse = .ok ty
  | .phi incoming => ∀ edge ∈ incoming, g.operandType edge.1 = .ok ty
  | _ => True

/-- The instructions of a function from some number on are well typed. -/
def Function.WellTypedFrom (g : Function) (t : RoutineTable) (sizes : Operand → Prop) (n : Nat) :
    Prop :=
  ∀ x ty inst, n ≤ x.index → g.value? x = some ⟨ty, .inst inst⟩ → inst.kind.WellTyped t sizes g ty

/-- Operands have the types in one function that they have in another. -/
def Function.KeepsTypes (f g : Function) : Prop :=
  ∀ {operand ty}, f.operandType operand = .ok ty → g.operandType operand = .ok ty

section

variable {t : RoutineTable} {sizes sizes' : Operand → Prop} {ty : Ty} {kind : InstKind} {n : Nat}
  {b : BlockId}

theorem InstKind.WellTyped.mono (h : kind.WellTyped t sizes f ty) (hkept : f.KeepsTypes g) :
    kind.WellTyped t sizes g ty := by
  cases kind with
  | call callee args sig =>
    obtain ⟨r, hcallee, hsig, hargs⟩ := h
    exact ⟨r, hcallee, hsig, hargs.imp fun _ _ hpass => hpass.imp_left hkept⟩
  | select cond ifTrue ifFalse => exact ⟨hkept h.1, hkept h.2⟩
  | phi incoming => exact fun edge hedge => hkept (h edge hedge)
  | _ => trivial

theorem Function.wellTypedFrom_size : f.WellTypedFrom t sizes f.values.size :=
  fun _ _ _ hx hvalue => absurd (index_lt_of_value? hvalue).2 (Nat.not_lt.mpr hx)

/-- Sizes that are of the right type are nothing special. -/
theorem Function.WellTypedFrom.of_sizes (h : g.WellTypedFrom t sizes n)
    (hsizes : ∀ size, sizes size → g.operandType size = .ok t.width.intPtrTy) :
    g.WellTypedFrom t sizes' n := by
  intro x ty inst hx hvalue
  have hinst := h x ty inst hx hvalue
  cases hkind : inst.kind with
  | call callee args sig =>
    rw [hkind] at hinst
    obtain ⟨r, hcallee, hsig, hargs⟩ := hinst
    -- only calls may be handed one of the sizes
    refine ⟨r, hcallee, hsig, hargs.imp fun arg param hpass => .inl ?_⟩
    rcases hpass with htype | ⟨-, rfl, hsize⟩
    · exact htype
    · exact hsizes arg hsize
  | select | phi =>
    rw [hkind] at hinst
    exact hinst
  | _ => trivial

/-- What is known of values in one function and known in another has its types there. -/
theorem Function.keepsTypes_of_value? (h : ∀ x info, f.value? x = some info →
    ∃ info', g.value? x = some info' ∧ info'.ty = info.ty) : f.KeepsTypes g := by
  intro operand ty htype
  cases operand with
  | const c => exact htype
  | value x =>
    rw [operandType_value_eq_ok, valueType?] at htype ⊢
    obtain ⟨info, hvalue, rfl⟩ := Option.map_eq_some_iff.mp htype
    obtain ⟨info', hvalue', hty⟩ := h x info hvalue
    rw [hvalue', Option.map_some, hty]

theorem Function.WellTypedFrom.insertAt {i : Nat} (h : f.WellTypedFrom t sizes n)
    (hkind : kind.WellTyped t sizes f ty) : (f.insertAt b i kind ty).WellTypedFrom t sizes n := by
  -- what was there stays well typed, as operands keep their types
  have hkept : f.KeepsTypes (f.insertAt b i kind ty) := keepsTypes_of_value? fun x info hx =>
    ⟨info, (value?_insertAt_of_some hx).trans hx, rfl⟩
  intro x ty' inst hx hvalue
  by_cases hnew : x = f.nextValue
  · rw [hnew] at hvalue
    obtain ⟨rfl, rfl⟩ : ty = ty' ∧ ⟨kind, b, true⟩ = inst := by simpa using hvalue
    exact hkind.mono hkept
  · rw [value?_insertAt_of_ne hnew] at hvalue
    exact (h x ty' inst hx hvalue).mono hkept

/-- One more edge of the type of a phi leaves all as it should be. -/
theorem Function.WellTypedFrom.withEdges {phi : ValueId} {incoming : List (Operand × BlockId)}
    {operand : Operand} (h : g.WellTypedFrom t sizes n) (hkind : g.kind? phi = some (.phi incoming))
    (hphi : g.operandType (.value phi) = .ok ty) (hoperand : g.operandType operand = .ok ty) :
    g.KeepsTypes (g.withEdges phi (incoming ++ [(operand, b)])) ∧
      (g.withEdges phi (incoming ++ [(operand, b)])).WellTypedFrom t sizes n := by
  obtain ⟨inst, ty', hinstKind, hvalue⟩ := value?_of_kind? hkind
  obtain rfl : ty' = ty := by
    rw [operandType_value_eq_ok, valueType?, hvalue] at hphi
    exact Option.some.inj hphi
  have hkept : g.KeepsTypes (g.withEdges phi (incoming ++ [(operand, b)])) := by
    refine keepsTypes_of_value? fun x info hx => ?_
    rw [value?_withEdges hvalue]
    split
    · grind
    · exact ⟨info, hx, rfl⟩
  refine ⟨hkept, fun x ty inst' hx hvalue' => ?_⟩
  rw [value?_withEdges hvalue] at hvalue'
  split at hvalue'
  · -- the phi itself: the edges it had, and the new one
    rename_i heq
    subst heq
    obtain ⟨rfl, rfl⟩ :
        ty' = ty ∧ { inst with kind := .phi (incoming ++ [(operand, b)]) } = inst' := by
      simpa using hvalue'
    have hold := h x ty' inst hx hvalue
    rw [hinstKind] at hold
    intro edge hedge
    rcases List.mem_append.mp hedge with hedge | hedge
    · exact hkept (hold edge hedge)
    · rw [List.mem_singleton.mp hedge]
      exact hkept hoperand
  · exact (h x ty inst' hx hvalue').mono hkept

end

/-! ### Records -/

namespace PointerMetadata.TypedIn

variable {md : PointerMetadata} {w : PointerWidth}

theorem mono (h : md.TypedIn w f) (hkept : f.KeepsTypes g) : md.TypedIn w g :=
  fun c operand hget => hkept (h c operand hget)

/-- What stands for a component that is missing has the type of the component, too. -/
theorem component (h : md.TypedIn w g) (c : Component) :
    g.operandType (md.component w c) = .ok (c.type w) := by
  cases hget : md.get? c with
  | some operand =>
    rw [component_of_get? w hget]
    exact h c operand hget
  | none =>
    cases c <;> simp only [get?] at hget <;>
      simp [PointerMetadata.component, baseOrNull, boundOrNull, keyOrZero, lockOrNull, hget,
        Function.operandType, Constant.nullVoidPtr, Constant.ty, keyConstant, Component.type,
        Store.componentType, PointerWidth.keyTy]

end PointerMetadata.TypedIn

theorem Splice.Extends.keepsTypes {s u : Splice} (E : s.Extends u) : s.func.KeepsTypes u.func :=
  E.operandType_eq

end PointerGuard
