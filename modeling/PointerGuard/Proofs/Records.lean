import PointerGuard.Propagation
import PointerGuard.Proofs.Splices
import PointerGuard.Provenance

/-!
# Records of pointer metadata

A record is a list of operands, one for each tracked component. It is described here by the
instructions its components are made by, where these stand, and what they work on, not by the text
of the passes.
-/

namespace PointerGuard

open PointerMetadata

variable {half : Half} {c : Component} {env : Env} {operand : Operand} {md old : PointerMetadata}
  {made : Component → Operand → Prop}

namespace PointerMetadata

/-- A component, if its half is there. -/
def get? (md : PointerMetadata) : Component → Option Operand
  | .base => md.spatial.map Spatial.base
  | .bound => md.spatial.map Spatial.bound
  | .key => md.temporal.map Temporal.key
  | .lock => md.temporal.map Temporal.lock

theorem get?_of_isEmpty (h : md.isEmpty) (c : Component) : md.get? c = none := by
  obtain ⟨spatial, temporal⟩ := md
  simp only [isEmpty, Bool.and_eq_true, Option.isNone_iff_eq_none] at h
  obtain ⟨rfl, rfl⟩ := h
  cases c <;> rfl

/-- What is used for a component is the component, or a constant. -/
theorem component_eq (md : PointerMetadata) (w : PointerWidth) (c : Component) :
    md.get? c = some (md.component w c) ∨ (md.component w c).value? = none := by
  obtain ⟨spatial, temporal⟩ := md
  cases c <;> cases spatial <;> cases temporal <;> simp [get?, component, baseOrNull, boundOrNull,
    keyOrZero, lockOrNull, Operand.value?]

theorem component_of_get? (w : PointerWidth) (h : md.get? c = some operand) :
    md.component w c = operand := by
  obtain ⟨spatial, temporal⟩ := md
  cases c <;> cases spatial <;> cases temporal <;>
    simp_all [get?, component, baseOrNull, boundOrNull, keyOrZero, lockOrNull]

/-- The halves of a record, and those of an older one where they are missing. -/
def overlay (md old : PointerMetadata) : PointerMetadata :=
  ⟨md.spatial.or old.spatial, md.temporal.or old.temporal⟩

/-- A half of a record: its two components, and how it is put into a record. -/
structure Half where
  first : Component × Operand
  second : Component × Operand
  put : PointerMetadata → PointerMetadata

/-- The halves that are there. -/
def halves (md : PointerMetadata) : List Half :=
  (md.spatial.map fun half => ⟨(.base, half.base), (.bound, half.bound),
    fun md => { md with spatial := some half }⟩).toList ++
  (md.temporal.map fun half => ⟨(.key, half.key), (.lock, half.lock),
    fun md => { md with temporal := some half }⟩).toList

theorem exists_half_of_get? (h : md.get? c = some operand) :
    ∃ half ∈ md.halves, half.first = (c, operand) ∨ half.second = (c, operand) := by
  obtain ⟨spatial, temporal⟩ := md
  cases c <;> cases spatial <;> cases temporal <;> simp_all [get?, halves]

theorem get?_of_mem_halves (h : half ∈ md.halves) :
    md.get? half.first.1 = some half.first.2 ∧ md.get? half.second.1 = some half.second.2 := by
  simp only [halves, List.mem_append, Option.mem_toList, Option.map_eq_some_iff] at h
  rcases h with ⟨spatial, hspatial, rfl⟩ | ⟨temporal, htemporal, rfl⟩
  · simp [get?, hspatial]
  · simp [get?, htemporal]

/-- A record that a half is put into has the components of the half, which are those of the record
that the half is from, and all that it had before. -/
theorem get?_put (h : half ∈ md.halves) (hget : (half.put old).get? c = some operand) :
    md.get? c = some operand ∧ (half.first = (c, operand) ∨ half.second = (c, operand)) ∨
      old.get? c = some operand := by
  simp only [halves, List.mem_append, Option.mem_toList, Option.map_eq_some_iff] at h
  rcases h with ⟨spatial, hspatial, rfl⟩ | ⟨temporal, htemporal, rfl⟩
  · cases c <;> simp_all [get?]
  · cases c <;> simp_all [get?]

end PointerMetadata

/-! ### The store -/

namespace Store

open Edit

variable {s s' t : Store} {f : Function} {id v : ValueId} {md : PointerMetadata}

private theorem lookup_dissociate (h : v ≠ id) : (s.dissociate id).lookup v = s.lookup v := by
  simp only [lookup, dissociate]
  induction s.entries with
  | nil => rfl
  | cons entry rest ih => grind

theorem lookup_put : (s.put id md).lookup v = if v = id then some md else s.lookup v := by
  by_cases h : v = id
  · simp [put, lookup, h]
  · have hne : (v == id) = false := by simpa using h
    have hrest : (s.put id md).lookup v = (s.dissociate id).lookup v := by
      rw [put, lookup, List.lookup_cons, hne, lookup]
    rw [if_neg h, hrest, lookup_dissociate h]

def componentType (s : Store) : Component → Ty
  | .base | .bound | .lock => .voidPtr
  | .key => s.width.keyTy

theorem componentType_eq (h : t.width = s.width) : t.componentType = s.componentType := by
  funext c
  cases c <;> simp [componentType, h]

theorem checkComponent_eq_ok {ty : Ty} :
    checkComponent f id c operand ty = .ok () ↔ f.operandType operand = .ok ty := by
  simp only [checkComponent, Outcome.bind_eq_ok, Outcome.ite_eq_ok, Outcome.pure_eq_ok,
    Outcome.throw_ne_ok, and_false, or_false]
  constructor
  · rintro ⟨found, hfound, rfl, -⟩
    exact hfound
  · exact fun h => ⟨ty, h, rfl, trivial⟩

/-- Record one half, if both of its components have the right types. -/
def setHalf (f : Function) (id : ValueId) (half : Half) : Edit Store Unit := do
  let s ← MonadState.get
  Edit.ofExcept (checkComponent f id half.first.1 half.first.2 (s.componentType half.first.1))
  Edit.ofExcept (checkComponent f id half.second.1 half.second.2 (s.componentType half.second.1))
  set (s.put id (half.put ((s.lookup id).getD {})))

/-- The halves of a record are recorded one after the other. -/
theorem associate_eq (f : Function) (id : ValueId) (md : PointerMetadata) :
    associate f id md = md.halves.forM (setHalf f id) := by
  have checks : ∀ {α : Type} {x y : Except Error Unit} {s : Store} (rest : Store → Edit Store α),
      Edit.ofExcept (x >>= fun _ => y >>= fun _ => pure s) >>= rest =
        Edit.ofExcept x >>= fun _ => Edit.ofExcept y >>= fun _ => rest s := by
    intro α x y s rest
    cases x with
    | error e => rfl
    | ok _ => cases y <;> rfl
  obtain ⟨spatial, temporal⟩ := md
  cases spatial <;> cases temporal <;>
    simp [associate, halves, setHalf, setSpatial, setTemporal, componentType, checks,
      bind_pure_unit, -bind_pure_comp]

theorem runs_setHalf {u : Unit} :
    (setHalf f id half).Runs s u s' ↔
      f.operandType half.first.2 = .ok (s.componentType half.first.1) ∧
        f.operandType half.second.2 = .ok (s.componentType half.second.1) ∧
        s.put id (half.put ((s.lookup id).getD {})) = s' := by
  rw [setHalf, runs_get_bind]
  simp only [runs_bind, runs_ofExcept, runs_set]
  constructor
  · grind [checkComponent_eq_ok]
  · rintro ⟨hfirst, hsecond, rfl⟩
    exact ⟨_, s, ⟨checkComponent_eq_ok.mpr hfirst, rfl⟩, _, s,
      ⟨checkComponent_eq_ok.mpr hsecond, rfl⟩, rfl⟩

section

variable (h : (associate f id md).Runs s ⟨⟩ s')

include h

theorem associate_width : s'.width = s.width := by
  rw [associate_eq] at h
  refine h.forM_induction (fun _ t => t.width = s.width) rfl fun half rest t t' ht hset => ?_
  obtain ⟨-, -, rfl⟩ := runs_setHalf.mp hset
  exact ht

theorem associate_lookup_of_ne (hv : v ≠ id) : s'.lookup v = s.lookup v := by
  rw [associate_eq] at h
  refine h.forM_induction (fun _ t => t.lookup v = s.lookup v) rfl fun half rest t t' ht hset => ?_
  obtain ⟨-, -, rfl⟩ := runs_setHalf.mp hset
  rwa [lookup_put, if_neg hv]

/-- A record is set over what was recorded before, if there is anything in it. -/
theorem associate_lookup_over :
    s'.lookup id =
      if md.isEmpty then s.lookup id else some (md.overlay ((s.lookup id).getD {})) := by
  have put : ∀ {half} {t t' : Store}, (setHalf f id half).Runs t ⟨⟩ t' →
      t'.lookup id = some (half.put ((t.lookup id).getD {})) := by simp [runs_setHalf, lookup_put]
  rw [associate_eq] at h
  obtain ⟨spatial, temporal⟩ := md
  cases spatial with
  | none =>
    cases temporal with
    | none => rw [← runs_forM_nil.mp h]; rfl
    | some _ =>
      obtain ⟨_, hset, hend⟩ := runs_forM_cons.mp h
      exact runs_forM_nil.mp hend ▸ put hset
  | some _ =>
    obtain ⟨t, hset, h⟩ := runs_forM_cons.mp h
    cases temporal with
    | none =>
      exact runs_forM_nil.mp h ▸ put hset
    | some _ =>
      obtain ⟨_, hset', hend⟩ := runs_forM_cons.mp h
      rw [← runs_forM_nil.mp hend, put hset', put hset]
      rfl

theorem associate_lookup (hnone : s.lookup id = none) :
    s'.lookup id = if md.isEmpty then none else some md := by
  rw [associate_lookup_over h, hnone]
  simp [overlay]

theorem associate_type (hget : md.get? c = some operand) :
    f.operandType operand = .ok (s.componentType c) := by
  obtain ⟨half, hmem, hcomponent⟩ := exists_half_of_get? hget
  rw [associate_eq] at h
  have hall := h.forM_induction (fun rest t => t.componentType = s.componentType ∧
    (half ∉ rest → f.operandType half.first.2 = .ok (s.componentType half.first.1) ∧
      f.operandType half.second.2 = .ok (s.componentType half.second.1)))
    ⟨rfl, absurd hmem⟩ fun half' rest t t' ht hset => ?_
  · grind
  · obtain ⟨hfirst, hsecond, rfl⟩ := runs_setHalf.mp hset
    obtain ⟨htypes, hdone⟩ := ht
    rw [htypes] at hfirst hsecond
    refine ⟨htypes, fun hnot => ?_⟩
    by_cases heq : half = half'
    · exact heq ▸ ⟨hfirst, hsecond⟩
    · exact hdone (by simp [heq, hnot])

end

end Store

/-! ### Resolved operands -/

namespace Weaving

/-- The lock of a constant's metadata; none if it has not been requested yet. -/
def lockFor? (s : Weaving) (env : Env) (folded : FoldedMetadata) : Option Operand :=
  if env.config.temporalSafety && folded.needsGlobalLock then s.globalLock
  else some (.const .nullVoidPtr)

/-- The metadata of an operand, as far as it is known. -/
def resolved? (s : Weaving) (env : Env) : Operand → Option PointerMetadata
  | .value id => s.store.lookup id
  | .const c =>
    match c.fold env.interface with
    | .ok folded => (s.lockFor? env folded).map
        (folded.materialize env.width env.config.spatialSafety env.config.temporalSafety)
    | .error _ => none

end Weaving

/-! ### Records by kind of definition -/

/-- The routine that loads a component from a shadow frame. -/
def Component.loader : Component → Routine
  | .base => .loadBase
  | .bound => .loadBound
  | .key => .loadKey
  | .lock => .loadLock

/-- Does a pointer come from nowhere: out of an integer, an aggregate or unknown code? -/
def InstKind.fromNowhere (i : Interface) : InstKind → Bool
  | .cast .intToPtr _ | .extract .. => true
  | .call callee _ _ => !i.isInstrumentedCall callee
  | _ => false

theorem InstKind.isPhi_of_fromNowhere {i : Interface} {kind : InstKind}
    (h : kind.fromNowhere i) : kind.isPhi = false := by
  cases kind with
  | phi incoming => cases h
  | _ => rfl

namespace Env

/-- Is a component tracked? -/
def tracks (env : Env) : Component → Bool
  | .base | .bound => env.config.spatialSafety
  | .key | .lock => env.config.temporalSafety

/-- The call of a routine. -/
def callOf (env : Env) (r : Routine) (args : List Operand) : InstKind :=
  .call (env.routines.callee r) args (env.routines.signature r)

def slotLoad (env : Env) (slot : Nat) (c : Component) : InstKind :=
  env.callOf c.loader [ShadowFrame.slotOperand slot]

/-- A record has the components that are tracked and no others, each made in some way. -/
def Consists (env : Env) (md : PointerMetadata) (made : Component → Operand → Prop) : Prop :=
  ∀ c, if env.tracks c then ∃ operand, md.get? c = some operand ∧ made c operand
    else md.get? c = none

theorem Consists.of_halves (hspatial : md.spatial.isSome = env.config.spatialSafety)
    (htemporal : md.temporal.isSome = env.config.temporalSafety)
    (hbounds : ∀ spatial, md.spatial = some spatial →
      made .base spatial.base ∧ made .bound spatial.bound)
    (hkeys : ∀ temporal, md.temporal = some temporal →
      made .key temporal.key ∧ made .lock temporal.lock) : env.Consists md made := by
  obtain ⟨spatial, temporal⟩ := md
  intro c
  cases c with
  | base | bound =>
    rw [tracks, ← hspatial]
    cases spatial with
    | none => rfl
    | some spatial => simp [get?, hbounds spatial rfl]
  | key | lock =>
    rw [tracks, ← htemporal]
    cases temporal with
    | none => rfl
    | some temporal => simp [get?, hkeys temporal rfl]

section

variable (h : env.Consists md made)

include h

theorem Consists.isSome_get? (c : Component) : (md.get? c).isSome = env.tracks c := by
  have hc := h c
  split at hc
  · obtain ⟨operand, hget, -⟩ := hc
    simp_all
  · simp_all

theorem Consists.tracks_of_get? (hget : md.get? c = some operand) : env.tracks c := by
  rw [← h.isSome_get?, hget, Option.isSome_some]

/-- Records with all tracked components have the same halves. -/
theorem Consists.isSome_spatial : md.spatial.isSome = env.config.spatialSafety := by
  simpa [get?, tracks] using h.isSome_get? .base

theorem Consists.isSome_temporal : md.temporal.isSome = env.config.temporalSafety := by
  simpa [get?, tracks] using h.isSome_get? .key

/-- A configuration that asks for some safety leaves no record empty. -/
theorem Consists.not_isEmpty (hconfig : env.config.validate = .ok ()) : md.isEmpty = false := by
  have hsome : env.config.spatialSafety || env.config.temporalSafety := by
    rw [Config.validate] at hconfig
    split at hconfig
    · assumption
    · cases hconfig
  simp only [isEmpty, ← Option.not_isSome, h.isSome_spatial, h.isSome_temporal]
  rcases Bool.or_eq_true_iff.mp hsome with hon | hon
  · rw [hon, Bool.not_true, Bool.false_and]
  · rw [hon, Bool.not_true, Bool.and_false]

end

/-- A record has the components that are tracked and no others. -/
def Complete (env : Env) (md : PointerMetadata) : Prop := env.Consists md fun _ _ => True

theorem Complete.get?_component (h : env.Complete md) (hc : env.tracks c) (w : PointerWidth) :
    md.get? c = some (md.component w c) := by
  obtain ⟨operand, hget, -⟩ := (if_pos hc).mp (h c)
  rw [hget, component_of_get? w hget]

theorem complete_materialize (env : Env) (folded : FoldedMetadata) (lock : Operand) :
    env.Complete (folded.materialize env.width env.config.spatialSafety env.config.temporalSafety
      lock) :=
  .of_halves (by simp [FoldedMetadata.materialize]; split <;> simp_all)
    (by simp [FoldedMetadata.materialize]; split <;> simp_all) (fun _ _ => ⟨trivial, trivial⟩)
    fun _ _ => ⟨trivial, trivial⟩

end Env

namespace Weaving

/-- The record of a pointer is what its definition asks for. A parameter has what was loaded from
its slot at the top of the function, or may be used without limit; a stack allocation reaches from
its address to its end and has the key of the frame; a loaded pointer has the record that was loaded
behind it; a derived pointer has that of its source; a choice has choices behind it, and a phi has
phis behind it; the result of a call has what was loaded from the frame behind it. -/
inductive Produced (env : Env) (f : Function) (s : Weaving) (v : ValueId) : PointerMetadata → Prop
  | slot {position n : Nat} {md} : f.pointerParams[n]? = some (v, position) →
      (f.attrsAt position).byval = false →
      env.Consists md (fun c => s.func.Made s.func.Early (env.slotLoad (n + 1) c)) →
      Produced env f s v md
  | byval {position n : Nat} {lock} : f.pointerParams[n]? = some (v, position) →
      (f.attrsAt position).byval = true → s.lockFor? env (.unbounded env.width) = some lock →
      Produced env f s v ((FoldedMetadata.unbounded env.width).materialize env.width
        env.config.spatialSafety env.config.temporalSafety lock)
  | alloca {allocated copies md} : s.func.kind? v = some (.alloca allocated copies) →
      (md.spatial.isSome = env.config.spatialSafety) →
      (∀ spatial, md.spatial = some spatial → ∃ past,
        s.func.AsVoidPtr (s.func.Trails v) (.value v) spatial.base ∧
        s.func.Made (s.func.Trails v)
          (.gep (.value v) [copies.getD (.const (.int env.width.bits 1))]) past ∧
        s.func.AsVoidPtr (s.func.Trails v) past spatial.bound) →
      (md.temporal.isSome = env.config.temporalSafety) →
      (∀ temporal, md.temporal = some temporal → s.frameKey = some temporal) →
      Produced env f s v md
  | load {ptr address record md} : s.func.kind? v = some (.load ptr) →
      s.func.AsVoidPtr (s.func.Trails v) ptr address →
      s.func.Made (s.func.Trails v) (env.callOf .metadataLoad [address]) record →
      env.Consists md (fun c => s.func.Made (s.func.Trails v)
        (.extract record (Routine.loadedField c))) →
      Produced env f s v md
  | derived {source md} : s.func.derivedFrom? v = some source →
      s.resolved? env source = some md → Produced env f s v md
  | select {cond ifTrue ifFalse onTrue onFalse md} :
      s.func.kind? v = some (.select cond ifTrue ifFalse) →
      s.resolved? env ifTrue = some onTrue → s.resolved? env ifFalse = some onFalse →
      (∀ c, (md.get? c).isSome = ((onTrue.get? c).isSome && (onFalse.get? c).isSome)) →
      (∀ c a b operand, onTrue.get? c = some a → onFalse.get? c = some b →
        md.get? c = some operand → s.func.Made (s.func.Trails v) (.select cond a b) operand) →
      Produced env f s v md
  | phi {incoming md} : s.func.kind? v = some (.phi incoming) →
      env.Consists md (fun _ operand =>
        ∃ edges, s.func.Made (s.func.Trails v) (.phi edges) operand) →
      Produced env f s v md
  | call {callee args sig md} : s.func.kind? v = some (.call callee args sig) →
      env.interface.isInstrumentedCall callee →
      env.Consists md (fun c => s.func.Made (s.func.Trails v) (env.slotLoad 0 c)) →
      Produced env f s v md
  | null {kind} : s.func.kind? v = some kind → kind.fromNowhere env.interface →
      Produced env f s v env.nullMetadata

end Weaving

end PointerGuard
