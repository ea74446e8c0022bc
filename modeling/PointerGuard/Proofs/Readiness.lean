import PointerGuard.Proofs.Successes
import PointerGuard.Proofs.ValidGrowth

/-!
# Propagation does not get stuck

Propagation for an instruction needs metadata for the pointers it is made from, and nothing else.
What keeps it going is that the records made so far are complete and have the right types, and so
have the lock of the globals and the key of the frame.
-/

namespace PointerGuard

open PointerGuard.Function Splice InstKind

variable {id : ValueId} {f : Function} {operand : Operand} {kind : InstKind} {b : BlockId}

/-! ### Where pointers come from -/

/-- Can the result of an instruction be a pointer with metadata? -/
def InstKind.givesPointers : InstKind → Bool
  | .alloca .. | .load _ | .gep .. | .cast .bitcast _ | .cast .intToPtr _ | .select .. | .phi _
  | .call .. | .extract .. => true
  | .cast .ptrToInt _ | .store .. | .binary .. | .icmp .. | .jump _ | .branch .. | .ret _
  | .unreachable => false

namespace Function

theorem isPointerValue_iff {v : ValueId} :
    f.isPointerValue v ↔ ∃ ty, f.operandType (.value v) = .ok ty ∧ ty.isPointer := by
  simp only [operandType_value_eq_ok, isPointerValue]
  cases f.valueType? v <;> simp

theorem Gives.operandType (h : f.Gives operand) :
    ∃ ty, f.operandType operand = .ok ty := by
  cases operand with
  | const c => exact ⟨c.ty, rfl⟩
  | value v =>
    obtain ⟨ty, htype, -⟩ := h v rfl
    exact ⟨ty, operandType_value_eq_ok.mpr htype⟩

/-- The pointers that an instruction goes through, makes its result from, or passes on. -/
def pointerSources (f : Function) (id : ValueId) : List Operand :=
  match f.kind? id with
  | some (.load ptr) => [ptr]
  | some (.store stored ptr) => ptr :: [stored].filter f.isPointerOperand
  | some (.gep source _) | some (.cast .bitcast source) =>
    if f.isPointerValue id then [source] else []
  | some (.select _ ifTrue ifFalse) => if f.isPointerValue id then [ifTrue, ifFalse] else []
  | some (.phi incoming) => if f.isPointerValue id then incoming.map Prod.fst else []
  | some (.call _ args _) => args.filter f.isPointerOperand
  | some (.ret (some returned)) => [returned].filter f.isPointerOperand
  | _ => []

theorem mem_operands_of_mem_pointerSources (hkind : f.kind? id = some kind)
    (h : operand ∈ f.pointerSources id) :
    operand ∈ kind.operands := by
  rw [pointerSources, hkind] at h
  cases kind with
  | load ptr => exact h
  | store stored ptr =>
    rcases List.mem_cons.mp h with rfl | h
    · simp [operands]
    · simp [operands, List.mem_singleton.mp (List.mem_of_mem_filter h)]
  | gep base indices => simp_all [operands]
  | cast op value => cases op <;> simp_all [operands]
  | select cond ifTrue ifFalse =>
    have hmem : operand ∈ [ifTrue, ifFalse] := by simp_all
    exact .tail _ hmem
  | phi incoming => simp_all [operands]
  | call callee args sig => exact .tail _ (List.mem_of_mem_filter h)
  | ret returned => cases returned <;> simp_all [operands]
  | _ => cases h

end Function

/-- The operands that are handed to another function. -/
def InstKind.passedOn : InstKind → List Operand
  | .call _ args _ => args
  | .ret returned => returned.toList
  | _ => []

theorem InstKind.passedOn_subset : kind.passedOn ⊆ kind.operands := by
  cases kind with
  | call callee args sig => exact List.subset_cons_self ..
  | ret returned => cases returned <;> simp [passedOn, operands]
  | _ => exact List.nil_subset _

/-- A function with a body whose instructions are where they say, and surroundings that ask for some
safety and agree on the width of pointers. -/
structure Env.Suits (env : Env) (f : Function) : Prop where
  homed : f.Homed
  blocks : 0 < f.blocks.size
  config : env.config.validate = .ok ()
  width : env.routines.width = env.width

namespace Weaving

open Edit

/-- A weaving whose records can be used: all of them are complete and have the right types, and so
have the lock of the globals and the key of the frame. -/
structure Ready (env : Env) (f : Function) (s : Weaving) : Prop where
  woven : s.Woven env Any f
  width : s.store.width = env.width
  record : ∀ {v md}, f.Has v → s.store.lookup v = some md → env.Typed s.func md
  lock : ∀ {lock}, s.globalLock = some lock → s.func.operandType lock = .ok .voidPtr
  frame : ∀ {keys}, s.frameKey = some keys →
    s.func.operandType keys.key = .ok env.width.keyTy ∧ s.func.operandType keys.lock = .ok .voidPtr

variable {env : Env} {own : ValueId → Prop} {s s' u : Weaving}
  {source returned ptr lock callee : Operand} {folded : FoldedMetadata}

/-! ### Steps keep a weaving ready -/

section

variable (step : Step env Any f own s u) (W : s.Woven env Any f)

include step W

theorem Step.lock_type
    (hlock : ∀ {lock}, s.globalLock = some lock → s.func.operandType lock = .ok .voidPtr)
    (h : u.globalLock = some lock) : u.func.operandType lock = .ok .voidPtr := by
  have K := step.kept W
  cases step with
  | lock _ _ htype =>
    cases h
    exact htype
  | other hfunc _ hsame => exact K.operandType (hlock (hsame ▸ h))
  | _ => exact K.operandType (hlock h)

private theorem Step.frame_type (hwidth : env.routines.width = env.width)
    (hframe : ∀ {keys}, s.frameKey = some keys →
      s.func.operandType keys.key = .ok env.width.keyTy ∧
        s.func.operandType keys.lock = .ok .voidPtr) {keys : Temporal}
        (h : u.frameKey = some keys) :
    u.func.operandType keys.key = .ok env.width.keyTy ∧
      u.func.operandType keys.lock = .ok .voidPtr := by
  have K := step.kept W
  cases step with
  | frame _ _ _ _ hlock hkey =>
    cases h
    exact ⟨hwidth ▸ hkey, hlock⟩
  | other hfunc _ _ hsame => grind
  | _ => exact (hframe h).imp K.operandType K.operandType

end

/-- Steps keep a weaving ready if the records they make are complete and have the right types. -/
theorem Steps.ready (S : Steps env Any f own s u) (R : s.Ready env f)
    (hwidth : env.routines.width = env.width)
    (hown : ∀ {v md}, own v → f.Has v → u.store.lookup v = some md → env.Typed u.func md) :
    u.Ready env f := by
  have K := S.kept R.woven
  have locks : (∀ {lock}, u.globalLock = some lock → u.func.operandType lock = .ok .voidPtr) ∧
      ∀ {keys}, u.frameKey = some keys → u.func.operandType keys.key = .ok env.width.keyTy ∧
        u.func.operandType keys.lock = .ok .voidPtr := by
    clear hown K
    induction S with
    | refl => exact ⟨R.lock, R.frame⟩
    | tail S step ih =>
      have W := Steps.woven S R.woven
      exact ⟨step.lock_type W ih.1, step.frame_type W hwidth ih.2⟩
  refine ⟨S.woven R.woven, K.width.trans R.width, fun {v md} hv hlookup => ?_, locks.1, locks.2⟩
  by_cases h : own v
  · exact hown h hv hlookup
  · rw [K.lookup h] at hlookup
    exact (R.record hv hlookup).mono K.operandType

/-! ### Resolving operands -/

/-- The metadata of an operand can be found. -/
def Resolvable (env : Env) (f : Function) (s : Weaving) : Operand → Prop
  | .value v => f.Has v ∧ ∃ md, s.store.lookup v = some md
  | .const c => ∃ folded, c.fold env.interface = .ok folded

theorem Resolvable.of_kept (K : Kept own s u) (h : Resolvable env f s operand) :
    Resolvable env f u operand := by
  cases operand with
  | const c => exact h
  | value v =>
    obtain ⟨hv, md, hlookup⟩ := h
    exact ⟨hv, md, K.record hlookup⟩

/-- Nothing has happened but requests at the top of the function. -/
structure Asks (env : Env) (f : Function) (s u : Weaving) : Prop where
  steps : Steps env Any f Never s u
  steady : Steady s u
  ready : u.Ready env f

theorem Asks.of_steps (E : env.Suits f) (R : s.Ready env f) (S : Steps env Any f Never s u)
    (hsteady : Steady s u) : Asks env f s u :=
  ⟨S, hsteady, S.ready R E.width fun h => h.elim⟩

theorem Asks.refl (R : s.Ready env f) : Asks env f s s := ⟨.refl, .refl, R⟩

section

variable (A : Asks env f s u)

include A

theorem Asks.trans (A' : Asks env f u s') : Asks env f s s' :=
  ⟨A.steps.trans A'.steps, A.steady.trans A'.steady, A'.ready⟩

theorem Asks.kept (R : s.Ready env f) : Kept Never s u :=
  A.steps.kept R.woven

theorem Asks.lookup_eq_none (h : s.store.lookup id = none) : u.store.lookup id = none := by
  rw [A.steady.store, h]

theorem Asks.deferred_eq : u.report.deferred = s.report.deferred := by
  rw [A.steady.report]

end

private theorem requestGlobalLock_succeeds (hblocks : 0 < s.func.blocks.size) :
    (requestGlobalLock env).Succeeds s fun _ _ => True := by
  obtain ⟨i, hlocate⟩ := exists_locate_prologue hblocks
  refine succeeds_get_bind ?_
  split
  · exact succeeds_pure trivial
  · refine .bind (succeeds_splice hlocate yields_call) fun lock _ _ _ => ?_
    exact succeeds_modify_bind (succeeds_pure trivial)

theorem materialize_succeeds (hblocks : 0 < s.func.blocks.size) :
    (materialize env folded).Succeeds s fun _ _ => True := by
  rw [materialize]
  split
  · exact .bind (requestGlobalLock_succeeds hblocks) fun _ _ _ _ => succeeds_pure trivial
  · exact succeeds_pure trivial

section

variable (E : env.Suits f) (R : s.Ready env f)

include E R

theorem func_blocks_pos : 0 < s.func.blocks.size := by
  rw [R.woven.grows.size_blocks]
  exact E.blocks

theorem exists_prologue : ∃ i, s.func.locate? .prologue = some (⟨0⟩, i) :=
  exists_locate_prologue (func_blocks_pos E R)

theorem succeeds_requestFrameKey :
    (requestFrameKey env).Succeeds s fun keys u =>
      Asks env f s u ∧ u.func.operandType keys.key = .ok env.width.keyTy ∧
        u.func.operandType keys.lock = .ok .voidPtr := by
  have hrun : (requestFrameKey env).Succeeds s fun _ _ => True := by
    obtain ⟨i, hlocate⟩ := exists_prologue E R
    refine succeeds_get_bind ?_
    split
    · exact succeeds_pure trivial
    · refine .bind (succeeds_splice (Q := fun _ _ => True) hlocate ?_) fun keys _ _ _ => ?_
      · -- the routine returns a structure of lock and key
        refine .bind yields_call fun pair r _ hpair => ?_
        refine .bind (yields_extract hpair.2 rfl) fun lock v _ hlock => ?_
        refine .bind (yields_extract (hlock.1.operandType_eq hpair.2) rfl) fun key w _ _ => ?_
        exact succeeds_pure trivial
      · exact succeeds_modify_bind (succeeds_pure trivial)
  refine hrun.mono fun keys u hrun _ => ?_
  obtain ⟨S, hkeys, hsteady⟩ := requestFrameKey_steps R.woven trivial hrun
  have A := Asks.of_steps E R S hsteady
  exact ⟨A, A.ready.frame hkeys⟩

theorem succeeds_materialize (hbase : folded.base.ty = .voidPtr)
    (hbound : folded.bound.ty = .voidPtr) :
    (materialize env folded).Succeeds s fun md u => Asks env f s u ∧ env.Typed u.func md := by
  refine (materialize_succeeds (func_blocks_pos E R)).mono fun md u hrun _ => ?_
  obtain ⟨S, ⟨lock, hlock, rfl⟩, hsteady⟩ := materialize_steps R.woven trivial hrun
  have A := Asks.of_steps E R S hsteady
  refine ⟨A, Env.typed_materialize hbase hbound ?_⟩
  rw [lockFor?] at hlock
  split at hlock
  · exact A.ready.lock hlock
  · cases hlock
    rfl

theorem succeeds_tryResolve (h : Resolvable env f s operand) :
    (tryResolve env operand).Succeeds s fun found u =>
      Asks env f s u ∧ ∃ md, found = some md ∧ env.Typed u.func md := by
  cases operand with
  | const c =>
    obtain ⟨folded, hfold⟩ := h
    obtain ⟨hbase, hbound⟩ := Constant.fold_types hfold
    refine .of_runs_bind (runs_ofExcept.mpr ⟨hfold, rfl⟩) ?_
    refine .bind (succeeds_materialize E R hbase hbound) fun md u _ hmd => succeeds_pure ?_
    exact ⟨hmd.1, md, rfl, hmd.2⟩
  | value v =>
    obtain ⟨hv, md, hlookup⟩ := h
    exact succeeds_get_bind (succeeds_pure ⟨.refl R, md, hlookup, R.record hv hlookup⟩)

theorem succeeds_resolve (h : Resolvable env f s operand) :
    (resolve env operand).Succeeds s fun _ u => Asks env f s u := by
  obtain ⟨found, u, hrun, A, md, rfl, -⟩ := succeeds_tryResolve E R h
  exact ⟨md, u, runs_resolve.mpr hrun, A⟩

theorem succeeds_tryResolveAll {operands : List Operand}
    (h : ∀ operand ∈ operands, Resolvable env f s operand) :
    (tryResolveAll env operands).Succeeds s fun found u =>
      Asks env f s u ∧ ∃ mds, found = some mds := by
  induction operands generalizing s with
  | nil => exact succeeds_pure ⟨.refl R, [], rfl⟩
  | cons operand rest ih =>
    refine .bind (succeeds_tryResolve E R (h operand (.head _)))
      fun found u _ hfound => ?_
    obtain ⟨A, md, rfl, -⟩ := hfound
    have hrest : ∀ operand ∈ rest, Resolvable env f u operand := fun operand hmem =>
      (h operand (.tail _ hmem)).of_kept (A.kept R)
    refine .bind (ih A.ready hrest) fun found w _ hothers => ?_
    obtain ⟨A', mds, rfl⟩ := hothers
    exact succeeds_pure ⟨A.trans A', md :: mds, rfl⟩

end

/-! ### One instruction -/

/-- A value has been given what it needs: a record if it is a pointer. Nothing was deferred. -/
structure Served (env : Env) (f : Function) (id : ValueId) (s u : Weaving) : Prop where
  deferred : u.report.deferred = s.report.deferred
  recorded : f.isPointerValue id → ∃ md, u.store.lookup id = some md
  typed : ∀ {md}, u.store.lookup id = some md → env.Typed u.func md

theorem Served.of_not_pointer (hpointer : ¬f.isPointerValue id) (hnone : u.store.lookup id = none)
    (hreport : u.report.deferred = s.report.deferred) : Served env f id s u :=
  ⟨hreport, fun h => absurd h hpointer, fun {md} h => by rw [hnone] at h; cases h⟩

theorem Served.ready (h : Served env f id s u) (R : s.Ready env f) (E : env.Suits f)
    (S : Steps env Any f own s u) (hown : ∀ v, own v → v = id) : u.Ready env f := by
  refine S.ready R E.width fun {v md} hv _ hlookup => ?_
  obtain rfl := hown v hv
  exact h.typed hlookup

theorem exists_place (E : env.Suits f) (W : s.Woven env Any f) (hx : id ∈ f.instsOf b) :
    ∃ i, s.func.locate? (.before id) = some (b, i) ∧
      s.func.locate? (.after id) = some (b, i + 1) := by
  obtain ⟨inst, hinst⟩ := W.tidy.listed hx
  obtain rfl := E.homed b id inst hx hinst
  have hinst' : s.func.inst? id = some inst := by
    rw [inst?_congr (W.grows.value?_eq (index_lt_of_inst? hinst).2), hinst]
  exact exists_locate hinst' (W.grows.mem_instsOf W.tidy hx)

theorem succeeds_serve {md : PointerMetadata} (E : env.Suits f) (hwidth : u.store.width = env.width)
    (hnone : u.store.lookup id = none) (hmd : env.Typed u.func md)
    (hreport : u.report.deferred = s.report.deferred) :
    (associate id md).Succeeds u fun _ w => Served env f id s w := by
  refine (succeeds_associate E.config hwidth hmd hnone).mono fun _ w _ hw => ?_
  obtain ⟨hlookup, hfunc, hsame⟩ := hw
  refine ⟨by rw [hsame, hreport], fun _ => ⟨md, hlookup⟩, fun {md'} hlookup' => ?_⟩
  cases hlookup.symm.trans hlookup'
  rwa [hfunc]

section

variable {ty : Ty} (E : env.Suits f) (R : s.Ready env f) (hx : id ∈ f.instsOf b)
  (hnone : s.store.lookup id = none)

include E R hx hnone

theorem succeeds_propagateAlloca {copies : Option Operand}
    (htype : s.func.operandType (.value id) = .ok ty) (hpointer : ty.isPointer) :
    (propagateAlloca env id ty copies).Succeeds s fun _ u => Served env f id s u := by
  have keys : (if env.config.temporalSafety then some <$> requestFrameKey env
      else pure none).Succeeds s fun temporal u => Asks env f s u ∧
        temporal.isSome = env.config.temporalSafety ∧ ∀ keys, temporal = some keys →
          u.func.operandType keys.key = .ok env.width.keyTy ∧
            u.func.operandType keys.lock = .ok .voidPtr := by
    refine succeeds_ite (fun hon => .map ?_) fun hoff => ?_
    · grind [Succeeds.mono, succeeds_requestFrameKey]
    · exact succeeds_pure ⟨.refl R, by simp [hoff], by simp⟩
  rw [propagateAlloca_eq]
  refine .bind keys fun temporal u _ hu => ?_
  obtain ⟨A, hsome, hkeys⟩ := hu
  obtain ⟨i, -, hlocate⟩ := exists_place E A.ready.woven hx
  have bounds : (if env.config.spatialSafety then
      splice (.after id) (some <$> allocaBounds env id ty copies) else pure none).Succeeds u
        fun spatial w => ∃ r : Splice, w = { u with func := r.func } ∧
          Extends ⟨u.func, b, i + 1⟩ r ∧ spatial.isSome = env.config.spatialSafety ∧
          ∀ bounds, spatial = some bounds → TypedBounds r bounds := by
    refine succeeds_ite (fun hon => succeeds_splice hlocate (.map ?_)) fun hoff => ?_
    · refine (succeeds_allocaBounds ((A.kept R).operandType htype) hpointer).mono
        fun bounds r _ h => ⟨h.1, by simp [hon], ?_⟩
      rintro _ ⟨⟩
      exact h.2
    · exact succeeds_pure ⟨⟨u.func, b, i + 1⟩, rfl, fun _ _ h => h, by simp [hoff], by simp⟩
  refine .bind bounds fun spatial w _ hw => ?_
  obtain ⟨r, rfl, hextends, hsome', hbounds⟩ := hw
  have hmd : env.Typed r.func ⟨spatial, temporal⟩ := by
    refine .of_halves hsome' hsome (fun bounds h => hbounds bounds h) fun keys h => ?_
    exact (hkeys keys h).imp hextends.operandType_eq hextends.operandType_eq
  exact succeeds_count_bind
    (succeeds_serve E A.ready.width (A.lookup_eq_none hnone) hmd A.deferred_eq)

theorem succeeds_propagateLoad (htype : s.func.operandType ptr = .ok ty) (hpointer : ty.isPointer) :
    (propagateLoad env id ptr).Succeeds s fun _ u => Served env f id s u := by
  obtain ⟨i, -, hlocate⟩ := exists_place E R.woven hx
  refine .bind (succeeds_splice hlocate (Q := fun md r => env.Typed r.func md) ?_)
    fun md w _ hw => ?_
  · refine .bind (succeeds_toVoidPtr htype hpointer) fun address r _ _ => ?_
    refine .bind yields_call fun record r _ hrecord => ?_
    exact (succeeds_extractRecord E.width hrecord.2).mono fun md r _ h => h.2
  · obtain ⟨r, rfl, hmd⟩ := hw
    exact succeeds_count_bind (succeeds_serve E R.width hnone hmd rfl)

omit hx in
theorem succeeds_propagateDerived (hsource : Resolvable env f s source) :
    (propagateDerived env id source).Succeeds s fun done u => done = true ∧
      Served env f id s u := by
  refine .bind (succeeds_tryResolve E R hsource) fun found u _ hfound => ?_
  obtain ⟨A, md, rfl, hmd⟩ := hfound
  exact (succeeds_serve E A.ready.width (A.lookup_eq_none hnone) hmd A.deferred_eq).done

theorem succeeds_propagateSelect {cond ifTrue ifFalse : Operand}
    (htrue : Resolvable env f s ifTrue) (hfalse : Resolvable env f s ifFalse) :
    (propagateSelect env id cond ifTrue ifFalse).Succeeds s fun done u =>
      done = true ∧ Served env f id s u := by
  refine .bind (succeeds_tryResolve E R htrue) fun onTrue u _ honTrue => ?_
  obtain ⟨A, onTrue, rfl, htrue'⟩ := honTrue
  refine .bind (succeeds_tryResolve E A.ready (hfalse.of_kept (A.kept R))) fun onFalse w _ h => ?_
  obtain ⟨A', onFalse, rfl, hfalse'⟩ := h
  have htrue' := htrue'.mono (A'.kept A.ready).operandType
  have B := A.trans A'
  obtain ⟨i, -, hlocate⟩ := exists_place E B.ready.woven hx
  refine .bind (succeeds_splice hlocate (succeeds_selectComponents htrue' hfalse'))
    fun md t _ ht => ?_
  obtain ⟨r, rfl, -, hmd⟩ := ht
  exact .done (succeeds_serve E B.ready.width (B.lookup_eq_none hnone) hmd B.deferred_eq)

theorem succeeds_propagatePhi :
    (propagatePhi env id).Succeeds s fun _ u => Served env f id s u := by
  obtain ⟨i, -, hlocate⟩ := exists_place E R.woven hx
  refine .bind (succeeds_splice hlocate succeeds_placeholderPhis) fun phis w _ hw => ?_
  obtain ⟨r, rfl, -, hmd⟩ := hw
  refine .bind (succeeds_serve (s := s) E R.width hnone hmd rfl) fun _ w _ hw => ?_
  exact succeeds_modify_bind (succeeds_modify ⟨hw.deferred, hw.recorded, hw.typed⟩)

omit hx in
theorem succeeds_associateNull (hpointer : f.isPointerValue id ↔ ty.isPointer) :
    (if ty.isPointer then (do associate id env.nullMetadata; return true)
      else (return true) : Edit Weaving Bool).Succeeds s fun done u =>
        done = true ∧ Served env f id s u := by
  refine succeeds_ite (fun hty => ?_) fun hty => ?_
  · exact (succeeds_serve E R.width hnone Env.typed_null rfl).done
  · exact succeeds_pure ⟨rfl, .of_not_pointer (mt hpointer.mp hty) hnone rfl⟩

/-! ### Calls and returns -/

omit R hnone in
/-- A frame is put around a call wherever records are at hand for the arguments. -/
theorem succeeds_marshalCall (frame : ShadowFrame) (mds : List PointerMetadata) (R : u.Ready env f)
    (hnone' : u.store.lookup id = none) (hreport : u.report.deferred = s.report.deferred)
    (hreturns : f.isPointerValue id ↔ frame.returnsPointer) :
    (marshalCall env id frame mds).Succeeds u fun _ w => Served env f id s w := by
  refine succeeds_ite (fun _ => ?_) fun hunneeded => ?_
  · obtain ⟨i, hlocate, -⟩ := exists_place E R.woven hx
    refine .bind (succeeds_splice hlocate (Q := fun _ r => f.Grows env.routines Any r.func) ?_)
      fun _ w _ hw => ?_
    · refine .bind yields_call fun _ v hcall _ => succeeds_storeSlots.mono fun _ r hstores _ => ?_
      -- the function has grown by these insertions
      have start : env.Adds Any Any ⟨u.func, b, i⟩ ⟨u.func, b, i⟩ := .refl
      obtain ⟨A, -⟩ := start.call hcall trivial fun _ _ => .inl trivial
      have B := A.storeSlots (fun _ _ => trivial) (fun _ _ _ _ _ => .inl trivial) hstores
      exact R.woven.grows.trans (B.grows (fun _ h => h.1) (place_before hlocate)).1
    obtain ⟨r, rfl, G⟩ := hw
    have W : Woven env Any f { u with func := r.func } := ⟨R.woven.tidy, G⟩
    obtain ⟨j, -, hlocate'⟩ := exists_place E W hx
    refine .bind (succeeds_splice hlocate' (succeeds_closeFrame E.width)) fun result t _ ht => ?_
    obtain ⟨r, rfl, -, hsome, hmd⟩ := ht
    cases result with
    | none =>
      refine succeeds_modify (.of_not_pointer (fun hpointer => ?_) hnone' hreport)
      rw [hreturns.mp hpointer] at hsome
      cases hsome
    | some md =>
      have hserve := succeeds_serve (s := s) (u := { u with func := r.func }) E R.width hnone'
        (hmd md rfl) hreport
      exact .bind hserve fun _ t _ ht => succeeds_modify ⟨ht.deferred, ht.recorded, ht.typed⟩
  · refine succeeds_pure (.of_not_pointer (fun hpointer => absurd ?_ hunneeded) hnone' hreport)
    simp [ShadowFrame.isNeeded, ShadowFrame.slotCount, hreturns.mp hpointer]

/-- A call is served if the pointers among its arguments can be resolved. -/
theorem succeeds_propagateCall {args : List Operand} (htype : f.operandType (.value id) = .ok ty)
    (hargs : ∀ arg ∈ args, ∃ ty, f.operandType arg = .ok ty)
    (hsources : ∀ arg ∈ args.filter f.isPointerOperand, Resolvable env f s arg) :
    (propagateCall env id ty callee args).Succeeds s fun done u =>
      done = true ∧ Served env f id s u := by
  have hpointer : f.isPointerValue id ↔ ty.isPointer := by grind [isPointerValue_iff]
  refine succeeds_ite (fun _ => ?_) fun _ => ?_
  · refine succeeds_get_bind ?_
    have htypes : ∀ arg ∈ args, ∃ ty, s.func.operandType arg = .ok ty ∧
        f.operandType arg = .ok ty :=
      fun arg harg => (hargs arg harg).imp fun _ h => ⟨R.woven.grows.operandType_eq h, h⟩
    obtain ⟨frame, hframe⟩ := ShadowFrame.exists_ofCall ty fun arg harg =>
      (htypes arg harg).imp fun _ h => h.1
    obtain ⟨hpositions, hreturns⟩ := ShadowFrame.ofCall_eq_ok hframe
    refine .of_runs_bind (runs_ofExcept.mpr ⟨hframe, rfl⟩) ?_
    -- what is a pointer now was one to begin with
    have hfilter : args.filter s.func.isPointerOperand = args.filter f.isPointerOperand := by
      refine List.filter_congr fun arg harg => ?_
      obtain ⟨ty, h, h'⟩ := htypes arg harg
      rw [isPointerOperand_eq h, isPointerOperand_eq h']
    rw [hpositions, hfilter]
    refine .bind (succeeds_tryResolveAll E R hsources) fun found u _ hfound => ?_
    obtain ⟨A, mds, rfl⟩ := hfound
    have hmarshal := succeeds_marshalCall E hx frame mds A.ready
      (A.lookup_eq_none hnone) A.deferred_eq (by rw [hpointer, hreturns])
    exact hmarshal.done
  · exact succeeds_associateNull E R hnone hpointer

omit hnone in
private theorem succeeds_propagateReturn (htype : f.operandType returned = .ok ty)
    (hsource : ty.isPointer → Resolvable env f s returned) :
    (propagateReturn env id returned).Succeeds s fun done u =>
      done = true ∧ u.report.deferred = s.report.deferred ∧ u.store = s.store := by
  have htype' := R.woven.grows.operandType_eq htype
  refine .of_runs_bind (runs_operandType.mpr ⟨htype', rfl⟩) ?_
  refine succeeds_ite (fun hpointer => ?_) fun _ => succeeds_pure ⟨rfl, rfl, rfl⟩
  refine .bind (succeeds_tryResolve E R (hsource hpointer)) fun found u _ hfound => ?_
  obtain ⟨A, md, rfl, -⟩ := hfound
  obtain ⟨i, hlocate, -⟩ := exists_place E A.ready.woven hx
  refine .bind (succeeds_splice hlocate succeeds_storeSlot) fun _ w _ hw => ?_
  obtain ⟨r, rfl, -⟩ := hw
  exact succeeds_pure ⟨rfl, A.deferred_eq, A.steady.store⟩

/-! ### Any instruction -/

/-- Propagation for an instruction succeeds and serves it, if its pointer sources can be resolved.
Those of a phi are not needed yet. -/
theorem succeeds_propagate (hkind : f.kind? id = some kind)
    (halloca : ∀ allocated copies, kind = .alloca allocated copies → f.isPointerValue id)
    (hresult : f.isPointerValue id → kind.givesPointers)
    (hload : ∀ ptr, kind = .load ptr → f.isPointerOperand ptr)
    (hpassed : ∀ operand ∈ kind.passedOn, ∃ ty, f.operandType operand = .ok ty)
    (hsources : kind.isPhi = false → ∀ operand ∈ f.pointerSources id, Resolvable env f s operand) :
    (propagate env id).Succeeds s fun done u => done = true ∧ Served env f id s u := by
  have hindex := (index_lt_of_kind? hkind).2
  obtain ⟨⟨_, block, inserted⟩, ty, rfl, hvalue⟩ := value?_of_kind? hkind
  have hvalue' : s.func.value? id = _ := (R.woven.grows.value?_eq hindex).trans hvalue
  have htype : f.operandType (.value id) = .ok ty := by
    rw [operandType_value_eq_ok, valueType?, hvalue, Option.map_some]
  have hiff : f.isPointerValue id ↔ ty.isPointer := by
    rw [isPointerValue, valueType?, hvalue, Option.map_some]
  have htype' := R.woven.grows.operandType_eq htype
  have nothing : ¬f.isPointerValue id →
      (pure true : Edit Weaving Bool).Succeeds s fun done u => done = true ∧ Served env f id s u :=
    fun h => succeeds_pure ⟨rfl, .of_not_pointer h hnone rfl⟩
  refine succeeds_get_bind ?_
  simp only [hvalue']
  cases ‹InstKind› with
  | alloca allocated copies =>
    have hpointer := halloca _ _ rfl
    exact (succeeds_propagateAlloca E R hx hnone htype' (hiff.mp hpointer)).done
  | load ptr =>
    refine succeeds_ite (fun hty => ?_) fun hty => nothing (mt hiff.mp hty)
    obtain ⟨ty', hptr, hpointer⟩ := isPointerOperand_iff.mp (hload ptr rfl)
    exact (succeeds_propagateLoad E R hx hnone (R.woven.grows.operandType_eq hptr)
      hpointer).done
  | gep base indices =>
    refine succeeds_ite (fun hty => ?_) fun hty => nothing (mt hiff.mp hty)
    exact succeeds_propagateDerived E R hnone (hsources rfl base
      (by simp [pointerSources, hkind, hiff.mpr hty]))
  | cast op value =>
    cases op with
    | bitcast =>
      refine succeeds_ite (fun hty => ?_) fun hty => nothing (mt hiff.mp hty)
      exact succeeds_propagateDerived E R hnone (hsources rfl value
        (by simp [pointerSources, hkind, hiff.mpr hty]))
    | intToPtr => exact succeeds_associateNull E R hnone hiff
    | ptrToInt => exact nothing fun h => absurd (hresult h) Bool.false_ne_true
  | select cond ifTrue ifFalse =>
    refine succeeds_ite (fun hty => ?_) fun hty => nothing (mt hiff.mp hty)
    have hmem : ∀ arm ∈ [ifTrue, ifFalse], arm ∈ f.pointerSources id := by
      simp [pointerSources, hkind, hiff.mpr hty]
    exact succeeds_propagateSelect E R hx hnone
      (hsources rfl _ (hmem _ (by simp))) (hsources rfl _ (hmem _ (by simp)))
  | phi incoming =>
    refine succeeds_ite (fun hty => ?_) fun hty => nothing (mt hiff.mp hty)
    exact (succeeds_propagatePhi E R hx hnone).done
  | call callee args sig =>
    refine succeeds_propagateCall E R hx hnone htype hpassed fun arg harg => ?_
    exact hsources rfl arg (by simpa [pointerSources, hkind] using harg)
  | extract aggregate index => exact succeeds_associateNull E R hnone hiff
  | ret returned =>
    have hnot : ¬f.isPointerValue id := fun h => absurd (hresult h) Bool.false_ne_true
    cases returned with
    | none => exact nothing hnot
    | some returned =>
      obtain ⟨ty', hreturned⟩ := hpassed returned (.head _)
      refine (succeeds_propagateReturn E R hx hreturned fun hpointer => ?_).mono
        fun done u _ h => ⟨h.1, .of_not_pointer hnot (by rw [h.2.2, hnone]) h.2.1⟩
      apply hsources rfl returned
      simp [pointerSources, hkind, isPointerOperand_eq hreturned, hpointer]
  | store | binary | icmp | jump | branch | unreachable =>
    exact nothing fun h => absurd (hresult h) Bool.false_ne_true

end

end Weaving

end PointerGuard
