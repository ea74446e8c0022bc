import PointerGuard.Proofs.Gathering

/-!
# Edits that succeed

`Edit.Succeeds` says that an edit succeeds with a result and a state as they should be. Insertions
fail only for a place that does not exist or an operand of a wrong type, so the rules for insertions
keep account of types.
-/

namespace PointerGuard

open Weaving

variable {env : Env} {g f : Function} {lock operand : Operand} {folded : FoldedMetadata}
  {md : PointerMetadata} {slot : Nat} {id record param alloca : ValueId} {α β : Type}

/-! ### Success and what it leaves -/

namespace Edit

variable {σ α β : Type} {s : σ} {edit x y : Edit σ α} {Q R : α → σ → Prop} {P : β → σ → Prop}
  {I : σ → Prop} {change : σ → σ}

/-- The edit succeeds, with a result and a state that satisfy `Q`. -/
def Succeeds (edit : Edit σ α) (s : σ) (Q : α → σ → Prop) : Prop :=
  ∃ a s', edit.Runs s a s' ∧ Q a s'

namespace Succeeds

theorem mono (h : edit.Succeeds s Q) (hQ : ∀ a s', edit.Runs s a s' → Q a s' → R a s') :
    edit.Succeeds s R := by
  obtain ⟨a, s', hrun, ha⟩ := h
  exact ⟨a, s', hrun, hQ a s' hrun ha⟩

theorem bind {f : α → Edit σ β} (h : x.Succeeds s Q)
    (hf : ∀ a t, x.Runs s a t → Q a t → (f a).Succeeds t P) : (x >>= f).Succeeds s P := by
  obtain ⟨a, t, hx, ha⟩ := h
  obtain ⟨b, s', hb, hP⟩ := hf a t hx ha
  exact ⟨b, s', runs_bind.mpr ⟨a, t, hx, hb⟩, hP⟩

theorem of_runs_bind {f : α → Edit σ β} {a : α} {t : σ} (hx : x.Runs s a t)
    (h : (f a).Succeeds t P) : (x >>= f).Succeeds s P := by
  obtain ⟨b, s', hb, hP⟩ := h
  exact ⟨b, s', runs_bind.mpr ⟨a, t, hx, hb⟩, hP⟩

theorem map {f : α → β} (h : x.Succeeds s fun a s' => P (f a) s') : (f <$> x).Succeeds s P := by
  obtain ⟨a, s', hx, ha⟩ := h
  exact ⟨f a, s', runs_map.mpr ⟨a, hx, rfl⟩, ha⟩

end Succeeds

theorem succeeds_pure {a : α} (h : Q a s) : (pure a : Edit σ α).Succeeds s Q :=
  ⟨a, s, runs_pure.mpr ⟨rfl, rfl⟩, h⟩

/-- An edit that succeeds may be reported as done. -/
theorem Succeeds.done (h : x.Succeeds s fun _ s' => I s') :
    (x >>= fun _ => pure true).Succeeds s fun done s' => done = true ∧ I s' :=
  h.bind fun _ _ _ hs' => succeeds_pure ⟨rfl, hs'⟩

theorem succeeds_get_bind {f : σ → Edit σ β} (h : (f s).Succeeds s P) :
    (get >>= f).Succeeds s P := by
  obtain ⟨b, s', hrun, hb⟩ := h
  exact ⟨b, s', runs_get_bind.mpr hrun, hb⟩

theorem succeeds_modify_bind {f : PUnit → Edit σ β} (h : (f ⟨⟩).Succeeds (change s) P) :
    (modify change >>= f).Succeeds s P :=
  .of_runs_bind (runs_modify.mpr rfl) h

theorem succeeds_modify {Q : PUnit → σ → Prop} (h : Q ⟨⟩ (change s)) :
    (modify change : Edit σ PUnit).Succeeds s Q :=
  ⟨⟨⟩, change s, runs_modify.mpr rfl, h⟩

theorem succeeds_ite {c : Prop} [Decidable c] (hx : c → x.Succeeds s Q) (hy : ¬c → y.Succeeds s Q) :
    (if c then x else y).Succeeds s Q := by
  split
  · exact hx ‹_›
  · exact hy ‹_›

/-- A loop succeeds if each of its rounds does, from wherever the rounds before it lead. -/
theorem succeeds_forM {body : α → Edit σ PUnit} {items : List α} (I : List α → σ → Prop)
    (start : I items s)
    (step : ∀ a rest t, I (a :: rest) t → (body a).Succeeds t fun _ t' => I rest t') :
    (items.forM body).Succeeds s fun _ s' => I [] s' := by
  induction items generalizing s with
  | nil => exact succeeds_pure start
  | cons a rest ih =>
    obtain ⟨_, t, hbody, ht⟩ := step a rest s start
    obtain ⟨_, s', hrest, hs'⟩ := ih ht
    exact ⟨⟨⟩, s', runs_forM_cons.mpr ⟨t, hbody, hrest⟩, hs'⟩

end Edit

/-! ### Types of records -/

/-- The components a record has are of their types. -/
def PointerMetadata.TypedIn (md : PointerMetadata) (w : PointerWidth) (g : Function) : Prop :=
  ∀ c operand, md.get? c = some operand → g.operandType operand = .ok (c.type w)

/-- A record has the components that are tracked, and each of them has its type. -/
def Env.Typed (env : Env) (f : Function) (md : PointerMetadata) : Prop :=
  env.Consists md fun c operand => f.operandType operand = .ok (c.type env.width)

theorem Env.Typed.operandType {c : Component} (h : env.Typed f md)
    (hget : md.get? c = some operand) : f.operandType operand = .ok (c.type env.width) := by
  have hc := h c
  split at hc
  · grind
  · rw [hc] at hget
    cases hget

theorem Env.Typed.mono (h : env.Typed f md)
    (hkept : ∀ {operand ty}, f.operandType operand = .ok ty → g.operandType operand = .ok ty) :
    env.Typed g md :=
  Kept.consists (fun _ _ htype => hkept htype) h

/-- It is enough to know the types of the components a complete record has. -/
theorem Env.Complete.typed (h : env.Complete md) (htyped : md.TypedIn env.width f) :
    env.Typed f md := by
  intro c
  have hc := h c
  split at hc
  · rename_i htracks
    obtain ⟨operand, hget, -⟩ := hc
    rw [if_pos htracks]
    exact ⟨operand, hget, htyped c operand hget⟩
  · rename_i htracks
    rw [if_neg htracks]
    exact hc

section

variable (hbase : folded.base.ty = .voidPtr) (hbound : folded.bound.ty = .voidPtr)

include hbase hbound

/-- The metadata of a constant is of the right types if its bounds and the lock of globals are. -/
theorem FoldedMetadata.typedIn_materialize {w : PointerWidth} {spatial temporal : Bool}
    (hlock : g.operandType lock = .ok .voidPtr) :
    (folded.materialize w spatial temporal lock).TypedIn w g := by
  intro c operand hget
  cases c with
  | base | bound =>
    cases spatial <;> cases hget
    all_goals first | exact congrArg _ hbase | exact congrArg _ hbound
  | key =>
    cases temporal <;> cases hget
    rfl
  | lock =>
    cases temporal <;> cases hget
    cases folded.lock with
    | null => rfl
    | global => exact hlock

theorem Env.typed_materialize (hlock : f.operandType lock = .ok .voidPtr) :
    env.Typed f (folded.materialize env.width env.config.spatialSafety env.config.temporalSafety
      lock) :=
  (env.complete_materialize folded lock).typed (folded.typedIn_materialize hbase hbound hlock)

end

theorem Env.nullMetadata_eq : env.nullMetadata = FoldedMetadata.null.materialize env.width
    env.config.spatialSafety env.config.temporalSafety (.const .nullVoidPtr) := rfl

theorem Env.typed_null : env.Typed f env.nullMetadata := by
  rw [nullMetadata_eq]
  exact typed_materialize rfl rfl rfl

theorem Constant.ty_asVoidPtr (c : Constant) : c.asVoidPtr.ty = .voidPtr := by
  rw [asVoidPtr]
  split
  · rename_i hc
    simpa [Ty.isVoidPtr] using hc
  · rfl

/-- Whatever constants have metadata, their bounds are taken as `i8*`. -/
theorem Constant.fold_types {i : Interface} {c : Constant} (h : c.fold i = .ok folded) :
    folded.base.ty = .voidPtr ∧ folded.bound.ty = .voidPtr := by
  fun_induction Constant.fold i c with
  | case1 | case3 | case5 | case8 | case11 =>
    cases h
    exact ⟨rfl, rfl⟩
  | case7 id ty =>
    simp only [Outcome.bind_eq_ok, Outcome.ite_eq_ok, Outcome.pure_eq_ok] at h
    obtain ⟨info, -, ⟨-, rfl⟩ | ⟨-, rfl⟩⟩ := h
    · exact ⟨rfl, rfl⟩
    · exact ⟨ty_asVoidPtr _, ty_asVoidPtr _⟩
  | case9 _ _ _ ih | case10 _ _ ih => exact ih h
  | case2 | case4 | case6 | case12 | case13 | case14 => cases h

/-! ### Insertions -/

namespace Splice

open Edit ShadowFrame

variable {s : Splice} {r : Routine} {args : List Operand} {cond : Operand} {ty ty' : Ty}
  {make : Component → Edit Splice ValueId}

/-- The edit succeeds with a value of a type. -/
def Yields (edit : Edit Splice ValueId) (s : Splice) (ty : Ty) : Prop :=
  edit.Succeeds s fun x u => Extends s u ∧ u.func.operandType (.value x) = .ok ty

theorem yields_insert (kind : InstKind) (ty : Ty) : Yields (insert kind ty) s ty := by
  have hrun : (insert kind ty).Runs s s.func.nextValue (s.push kind ty) :=
    runs_insert.mpr ⟨rfl, rfl⟩
  have start : Adds Any Any s s := .refl
  obtain ⟨-, E, N⟩ := start.insert hrun trivial fun _ _ => .inl trivial
  exact ⟨_, _, hrun, E, N.operandType⟩

theorem yields_call : Yields (env.routines.call r args) s (env.routines.signature r).ret :=
  yields_insert _ _

theorem yields_extract {index : Nat} (htype : s.func.operandType operand = .ok ty)
    (helement : ty.element? index = some ty') : Yields (Splice.extract operand index) s ty' := by
  have hrun : (Splice.operandType operand).Runs s ty s := runs_operandType.mpr ⟨htype, rfl⟩
  refine .of_runs_bind hrun ?_
  rw [helement]
  exact yields_insert _ _

theorem yields_select {ifTrue ifFalse : Operand} (htype : s.func.operandType ifTrue = .ok ty) :
    Yields (Splice.select cond ifTrue ifFalse) s ty := by
  have hrun : (Splice.operandType ifTrue).Runs s ty s := runs_operandType.mpr ⟨htype, rfl⟩
  exact .of_runs_bind hrun (yields_insert _ _)

theorem succeeds_toVoidPtr (htype : s.func.operandType operand = .ok ty) (hpointer : ty.isPointer) :
    (toVoidPtr operand).Succeeds s fun result u =>
      Extends s u ∧ u.func.operandType result = .ok .voidPtr := by
  have hrun : (Splice.operandType operand).Runs s ty s := runs_operandType.mpr ⟨htype, rfl⟩
  refine .of_runs_bind hrun ?_
  simp only [hpointer, if_true]
  refine succeeds_ite (fun hvoid => ?_) fun _ => ?_
  · refine succeeds_pure ⟨fun _ _ h => h, ?_⟩
    rw [htype, (by simpa [Ty.isVoidPtr] using hvoid : ty = .voidPtr)]
  · split
    · exact succeeds_pure ⟨fun _ _ h => h, rfl⟩
    · exact succeeds_pure ⟨fun _ _ h => h, rfl⟩
    · exact .bind (yields_insert _ _) fun x u _ hx => succeeds_pure hx

/-! ### Insertions that make a record -/

/-- The first half of a record has the types it should have. -/
def TypedBounds (u : Splice) (bounds : Spatial) : Prop :=
  u.func.operandType bounds.base = .ok .voidPtr ∧ u.func.operandType bounds.bound = .ok .voidPtr

theorem succeeds_tracked {on : Bool} {half : Edit Splice α} {P : Splice → α → Prop}
    (h : half.Succeeds s fun a u => Extends s u ∧ P u a) :
    (if on then some <$> half else pure none).Succeeds s fun found u =>
      Extends s u ∧ found.isSome = on ∧ ∀ a, found = some a → P u a := by
  refine succeeds_ite (fun hon => .map ?_) fun hoff => ?_
  · grind
  · exact succeeds_pure ⟨fun _ _ h => h, by simp [hoff], by simp⟩

/-- One value after another, of the types they should have. -/
theorem succeeds_each {components : List Component} {type : Component → Ty}
    (hmake : ∀ c ∈ components, ∀ u, Extends s u → Yields (make c) u (type c)) :
    (each components make).Succeeds s fun results u => Extends s u ∧
      ∀ c x, (c, x) ∈ results → u.func.operandType (.value x) = .ok (type c) := by
  induction components generalizing s with
  | nil => exact ⟨[], s, runs_each_nil.mpr ⟨rfl, rfl⟩, fun _ _ h => h, by simp⟩
  | cons c rest ih =>
    obtain ⟨x, u, hx, E, htype⟩ := hmake c (.head _) s fun _ _ h => h
    obtain ⟨results, v, hrest, E', htypes⟩ :=
      ih fun c hc v E' => hmake c (.tail _ hc) v (E.trans E')
    refine ⟨(c, x) :: results, v, runs_each_cons.mpr ⟨x, u, results, hx, hrest, rfl⟩,
      E.trans E', ?_⟩
    intro c' x' h
    rcases List.mem_cons.mp h with e | h
    · cases e
      exact E'.operandType_eq htype
    · exact htypes c' x' h

/-- A record is made from values of the right types for all components that are tracked. -/
theorem succeeds_record
    (hmake : ∀ c ∈ env.components, ∀ u, Extends s u → Yields (make c) u (c.type env.width)) :
    (each env.components make).Succeeds s fun results u =>
      Extends s u ∧ env.Typed u.func (recordOf results) :=
  (succeeds_each hmake).mono fun _ _ hrun h =>
    ⟨h.1, Env.consists_recordOf (keys_of_runs_each hrun) h.2⟩

theorem succeeds_selectComponents {onTrue onFalse : PointerMetadata}
    (htrue : env.Typed s.func onTrue) (hfalse : env.Typed s.func onFalse) :
    (selectComponents cond onTrue onFalse).Succeeds s fun md u =>
      Extends s u ∧ env.Typed u.func md := by
  -- the two records have the same components
  rw [selectComponents_eq env.width, htrue.isSome_spatial, htrue.isSome_temporal,
    hfalse.isSome_spatial, hfalse.isSome_temporal, Bool.and_self,
      Bool.and_self, ← env.components_eq]
  refine .map (succeeds_record fun c hc u E => yields_select (E.operandType_eq ?_))
  exact htrue.operandType (PointerMetadata.get?_component (htrue.parts_eq ▸ hc) env.width)

theorem succeeds_placeholderPhis :
    (placeholderPhis env).Succeeds s fun phis u =>
      Extends s u ∧ env.Typed u.func (placeholderRecord phis.1 phis.2) := by
  rw [placeholderPhis_eq]
  exact .map (succeeds_record fun c _ _ _ => yields_insert (.phi []) (c.type env.width))

theorem succeeds_allocaBounds {copies : Option Operand}
    (htype : s.func.operandType (.value alloca) = .ok ty) (hpointer : ty.isPointer) :
    (allocaBounds env alloca ty copies).Succeeds s fun bounds u =>
      Extends s u ∧ TypedBounds u bounds := by
  refine .bind (succeeds_toVoidPtr htype hpointer) fun base u _ hbase => ?_
  refine .bind (yields_insert _ ty) fun past v _ hpast => ?_
  refine .bind (succeeds_toVoidPtr hpast.2 hpointer) fun bound w _ hbound => succeeds_pure ?_
  have E := hpast.1.trans hbound.1
  exact ⟨hbase.1.trans E, E.operandType_eq hbase.2, hbound.2⟩

/-! ### Insertions for shadow frames -/

theorem succeeds_storeSlot :
    (storeSlot env.routines md slot).Succeeds s fun _ u => Extends s u := by
  rw [storeSlot_eq env.width]
  exact .map ((succeeds_each fun _ _ _ _ => yields_call).mono fun _ _ _ h => h.1)

theorem succeeds_storeSlots {mds : List (PointerMetadata × Nat)} :
    (mds.forM fun md => storeSlot env.routines md.1 (md.2 + 1)).Succeeds s fun _ u => Extends s u :=
  succeeds_forM (fun _ u => Extends s u) (fun _ _ h => h) fun _ _ _ E =>
    succeeds_storeSlot.mono fun _ _ _ E' => E.trans E'

variable (hwidth : env.routines.width = env.width)

include hwidth

theorem ret_loader (c : Component) : (env.routines.signature c.loader).ret = c.type env.width := by
  cases c <;> simp [RoutineTable.signature, Routine.signature, Component.loader, Component.type,
    Store.componentType, hwidth]

theorem succeeds_loadSlot :
    (loadSlot env slot).Succeeds s fun md u => Extends s u ∧ env.Typed u.func md := by
  rw [loadSlot_eq]
  refine .map (succeeds_record fun c _ u _ => ?_)
  rw [← ret_loader hwidth c]
  exact yields_call

theorem succeeds_extractRecord (hrecord : s.func.operandType (.value record) =
      .ok (env.routines.signature .metadataLoad).ret) :
    (extractRecord env record).Succeeds s fun md u => Extends s u ∧ env.Typed u.func md
    := by
  rw [extractRecord_eq]
  refine .map (succeeds_record fun c _ u E => yields_extract (E.operandType_eq hrecord) ?_)
  cases c <;> simp [RoutineTable.signature, Routine.signature, Component.type,
    Store.componentType, hwidth, Routine.loadedField, Ty.element?]

theorem succeeds_closeFrame {frame : ShadowFrame} :
    (closeFrame env frame).Succeeds s fun result u => Extends s u ∧
      result.isSome = frame.returnsPointer ∧ ∀ md, result = some md → env.Typed u.func md := by
  have heq : closeFrame env frame =
      (if frame.returnsPointer then some <$> loadSlot env returnSlot else pure none) >>=
        fun result => env.routines.call .deallocateFrame [] >>= fun _ => pure result := by
    rw [closeFrame]
    split <;> rfl
  rw [heq]
  refine .bind (succeeds_tracked (succeeds_loadSlot hwidth)) fun result u _ hresult => ?_
  refine .bind yields_call fun _ v _ hv => succeeds_pure ?_
  obtain ⟨E, hsome, hmd⟩ := hresult
  exact ⟨E.trans hv.1, hsome, fun md h => (hmd md h).mono hv.1.operandType_eq⟩

theorem succeeds_loadParameter (htype : s.func.operandType (.value param) = .ok ty)
    (hpointer : ty.isPointer) :
    (loadParameter env param slot).Succeeds s fun md u =>
      Extends s u ∧ env.Typed u.func md := by
  refine .bind (succeeds_loadSlot hwidth) fun md u _ hmd => ?_
  refine succeeds_ite (fun _ => ?_) fun _ => succeeds_pure hmd
  split
  · refine .bind (succeeds_toVoidPtr (hmd.1.operandType_eq htype) hpointer) fun ptr v _ hptr => ?_
    refine .bind yields_call fun _ w _ hw => succeeds_pure ?_
    have E := hptr.1.trans hw.1
    exact ⟨hmd.1.trans E, hmd.2.mono E.operandType_eq⟩
  · exact succeeds_pure hmd

end Splice

/-! ### Places -/

namespace Function

variable {x : ValueId}

theorem exists_locate {inst : Instruction} (hinst : f.inst? x = some inst)
    (hx : x ∈ f.instsOf inst.block) :
    ∃ i, f.locate? (.before x) = some (inst.block, i) ∧
      f.locate? (.after x) = some (inst.block, i + 1) := by
  obtain ⟨i, hi⟩ : ∃ i, (f.instsOf inst.block).idxOf? x = some i := by
    cases hidx : (f.instsOf inst.block).idxOf? x with
    | none => exact absurd hx (List.idxOf?_eq_none_iff.mp hidx)
    | some i => exact ⟨i, rfl⟩
  exact ⟨i, by simp [locate?, hinst, hi], by simp [locate?, hinst, hi]⟩

theorem exists_locate_prologue (hblocks : 0 < f.blocks.size) :
    ∃ i, f.locate? .prologue = some (⟨0⟩, i) := by
  have hentry : f.entryId? = some ⟨0⟩ := by
    rw [entryId?]
    simpa using Array.ne_empty_of_size_pos hblocks
  have hblock : f.block? ⟨0⟩ = some f.blocks[0] := Array.getElem?_eq_getElem hblocks
  exact ⟨_, by simp [locate?, hentry, hblock]; rfl⟩

end Function

/-! ### Weavings -/

theorem Store.succeeds_associate {store : Store} (hconfig : env.config.validate = .ok ())
    (hwidth : store.width = env.width) (hmd : env.Typed f md) (hnone : store.lookup id = none) :
    (Store.associate f id md).Succeeds store fun _ store' => store'.lookup id = some md := by
  have hall : (md.halves.forM (setHalf f id)).Succeeds store fun _ _ => True := by
    refine (Edit.succeeds_forM (fun rest t => rest ⊆ md.halves ∧ t.width = env.width)
      ⟨List.Subset.refl _, hwidth⟩ fun half rest t ht => ?_).mono fun _ _ _ _ => trivial
    obtain ⟨hmem, hrest⟩ := List.cons_subset.mp ht.1
    obtain ⟨hfirst, hsecond⟩ := PointerMetadata.get?_of_mem_halves hmem
    have htypes : t.componentType = fun c => c.type env.width := componentType_eq ht.2
    refine ⟨⟨⟩, _, runs_setHalf.mpr ⟨?_, ?_, rfl⟩, hrest, ht.2⟩
    · rw [htypes]
      exact hmd.operandType hfirst
    · rw [htypes]
      exact hmd.operandType hsecond
  rw [← associate_eq] at hall
  obtain ⟨_, store', hrun, -⟩ := hall
  have hlookup := associate_lookup hrun hnone
  rw [hmd.not_isEmpty hconfig] at hlookup
  exact ⟨⟨⟩, store', hrun, hlookup⟩

namespace Weaving

open Edit

variable {s : Weaving}

theorem succeeds_splice {point : InsertPoint} {body : Edit Splice α} {b : BlockId} {i : Nat}
    {Q : α → Splice → Prop} (hlocate : s.func.locate? point = some (b, i))
    (h : body.Succeeds ⟨s.func, b, i⟩ Q) :
    (splice point body).Succeeds s fun a w => ∃ r, w = { s with func := r.func } ∧ Q a r := by
  obtain ⟨a, u, hbody, ha⟩ := h
  exact ⟨a, _, runs_splice.mpr ⟨b, i, u, hlocate, hbody, rfl⟩, u, rfl, ha⟩

theorem succeeds_count_bind {change : FunctionReport → FunctionReport} {f : Unit → Edit Weaving β}
    {P : β → Weaving → Prop} (h : (f ⟨⟩).Succeeds { s with report := change s.report } P) :
    (count change >>= f).Succeeds s P :=
  succeeds_modify_bind h

theorem succeeds_associate (hconfig : env.config.validate = .ok ())
    (hwidth : s.store.width = env.width) (hmd : env.Typed s.func md)
    (hnone : s.store.lookup id = none) :
    (associate id md).Succeeds s fun _ s' =>
      s'.store.lookup id = some md ∧ s'.func = s.func ∧ s'.report = s.report := by
  obtain ⟨⟨⟩, store, hrun, hlookup⟩ := Store.succeeds_associate hconfig hwidth hmd hnone
  exact ⟨⟨⟩, _, runs_associate.mpr ⟨store, hrun, rfl⟩, hlookup, rfl, rfl⟩

end Weaving

end PointerGuard
