import PointerGuard.Proofs.Steps

/-!
# Propagation consists of steps

Each rule of propagation splices in what makes the components of a record and then records them. For
every kind of instruction this is a sequence of steps that give a record to this instruction only,
and to none if an operand still has to wait.
-/

namespace PointerGuard

open PointerGuard.Function

variable {f : Function} {p : Routine → Prop} {env : Env} {args operands : List Operand}
  {copies : Option Operand} {done : Bool} {frame : ShadowFrame} {ret ty : Ty} {v s r : Splice}
  {given : Operand → Prop} {operand : Operand}

/-! ### Insertions for single instructions -/

def Weaving.allocaBounds (env : Env) (alloca : ValueId) (ty : Ty) (copies : Option Operand) :
    Edit Splice Spatial := do
  let base ← Splice.toVoidPtr alloca
  let past ← Splice.gep alloca [copies.getD (.const (.int env.width.bits 1))] ty
  let bound ← Splice.toVoidPtr past
  return ⟨base, bound⟩

namespace Splice.Adds

open Edit

theorem allocaBounds {alloca : ValueId} {spatial : Spatial}
    (h : (Weaving.allocaBounds env alloca ty copies).Runs s spatial v)
    (halloca : given (.value alloca)) (hcopies : ∀ operand, copies = some operand → given operand) :
    env.Adds p given s v ∧ ∃ past,
      v.func.AsVoidPtr (Fresh s) (.value alloca) spatial.base ∧
      v.func.Made (Fresh s)
        (.gep (.value alloca) [copies.getD (.const (.int env.width.bits 1))]) past ∧
      v.func.AsVoidPtr (Fresh s) past spatial.bound := by
  simp only [Weaving.allocaBounds, runs_bind] at h
  obtain ⟨base, _, hbase, past, _, hpast, bound, _, hbound, rfl, rfl⟩ := h
  have start : env.Adds p given s s := .refl
  obtain ⟨A, E, hbase', -⟩ := start.toVoidPtr hbase (.inl halloca)
  -- the index is a count the program gave, or one
  have hindex : Usable given s s (copies.getD (.const (.int env.width.bits 1))) := by
    cases copies with
    | none => exact .inr (.inl rfl)
    | some operand => exact .inl (hcopies operand rfl)
  obtain ⟨B, E', N⟩ := A.insert hpast ⟨.gep, rfl⟩ (by
    simpa [InstKind.operands] using ⟨.inl halloca, hindex.mono E⟩)
  obtain ⟨ty', htype, hpointer, -⟩ := toVoidPtr_cases hbound
  have hvoid : ty.isVoid = false := by
    cases htype.symm.trans N.operandType
    exact Ty.isVoid_of_isPointer hpointer
  obtain ⟨C, E'', hbound', -⟩ := B.toVoidPtr hbound (N.usable hvoid)
  exact ⟨C, _, (E'.trans E'').asVoidPtr hbase', E''.made N.made, hbound'⟩

end Splice.Adds

/-! ### Frames of calls -/

def Function.isPointerOperand (f : Function) (operand : Operand) : Bool :=
  match f.operandType operand with
  | .ok ty => ty.isPointer
  | .error _ => false

theorem Function.isPointerOperand_iff :
    f.isPointerOperand operand ↔ ∃ ty, f.operandType operand = .ok ty ∧ ty.isPointer := by
  rw [isPointerOperand]
  cases f.operandType operand <;> simp

theorem Function.isPointerOperand_eq (h : f.operandType operand = .ok ty) :
    f.isPointerOperand operand = ty.isPointer := by
  rw [isPointerOperand, h]

namespace ShadowFrame

/-- Looking up the positions of the pointers gives the arguments that are pointers. -/
theorem filterMap_positions {types : List Ty}
    (h : List.Forall₂ (fun arg ty => f.operandType arg = .ok ty) args types)
    (front : List Operand) : ((types.zipIdx front.length).filterMap fun (ty, position) =>
      if ty.isPointer then some position else none).filterMap
        (fun position => (front ++ args)[position]?) = args.filter f.isPointerOperand := by
  induction h generalizing front with
  | nil => rfl
  | @cons arg ty args types harg _ ih =>
    have hrest := ih (front ++ [arg])
    rw [List.length_append, List.length_singleton, List.append_assoc,
      List.singleton_append] at hrest
    rw [List.zipIdx_cons, List.filter_cons, isPointerOperand_eq harg]
    cases hty : ty.isPointer with
    | true => grind
    | false => grind

section

variable (h : ofCall f args ret = .ok frame)

include h

/-- The frame of a call has a slot for each argument that is a pointer. -/
theorem ofCall_eq_ok :
    frame.pointerArgs.filterMap (fun position => args[position]?) = args.filter f.isPointerOperand ∧
      frame.returnsPointer = ret.isPointer := by
  simp only [ofCall, Outcome.bind_eq_ok, Outcome.mapM_eq_ok, Outcome.pure_eq_ok] at h
  obtain ⟨types, htypes, rfl⟩ := h
  exact ⟨filterMap_positions htypes [], rfl⟩

theorem operandType_of_ofCall : ∀ arg ∈ args, ∃ ty, f.operandType arg = .ok ty := by
  simp only [ofCall, Outcome.bind_eq_ok, Outcome.mapM_eq_ok] at h
  obtain ⟨types, htypes, -⟩ := h
  exact fun arg harg => (exists_of_forall₂ htypes.flip harg).imp fun _ h => h.2

/-- The frame of a call has slots for the result and for each argument that is a pointer. -/
theorem slotCount_ofCall :
    frame.slotCount = if (args.filter f.isPointerOperand).isEmpty && !ret.isPointer then 0
      else (args.filter f.isPointerOperand).length + 1 := by
  simp only [ofCall, Outcome.bind_eq_ok, Outcome.mapM_eq_ok, Outcome.pure_eq_ok] at h
  obtain ⟨types, htypes, rfl⟩ := h
  have count : ∀ k, ((types.zipIdx k).filterMap fun (ty, position) =>
      if ty.isPointer then some position else none).length =
        (args.filter f.isPointerOperand).length := by
    induction htypes with
    | nil => exact fun _ => rfl
    | @cons arg ty args types harg _ ih => grind [isPointerOperand_eq]
  simp only [slotCount, ← List.length_eq_zero_iff, List.isEmpty_iff, Bool.and_eq_true, count 0]

end

theorem exists_ofCall (ret : Ty) (h : ∀ arg ∈ args, ∃ ty, f.operandType arg = .ok ty) :
    ∃ frame, ofCall f args ret = .ok frame := by
  obtain ⟨types, htypes⟩ := Outcome.exists_mapM_eq_ok h
  exact ⟨_, Outcome.bind_eq_ok.mpr ⟨types, htypes, rfl⟩⟩

end ShadowFrame
/-- Insert what follows a call: the metadata of a pointer result is loaded, and the frame is
closed. -/
def Weaving.closeFrame (env : Env) (frame : ShadowFrame) :
    Edit Splice (Option PointerMetadata) := do
  let result ←
    if frame.returnsPointer then some <$> ShadowFrame.loadSlot env ShadowFrame.returnSlot
    else pure none
  let _ ← env.routines.call .deallocateFrame []
  return result

theorem Splice.Adds.closeFrame {result : Option PointerMetadata} (hp : Lenient p)
    (h : (Weaving.closeFrame env frame).Runs s result v) :
    env.Adds p given s v ∧ ∀ md, result = some md →
      env.Consists md fun c => v.func.Made (Fresh s) (env.slotLoad 0 c) := by
  have start : env.Adds p given s s := .refl
  rw [Weaving.closeFrame] at h
  by_cases hreturns : frame.returnsPointer
  · simp only [hreturns, if_true, Edit.runs_bind, Edit.runs_map] at h
    obtain ⟨_, _, ⟨md, hload, rfl⟩, _, _, hcall, rfl, rfl⟩ := h
    obtain ⟨A, E, hmd⟩ := start.loadSlot hp hload
    obtain ⟨B, E', -⟩ := A.call hcall (hp _ rfl) (by simp)
    refine ⟨B, ?_⟩
    rintro _ ⟨⟩
    exact Weaving.Kept.consists (fun c operand h => E'.made h.1) hmd
  · simp only [hreturns, Bool.false_eq_true, if_false, pure_bind, Edit.runs_bind] at h
    obtain ⟨_, _, hcall, rfl, rfl⟩ := h
    obtain ⟨B, -⟩ := start.call hcall (hp _ rfl) (by simp)
    exact ⟨B, by simp⟩

/-- Does metadata go through a frame at an instruction? -/
def InstKind.crossesCalls : InstKind → Bool
  | .call .. | .ret _ => true
  | _ => false

namespace Weaving

open Edit

variable {s s' : Weaving} {id : ValueId} {returned callee source ptr : Operand} {sig : Signature}
  {kind : InstKind}

theorem isPointerValue_of_allocaBounds {bounds : Spatial}
    (h : (allocaBounds env id ty copies).Runs r bounds v) : r.func.isPointerValue id := by
  simp only [allocaBounds, runs_bind] at h
  obtain ⟨_, _, hbase, -⟩ := h
  obtain ⟨ty, htype, hpointer, -⟩ := Splice.toVoidPtr_cases hbase
  rw [operandType_value_eq_ok] at htype
  rw [isPointerValue, htype]
  exact hpointer

theorem propagateAlloca_eq :
    propagateAlloca env id ty copies =
      (if env.config.temporalSafety then some <$> requestFrameKey env else pure none) >>=
        fun temporal =>
      (if env.config.spatialSafety then
        splice (.after id) (some <$> allocaBounds env id ty copies) else pure none) >>=
        fun spatial =>
      count (fun r => { r with stackAllocations := r.stackAllocations + 1 }) >>= fun _ =>
      associate id ⟨spatial, temporal⟩ := by
  simp only [propagateAlloca, allocaBounds]
  split <;> split <;> simp

/-! ### Rules by kind of instruction -/

section

variable (W : s.Woven env p f) (hid : id.index < f.values.size) (hnone : s.store.lookup id = none)

include W hid hnone

theorem propagateAlloca_steps {allocated : Ty} (hp : p .stackAllocation)
    (hkind : s.func.kind? id = some (.alloca allocated copies))
    (h : (propagateAlloca env id ty copies).Runs s ⟨⟩ s') :
    Steps env p f (· = id) s s' ∧ s'.queues = s.queues := by
  rw [propagateAlloca_eq] at h
  simp only [runs_bind, runs_count] at h
  obtain ⟨temporal, u, htemporal, spatial, w, hspatial, _, _, rfl, hassociate⟩ := h
  have keys : Steps env p f (· = id) s u ∧ u.queues = s.queues ∧ u.store = s.store ∧
      temporal.isSome = env.config.temporalSafety ∧
      ∀ key, temporal = some key → u.frameKey = some key := by
    simp only [runs_ite, runs_map, runs_pure] at htemporal
    rcases htemporal with ⟨hon, key, hkey, rfl⟩ | ⟨hoff, rfl, rfl⟩
    · obtain ⟨S, hsome, hsteady⟩ := requestFrameKey_steps W hp hkey
      refine ⟨S.any, hsteady.queues, hsteady.store, by simp [hon], ?_⟩
      rintro _ ⟨⟩
      exact hsome
    · exact ⟨.refl, rfl, rfl, by simp [hoff], by simp⟩
  obtain ⟨S, hqueues, hstore, htracked, hframe⟩ := keys
  have hnone : u.store.lookup id = none := by rw [hstore, hnone]
  have Wu := S.woven W
  have hkind := (S.kept W).nonphi hkind rfl
  have anchored : InsertPoint.Anchored f u.func (.after id) := ⟨hid, _, hkind, rfl, rfl⟩
  simp only [runs_ite, runs_pure] at hspatial
  rcases hspatial with ⟨hon, hrun⟩ | ⟨hoff, rfl, rfl⟩
  · simp only [runs_splice, runs_map] at hrun
    obtain ⟨b, i, v, hlocate, ⟨bounds, hbounds, rfl⟩, rfl⟩ := hrun
    have hgiven : u.Given env (.after id) (.value id) :=
      .inr ⟨rfl, isPointerValue_of_allocaBounds hbounds⟩
    obtain ⟨A, past, hbase, hpast, hbound⟩ := Splice.Adds.allocaBounds (p := p) hbounds hgiven
      fun operand hcopies => .inl (.of_operand hkind (by simp [InstKind.operands, hcopies]))
    have hmd : Produced env f { u with func := v.func } id ⟨some bounds, temporal⟩ := by
      refine .alloca (A.extends.kind?_eq hkind) (by simp [hon]) (fun _ h => ?_) htracked hframe
      cases h
      exact ⟨past, Wu.asVoidPtr_trails anchored hlocate A hbase,
        Wu.made_trails anchored hlocate A hpast, Wu.asVoidPtr_trails anchored hlocate A hbound⟩
    have S := S.tail (.splice anchored hlocate A)
    exact Steps.count_associate S hqueues rfl hnone hmd hassociate rfl
  · have hmd : u.Produced env f id ⟨none, temporal⟩ :=
      .alloca hkind (by simp [hoff]) (by simp) htracked hframe
    exact Steps.count_associate S hqueues rfl hnone hmd hassociate rfl

theorem propagateLoad_steps (hp : p .metadataLoad) (hkind : s.func.kind? id = some (.load ptr))
    (h : (propagateLoad env id ptr).Runs s ⟨⟩ s') :
    Steps env p f (· = id) s s' ∧ s'.queues = s.queues := by
  have anchored : InsertPoint.Anchored f s.func (.after id) := ⟨hid, _, hkind, rfl, rfl⟩
  simp only [propagateLoad, runs_bind, runs_splice, runs_count] at h
  obtain ⟨md, _, ⟨b, i, v, hlocate, ⟨address, _, haddress, record, _, hcall, hextract⟩, rfl⟩,
    _, _, rfl, hassociate⟩ := h
  have start : env.Adds p (s.Given env (.after id)) ⟨s.func, b, i⟩ ⟨s.func, b, i⟩ := .refl
  have hgiven : s.Given env (.after id) ptr := .inl (.of_operand hkind (.head _))
  obtain ⟨A, E, haddress, huse⟩ := start.toVoidPtr haddress (.inl hgiven)
  obtain ⟨B, E', N⟩ := A.call hcall hp (by simpa using huse)
  obtain ⟨C, E'', hmade⟩ := B.extractRecord (N.usable rfl) hextract
  have hmd : Produced env f { s with func := v.func } id md := by
    refine .load (C.extends.kind?_eq hkind)
      (W.asVoidPtr_trails anchored hlocate C ((E'.trans E'').asVoidPtr haddress))
      (W.made_trails anchored hlocate C (E''.made N.made))
        (Kept.consists (fun c operand h => ?_) hmade)
    exact W.made_trails anchored hlocate C h
  have S : Steps env p f (· = id) s { s with func := v.func } :=
    .single (.splice anchored hlocate C)
  exact Steps.count_associate S rfl rfl hnone hmd hassociate rfl

omit hid in
theorem propagateDerived_steps (hp : p .globalLock) (hsource : s.func.derivedFrom? id = some source)
    (h : (propagateDerived env id source).Runs s done s') :
    Steps env p f (fun v => v = id ∧ done) s s' ∧ s'.queues = s.queues := by
  rw [propagateDerived, runs_bind] at h
  obtain ⟨found, u, hresolve, h⟩ := h
  obtain ⟨S, hresolved, hsteady⟩ := tryResolve_steps W hp hresolve
  cases found with
  | none =>
    obtain ⟨rfl, rfl⟩ := runs_pure.mp h
    exact ⟨S.any, hsteady.queues⟩
  | some md =>
    simp only [runs_bind] at h
    obtain ⟨_, _, hassociate, rfl, rfl⟩ := h
    have hmd : u.Produced env f id md := .derived ((S.kept W).derivedFrom? hsource) hresolved
    have hnone : u.store.lookup id = none := by rw [hsteady.store, hnone]
    exact Steps.associate S.any hsteady.queues ⟨rfl, rfl⟩ hnone hmd hassociate

theorem propagateSelect_steps {cond ifTrue ifFalse : Operand} (hp : p .globalLock)
    (hkind : s.func.kind? id = some (.select cond ifTrue ifFalse))
    (h : (propagateSelect env id cond ifTrue ifFalse).Runs s done s') :
    Steps env p f (fun v => v = id ∧ done) s s' ∧ s'.queues = s.queues := by
  rw [propagateSelect, runs_bind] at h
  obtain ⟨onTrue, u, htrue, h⟩ := h
  rw [runs_bind] at h
  obtain ⟨onFalse, w, hfalse, h⟩ := h
  -- both operands are resolved before anything else happens
  obtain ⟨S, htrue, hsteady⟩ := tryResolve_steps W hp htrue
  obtain ⟨S', hfalse, hsteady'⟩ := tryResolve_steps (S.woven W) hp hfalse
  have R : Steps env p f Never s w := S.trans S'
  have hqueues := hsteady'.queues.trans hsteady.queues
  split at h
  · rename_i onTrue onFalse
    have htrue := (S'.kept (S.woven W)).resolved? htrue
    have hkind := (R.kept W).nonphi hkind rfl
    have anchored : InsertPoint.Anchored f w.func (.after id) := ⟨hid, _, hkind, rfl, rfl⟩
    simp only [runs_bind, runs_splice] at h
    obtain ⟨md, _, ⟨b, i, v, hlocate, hselect, rfl⟩, _, _, hassociate, rfl, rfl⟩ := h
    have start : env.Adds p (w.Given env (.after id)) ⟨w.func, b, i⟩ ⟨w.func, b, i⟩ := .refl
    -- the condition and the components of both records belong to operands of the choice
    obtain ⟨A, E, hsome, hmade⟩ := start.selectComponents
      (.inl (.inl (.of_operand hkind (.head _))))
      (fun c _ hget => .inl (.inl (.of_component hkind (.tail _ (.head _)) htrue hget)))
      (fun c _ hget => .inl (.inl (.of_component hkind (by simp [InstKind.operands]) hfalse hget)))
      hselect
    have hmd : Produced env f { w with func := v.func } id md :=
      .select (E.kind?_eq hkind) htrue hfalse hsome fun c a b operand ha hb hget =>
        (R.woven W).made_trails anchored hlocate A (hmade c a b operand ha hb hget)
    have R' : Steps env p f (fun v => v = id ∧ true) s { w with func := v.func } :=
      R.any.tail (.splice anchored hlocate A)
    have hnone : w.store.lookup id = none := by rw [hsteady'.store, hsteady.store, hnone]
    exact Steps.associate R' hqueues ⟨rfl, rfl⟩ hnone hmd hassociate
  · obtain ⟨rfl, rfl⟩ := runs_pure.mp h
    exact ⟨R.any, hqueues⟩

/-! ### Calls and returns -/

omit hid hnone in
/-- Operands are resolved one after another, and stay resolved. -/
theorem tryResolveAll_steps {found : Option (List PointerMetadata)} (hp : p .globalLock)
    (h : (tryResolveAll env operands).Runs s found s') :
    Steps env p f Never s s' ∧ Steady s s' ∧ ∀ mds, found = some mds →
      List.Forall₂ (fun operand md => s'.resolved? env operand = some md) operands mds := by
  induction operands generalizing s s' found with
  | nil =>
    obtain ⟨rfl, rfl⟩ := runs_pure.mp h
    exact ⟨.refl, .refl, by simp⟩
  | cons operand rest ih =>
    rw [tryResolveAll, runs_bind] at h
    obtain ⟨first, u, hfirst, h⟩ := h
    obtain ⟨S, hresolved, hsteady⟩ := tryResolve_steps W hp hfirst
    cases first with
    | none =>
      obtain ⟨rfl, rfl⟩ := runs_pure.mp h
      exact ⟨S, hsteady, by simp⟩
    | some md =>
      rw [runs_bind] at h
      obtain ⟨others, w, hothers, h⟩ := h
      have Wu := S.woven W
      obtain ⟨S', hsteady', hmds⟩ := ih Wu hothers
      have hresolved := (S'.kept Wu).resolved? hresolved
      cases others with
      | none =>
        obtain ⟨rfl, rfl⟩ := runs_pure.mp h
        exact ⟨S.trans S', hsteady.trans hsteady', by simp⟩
      | some mds =>
        obtain ⟨rfl, rfl⟩ := runs_pure.mp h
        refine ⟨S.trans S', hsteady.trans hsteady', ?_⟩
        rintro _ ⟨⟩
        exact .cons hresolved (hmds mds rfl)

theorem marshalCall_steps {mds : List PointerMetadata} (hp : Lenient p)
    (hkind : s.func.kind? id = some (.call callee args sig))
    (hcallee : env.interface.isInstrumentedCall callee)
    (hmds : ∀ md ∈ mds, ∃ operand ∈ args, s.resolved? env operand = some md)
    (h : (marshalCall env id frame mds).Runs s ⟨⟩ s') :
    Steps env p f (· = id) s s' ∧ s'.queues = s.queues := by
  rw [marshalCall] at h
  by_cases hneeded : frame.isNeeded
  · rw [if_pos hneeded] at h
    simp only [runs_bind, runs_splice] at h
    obtain ⟨_, _, ⟨b, i, v, hlocate, ⟨_, u, hcall, hstores⟩, rfl⟩, result, _,
      ⟨b', i', v', hlocate', hresult, rfl⟩, h⟩ := h
    have anchored : InsertPoint.Anchored f s.func (.before id) := ⟨hid, _, hkind, rfl⟩
    have start : env.Adds p (s.Given env (.before id)) ⟨s.func, b, i⟩ ⟨s.func, b, i⟩ := .refl
    obtain ⟨A, E, -⟩ := start.call hcall (hp _ rfl) Splice.Adds.usable_slot
    have B := A.storeSlots hp (fun md hmd c operand hget => by
      obtain ⟨used, hused, hresolved⟩ := hmds md.1 (List.fst_mem_of_mem_zipIdx hmd)
      exact .inl (.of_component hkind (by simp [InstKind.operands, hused]) hresolved hget)) hstores
    have S : Steps env p f (· = id) s { s with func := v.func } :=
      .single (.splice anchored hlocate B)
    have hkind' := B.extends.kind?_eq hkind
    have anchored' : InsertPoint.Anchored f v.func (.after id) := ⟨hid, _, hkind', rfl, rfl⟩
    obtain ⟨C, hloaded⟩ := Splice.Adds.closeFrame hp hresult
    have S' : Steps env p f (· = id) s { s with func := v'.func } :=
      S.tail (.splice anchored' hlocate' C)
    cases result with
    | none =>
      obtain rfl := runs_count.mp h
      exact ⟨S'.tail (.other rfl rfl rfl rfl (.inr rfl)), rfl⟩
    | some md =>
      simp only [runs_bind, runs_count] at h
      obtain ⟨_, w, hassociate, rfl⟩ := h
      have hmd : Produced env f { s with func := v'.func } id md :=
        .call (C.extends.kind?_eq hkind') hcallee
          (Kept.consists (fun c operand h => (S.woven W).made_trails anchored' hlocate' C h)
            (hloaded md rfl))
      obtain ⟨S'', hqueues⟩ := Steps.associate S' rfl rfl hnone hmd hassociate
      exact ⟨S''.tail (.other rfl rfl rfl rfl (.inr rfl)), hqueues⟩
  · grind [runs_pure]

omit W hnone in
theorem marshalReturn_steps {md : PointerMetadata} (hp : Lenient p)
    (hkind : s.func.kind? id = some (.ret (some returned)))
    (hmd : s.resolved? env returned = some md) (h : (marshalReturn env id md).Runs s ⟨⟩ s') :
    Steps env p f Never s s' ∧ s'.queues = s.queues := by
  rw [marshalReturn, runs_splice] at h
  obtain ⟨b, i, v, hlocate, hstore, rfl⟩ := h
  have anchored : InsertPoint.Anchored f s.func (.before id) := ⟨hid, _, hkind, rfl⟩
  have start : env.Adds p (s.Given env (.before id)) ⟨s.func, b, i⟩ ⟨s.func, b, i⟩ := .refl
  obtain ⟨A, -⟩ := start.storeSlot hp (fun c _ hget =>
    .inl (.of_component hkind (.head _) hmd hget)) hstore
  exact ⟨.single (.splice anchored hlocate A), rfl⟩

theorem propagateCall_steps (hp : Lenient p)
    (hkind : s.func.kind? id = some (.call callee args sig))
    (h : (propagateCall env id ret callee args).Runs s done s') :
    Steps env p f (fun v => v = id ∧ done) s s' ∧ s'.queues = s.queues := by
  rw [propagateCall] at h
  by_cases hcallee : env.interface.isInstrumentedCall callee
  · rw [if_pos hcallee, runs_get_bind] at h
    simp only [runs_bind, runs_ofExcept] at h
    obtain ⟨frame, _, ⟨-, rfl⟩, found, u, hresolve, h⟩ := h
    obtain ⟨S, hsteady, hmds⟩ := tryResolveAll_steps W (hp _ rfl) hresolve
    cases found with
    | none =>
      obtain ⟨rfl, rfl⟩ := runs_pure.mp h
      exact ⟨S.any, hsteady.queues⟩
    | some mds =>
      simp only [runs_bind, runs_pure] at h
      obtain ⟨_, _, hmarshal, rfl, rfl⟩ := h
      have hkind := (S.kept W).nonphi hkind rfl
      obtain ⟨S', hqueues⟩ := marshalCall_steps (S.woven W) hid
        (by rw [hsteady.store, hnone]) hp hkind hcallee (fun md hmd => by
        obtain ⟨operand, hoperand, hresolved⟩ := exists_of_forall₂ (hmds mds rfl) hmd
        obtain ⟨position, -, hposition⟩ := List.mem_filterMap.mp hoperand
        exact ⟨operand, List.mem_of_getElem? hposition, hresolved⟩) hmarshal
      exact ⟨S.any.trans (S'.mono fun _ h => ⟨h, rfl⟩), hqueues.trans hsteady.queues⟩
  · rw [if_neg hcallee] at h
    by_cases hret : ret.isPointer
    · simp only [hret, if_true, runs_bind, runs_pure] at h
      obtain ⟨_, _, hassociate, rfl, rfl⟩ := h
      have hmd : s.Produced env f id env.nullMetadata :=
        .null hkind (by simpa [InstKind.fromNowhere] using hcallee)
      exact Steps.associate .refl rfl ⟨rfl, rfl⟩ hnone hmd hassociate
    · simp only [hret, Bool.false_eq_true, if_false, runs_pure] at h
      obtain ⟨rfl, rfl⟩ := h
      exact ⟨.refl, rfl⟩

omit hnone in
theorem propagateReturn_steps (hp : Lenient p)
    (hkind : s.func.kind? id = some (.ret (some returned)))
    (h : (propagateReturn env id returned).Runs s done s') :
    Steps env p f Never s s' ∧ s'.queues = s.queues := by
  simp only [propagateReturn, runs_bind, runs_operandType] at h
  obtain ⟨ty, _, ⟨-, rfl⟩, h⟩ := h
  by_cases hty : ty.isPointer
  · simp only [hty, if_true, runs_bind] at h
    obtain ⟨found, u, hresolve, h⟩ := h
    obtain ⟨S, hresolved, hsteady⟩ := tryResolve_steps W (hp _ rfl) hresolve
    cases found with
    | none =>
      obtain ⟨rfl, rfl⟩ := runs_pure.mp h
      exact ⟨S, hsteady.queues⟩
    | some md =>
      simp only [runs_bind, runs_pure] at h
      obtain ⟨_, _, hmarshal, rfl, rfl⟩ := h
      have hkind := (S.kept W).nonphi hkind rfl
      obtain ⟨S', hqueues⟩ := marshalReturn_steps hid hp hkind hresolved hmarshal
      exact ⟨S.trans S', hqueues.trans hsteady.queues⟩
  · simp only [hty, Bool.false_eq_true, if_false, runs_pure] at h
    obtain ⟨rfl, rfl⟩ := h
    exact ⟨.refl, rfl⟩

/-! ### Everything but phis -/

omit W hid in
private theorem associateNull_steps (hkind : s.func.kind? id = some kind)
    (hnowhere : kind.fromNowhere env.interface)
    (h : (if ty.isPointer then (do associate id env.nullMetadata; return true)
      else (return true) : Edit Weaving Bool).Runs s done s') :
    Steps env p f (fun v => v = id ∧ done) s s' ∧ s'.queues = s.queues := by
  simp only [runs_ite, runs_bind] at h
  rcases h with ⟨-, _, _, hassociate, rfl, rfl⟩ | ⟨-, rfl, rfl⟩
  · exact Steps.associate .refl rfl ⟨rfl, rfl⟩ hnone (.null hkind hnowhere) hassociate
  · exact ⟨.refl, rfl⟩

/-- Propagation for an instruction that is not a phi gives a record to that instruction at most, and
none if it has to wait. Frames are touched by calls and returns only. -/
theorem propagate_steps
    (hp : ∀ r : Routine, r.checksAccess = false → (r.onFrames → kind.crossesCalls) → p r)
    (hkind : s.func.kind? id = some kind) (hphi : kind.isPhi = false)
    (h : (propagate env id).Runs s done s') :
    Steps env p f (fun v => v = id ∧ done) s s' ∧ s'.queues = s.queues := by
  rw [propagate, runs_get_bind] at h
  obtain ⟨⟨_, block, inserted⟩, ty, rfl, hvalue⟩ := value?_of_kind? hkind
  simp only [hvalue] at h
  have hframeless : ∀ r : Routine, r.checksAccess = false → r.onFrames = false → p r :=
    fun r hchecks hframes => hp r hchecks fun h => absurd (hframes.symm.trans h) Bool.false_ne_true
  have nothing : (pure true : Edit Weaving Bool).Runs s done s' →
      Steps env p f (fun v => v = id ∧ done) s s' ∧ s'.queues = s.queues := fun h => by
    obtain ⟨rfl, rfl⟩ := runs_pure.mp h
    exact ⟨.refl, rfl⟩
  cases ‹InstKind› with
  | alloca allocated copies =>
    simp only [runs_bind] at h
    obtain ⟨_, _, halloca, rfl, rfl⟩ := h
    obtain ⟨S, hqueues⟩ := propagateAlloca_steps W hid hnone (hframeless _ rfl rfl) hkind halloca
    exact ⟨S.mono fun _ h => ⟨h, rfl⟩, hqueues⟩
  | load ptr =>
    simp only [runs_ite, runs_bind] at h
    rcases h with ⟨-, _, _, hload, rfl, rfl⟩ | ⟨-, rfl, rfl⟩
    · obtain ⟨S, hqueues⟩ := propagateLoad_steps W hid hnone (hframeless _ rfl rfl) hkind hload
      exact ⟨S.mono fun _ h => ⟨h, rfl⟩, hqueues⟩
    · exact ⟨.refl, rfl⟩
  | gep base indices =>
    rcases runs_ite.mp h with ⟨-, h⟩ | ⟨-, h⟩
    · exact propagateDerived_steps W hnone (hframeless _ rfl rfl) (by rw [derivedFrom?, hkind]) h
    · exact nothing h
  | cast op value =>
    cases op with
    | bitcast =>
      rcases runs_ite.mp h with ⟨-, h⟩ | ⟨-, h⟩
      · exact propagateDerived_steps W hnone (hframeless _ rfl rfl) (by rw [derivedFrom?, hkind]) h
      · exact nothing h
    | intToPtr => exact associateNull_steps hnone hkind rfl h
    | ptrToInt => exact nothing h
  | select cond ifTrue ifFalse =>
    rcases runs_ite.mp h with ⟨-, h⟩ | ⟨-, h⟩
    · exact propagateSelect_steps W hid hnone (hframeless _ rfl rfl) hkind h
    · exact nothing h
  | phi incoming => cases hphi
  | call callee args sig =>
    exact propagateCall_steps W hid hnone (fun r h => hp r h fun _ => rfl) hkind h
  | extract aggregate index => exact associateNull_steps hnone hkind rfl h
  | ret returned =>
    cases returned with
    | none => exact nothing h
    | some returned =>
      exact (propagateReturn_steps W hid (fun r h => hp r h fun _ => rfl) hkind h).imp_left
        Steps.any
  | store | binary | icmp | jump | branch | unreachable => exact nothing h

end

end Weaving

end PointerGuard
