import PointerGuard.Proofs.Placeholders
import PointerGuard.Proofs.Searches
import PointerGuard.Propagation.Create
import PointerGuard.Propagation.Resolve

/-!
# The first pass and deferred instructions

The first pass goes through the parameters and the instructions of the blocks that are reached, each
once; what it defers is tried again round by round. All of it consists of steps, and edges are owed
to the phis that were met.
-/

namespace PointerGuard

open PointerGuard.Function

variable {f : Function} {v : ValueId} {t t' : Weaving} {blocks : List BlockId} {kind : InstKind}
  {n position : Nat}

namespace Function

/-- A value belongs to the function. -/
def Has (f : Function) (v : ValueId) : Prop := (f.value? v).isSome

/-- The parameters are values that come from no instruction. -/
def ParamsFirst (f : Function) : Prop :=
  ∀ v ∈ f.params, ∃ ty position, f.value? v = some ⟨ty, .param position⟩

theorem Has.index_lt (h : f.Has v) : v.index < f.values.size := by
  obtain ⟨info, hinfo⟩ := Option.isSome_iff_exists.mp h
  exact (index_lt_of_value? hinfo).2

theorem Has.func_eq (h : f.Has v) : v.func = f.id := by
  obtain ⟨info, hinfo⟩ := Option.isSome_iff_exists.mp h
  exact (index_lt_of_value? hinfo).1

theorem has_of_kind? (h : f.kind? v = some kind) : f.Has v := by
  obtain ⟨inst, ty, -, hvalue⟩ := value?_of_kind? h
  exact Option.isSome_iff_exists.mpr ⟨_, hvalue⟩

theorem Has.operandType (h : f.Has v) : ∃ ty, f.operandType (.value v) = .ok ty := by
  obtain ⟨info, hinfo⟩ := Option.isSome_iff_exists.mp h
  exact ⟨info.ty, operandType_value_eq_ok.mpr (by rw [valueType?, hinfo, Option.map_some])⟩

theorem ParamsFirst.has (h : f.ParamsFirst) (hv : v ∈ f.params) : f.Has v := by
  obtain ⟨ty, position, hvalue⟩ := h v hv
  exact Option.isSome_iff_exists.mpr ⟨_, hvalue⟩

theorem ParamsFirst.kind? (h : f.ParamsFirst) (hv : v ∈ f.params) : f.kind? v = none := by
  obtain ⟨ty, position, hvalue⟩ := h v hv
  rw [Function.kind?, inst?, hvalue]
  rfl

/-- A value that gets a record if it is a pointer: a parameter, or an instruction of the program. -/
def OfProgram (f : Function) (v : ValueId) : Prop := v ∈ f.params ∨ f.isProgramInst v

theorem exists_kind?_of_isProgramInst (h : f.isProgramInst v) : ∃ kind, f.kind? v = some kind := by
  obtain ⟨inst, hinst, -⟩ := isProgramInst_iff.mp h
  exact ⟨inst.kind, kind?_of_inst? hinst⟩

theorem OfProgram.has (h : f.OfProgram v) (hfirst : f.ParamsFirst) : f.Has v := by
  rcases h with hparam | hprogram
  · exact hfirst.has hparam
  · grind [exists_kind?_of_isProgramInst, has_of_kind?]

private theorem nodup_params : f.params.Nodup := by
  refine List.Nodup.map (fun a b h => ?_) List.nodup_range
  simpa [valueAt] using h

theorem nodup_pointerParams (f : Function) : (f.pointerParams.map Prod.fst).Nodup := by
  have hsub := (List.filter_sublist (p := fun param => f.isPointerValue param.1)
    (l := f.params.zipIdx)).map Prod.fst
  rw [List.zipIdx_map_fst] at hsub
  exact nodup_params.sublist hsub

/-- Nothing is listed in two blocks, so blocks that are all different list no instruction twice. -/
theorem Tidy.nodup_programInsts (T : f.Tidy) (h : blocks.Nodup) :
    (blocks.flatMap f.programInsts).Nodup := by
  refine List.nodup_flatMap.mpr ⟨fun b _ => (T.nodup b).filter _, h.imp fun hne x hx hy => ?_⟩
  exact hne (T.block_eq (List.mem_of_mem_filter hx) (List.mem_of_mem_filter hy))

theorem isProgramInst_of_mem_flatMap (v : ValueId) (hv : v ∈ blocks.flatMap f.programInsts) :
    f.isProgramInst v := by
  obtain ⟨b, -, hv⟩ := List.mem_flatMap.mp hv
  exact (List.mem_filter.mp hv).2

theorem returnOf?_eq_some {b : BlockId} (h : f.returnOf? b = some v) :
    ∃ kind, f.kind? v = some kind ∧ kind.isReturn := by
  simp only [returnOf?, Option.bind_eq_bind, Option.bind_eq_some_iff] at h
  obtain ⟨last, -, kind, hkind, hreturn⟩ := h
  split at hreturn
  · cases hreturn
    exact ⟨kind, hkind, ‹_›⟩
  · cases hreturn

theorem nodup_bfsBlocks (h : f.bfsBlocks? = some blocks) : blocks.Nodup := by
  rw [bfsBlocks?] at h
  cases hentry : f.entryId? with
  | none =>
    rw [hentry] at h
    cases h
    exact List.nodup_nil
  | some entry =>
    rw [hentry] at h
    obtain ⟨nodes, hnodes, rfl⟩ := Option.map_eq_some_iff.mp h
    rw [entryId?] at hentry
    split at hentry
    · cases hentry
    rename_i hblocks
    cases hentry
    have hsize : 0 < f.flowGraph.size := by
      rw [flowGraph]
      exact Nat.pos_of_ne_zero fun h => hblocks (by simpa using h)
    exact (Digraph.nodup_bfs hsize hnodes).map fun a b h => by simpa using h

end Function

/-- Nothing is known about the values of a function. -/
abbrev Store.Vacant (store : Store) (f : Function) : Prop := ∀ v, f.Has v → store.lookup v = none

namespace Weaving

open Edit

variable {env : Env} {p : Routine → Prop} {own : ValueId → Prop} {s s' : Weaving} {id ret : ValueId}
  {md : PointerMetadata} {store : Store}

/-! ### Parameters -/

/-- Insert the load of a parameter's record, and report it if asked to. -/
def loadParameter (env : Env) (param : ValueId) (slot : Nat) : Edit Splice PointerMetadata := do
  let md ← ShadowFrame.loadSlot env slot
  if env.config.introspectMetadata then
    if let some spatial := md.spatial then
      let ptr ← Splice.toVoidPtr param
      let _ ← env.routines.call .introspect
        [ptr, spatial.base, spatial.bound, ShadowFrame.slotOperand slot]
  return md

theorem loadParameter_adds {given : Operand → Prop} {r v : Splice} {slot : Nat} (hp : Lenient p)
    (hid : given (.value id)) (h : (loadParameter env id slot).Runs r md v) :
    env.Adds p given r v ∧
      env.Consists md fun c => v.func.Made (Splice.Fresh r) (env.slotLoad slot c) := by
  have start : env.Adds p given r r := .refl
  rw [loadParameter, runs_bind] at h
  obtain ⟨md, u, hload, h⟩ := h
  obtain ⟨A, E, hmd⟩ := start.loadSlot hp hload
  have loaded : u = v → env.Adds p given r v ∧
      env.Consists md fun c => v.func.Made (Splice.Fresh r) (env.slotLoad slot c) := by
    rintro rfl
    exact ⟨A, Kept.consists (fun _ _ h => h.1) hmd⟩
  by_cases hintrospect : env.config.introspectMetadata
  · rw [if_pos hintrospect] at h
    cases hspatial : md.spatial with
    | none => grind [runs_pure]
    | some spatial =>
      simp only [hspatial, runs_bind] at h
      obtain ⟨ptr, w, hptr, _, _, hcall, rfl, rfl⟩ := h
      obtain ⟨B, E', -, huse⟩ := A.toVoidPtr hptr (.inl hid)
      -- both bounds were loaded just before
      have component : ∀ c operand, md.get? c = some operand → Splice.Usable given r u operand := by
        intro c operand hget
        have hc := hmd c
        split at hc
        · grind
        · rw [hc] at hget
          cases hget
      have hbase := component .base spatial.base (by simp [PointerMetadata.get?, hspatial])
      have hbound := component .bound spatial.bound (by simp [PointerMetadata.get?, hspatial])
      obtain ⟨C, E'', -⟩ := B.call hcall (hp _ rfl) (by
        simpa using ⟨huse, hbase.mono E', hbound.mono E', .inr (.inl rfl)⟩)
      exact ⟨C, Kept.consists (fun _ _ h => (E'.trans E'').made h.1) hmd⟩
  · grind [runs_pure]

theorem Woven.params_eq (W : s.Woven env p f) : s.func.params = f.params := by
  rw [W.grows.header]
  rfl

theorem parameterMetadata_steps (W : s.Woven env p f) (hp : Lenient p)
    (hparam : f.pointerParams[n]? = some (id, position))
    (h : (parameterMetadata env id (f.attrsAt position).byval (n + 1)).Runs s md s') :
    Steps env p f Never s s' ∧ Steady s s' ∧ s'.Produced env f id md := by
  rw [parameterMetadata] at h
  by_cases hbyval : (f.attrsAt position).byval
  · rw [if_pos hbyval] at h
    obtain ⟨S, ⟨lock, hlock, rfl⟩, hsteady⟩ := materialize_steps W (hp _ rfl) h
    exact ⟨S, hsteady, .byval hparam hbyval hlock⟩
  · rw [if_neg hbyval, runs_splice] at h
    obtain ⟨b, i, v, hlocate, hload, rfl⟩ := h
    -- a parameter stays a pointer while the function grows, so the prologue may use it
    have hgiven : s.Given env .prologue (.value id) := by
      have hmem := List.mem_of_getElem? hparam
      simp only [pointerParams, List.mem_filter] at hmem
      obtain ⟨hmem, hpointer⟩ := hmem
      obtain ⟨info, hinfo⟩ : ∃ info, f.value? id = some info := by
        rw [isPointerValue, valueType?] at hpointer
        cases hvalue : f.value? id with
        | none => simp [hvalue] at hpointer
        | some info => exact ⟨info, rfl⟩
      refine ⟨id, W.params_eq ▸ List.fst_mem_of_mem_zipIdx hmem, rfl, ?_⟩
      rwa [isPointerValue, valueType?,
        W.grows.value?_eq (index_lt_of_value? hinfo).2]
    obtain ⟨A, hmd⟩ := loadParameter_adds hp hgiven hload
    refine ⟨.single (.prologue hlocate A), ⟨rfl, rfl, rfl⟩, .slot hparam (by simpa using hbyval) ?_⟩
    exact Kept.consists (fun c operand h => W.made_early hlocate A h) hmd

/-- What holds while the records of some parameters are still to be loaded. -/
structure Loading (env : Env) (p : Routine → Prop) (f : Function) (s : Weaving)
    (rest : List ((ValueId × Nat) × Nat)) (t : Weaving) : Prop where
  steps : Steps env p f (· ∈ f.params) s t
  queues : t.queues = s.queues
  nodup : (rest.map fun entry => entry.1.1).Nodup
  todo : ∀ entry ∈ rest, f.pointerParams[entry.2]? = some entry.1 ∧ entry.1.1 ∈ f.params ∧
    t.store.lookup entry.1.1 = none

theorem recordParameter_steps (W : t.Woven env p f) (hp : Lenient p)
    (hget : f.pointerParams[n]? = some (id, position)) (hnone : t.store.lookup id = none)
    (h : (parameterMetadata env id (f.attrsAt position).byval (n + 1) >>= associate id).Runs
      t ⟨⟩ t') : Steps env p f (· = id) t t' ∧ t'.queues = t.queues := by
  obtain ⟨md, u, hmd, hassociate⟩ := runs_bind.mp h
  obtain ⟨S, hsteady, hproduced⟩ := parameterMetadata_steps W hp hget hmd
  have S : Steps env p f (· = id) t u := S.any
  exact Steps.associate S hsteady.queues rfl (by rw [hsteady.store, hnone]) hproduced hassociate

theorem Loading.step {rest : List ((ValueId × Nat) × Nat)}
    (L : Loading env p f s (((id, position), n) :: rest) t) (W : s.Woven env p f) (hp : Lenient p)
    (h : (parameterMetadata env id (f.attrsAt position).byval (n + 1) >>= associate id).Runs
      t ⟨⟩ t') : Loading env p f s rest t' := by
  obtain ⟨hget, hparam, hnone⟩ := L.todo _ (.head _)
  have Wt := Steps.woven L.steps W
  obtain ⟨S, hqueues⟩ := recordParameter_steps Wt hp hget hnone h
  obtain ⟨hid, hnodup⟩ := List.nodup_cons.mp L.nodup
  have hown : ∀ v, v = id → v ∈ f.params := by
    rintro _ rfl
    exact hparam
  refine ⟨L.steps.trans (S.mono hown), hqueues.trans L.queues, hnodup, fun entry hentry => ?_⟩
  obtain ⟨hget, hparam, hnone⟩ := L.todo entry (.tail _ hentry)
  have hne : entry.1.1 ≠ id := fun e => hid (List.mem_map.mpr ⟨entry, hentry, e⟩)
  exact ⟨hget, hparam, by rw [(S.kept Wt).lookup hne, hnone]⟩

theorem Loading.start (hnone : ∀ v ∈ f.params, s.store.lookup v = none) :
    Loading env p f s f.pointerParams.zipIdx s := by
  refine ⟨.refl, rfl, ?_, ?_⟩
  · have hnodup := f.nodup_pointerParams
    rw [← List.zipIdx_map_fst 0 f.pointerParams, List.map_map] at hnodup
    exact hnodup
  · rintro ⟨⟨v, position⟩, n⟩ hmem
    have hget := List.mem_zipIdx_iff_getElem?.mp hmem
    have hparam : v ∈ f.params := by
      have := List.mem_of_getElem? hget
      simp only [pointerParams, List.mem_filter] at this
      exact List.fst_mem_of_mem_zipIdx this.1
    exact ⟨hget, hparam, hnone v hparam⟩

theorem loadParameters_steps (W : s.Woven env p f) (hp : Lenient p) (hfunc : s.func = f)
    (hnone : ∀ v ∈ f.params, s.store.lookup v = none) (h : (loadParameters env).Runs s ⟨⟩ s') :
    Steps env p f (· ∈ f.params) s s' ∧ s'.queues = s.queues := by
  rw [loadParameters, runs_get_bind, hfunc] at h
  have L := h.forM_induction (Loading env p f s) (.start hnone)
    fun entry rest t t' L hbody => L.step W hp hbody
  exact ⟨L.steps, L.queues⟩

/-- Without pointer parameters there is nothing to record. -/
theorem loadParameters_nothing (hnone : f.pointerParams = [])
    (h : (loadParameters env).Runs (.start f store) ⟨⟩ t) : (start f store) = t := by
  rw [loadParameters, runs_get_bind] at h
  simp only [start, hnone] at h
  exact runs_forM_nil.mp h

/-! ### Instructions -/

/-- An instruction that has to wait is put at the end of the queue. -/
theorem runs_propagateOrDefer (h : (propagateOrDefer env id).Runs t ⟨⟩ t') :
    ∃ done u, (propagate env id).Runs t done u ∧
      (if done then u else { u with
        deferred := u.deferred ++ [id]
        report := { u.report with deferred := u.report.deferred + 1 } }) = t' := by
  simp only [propagateOrDefer, runs_bind] at h
  obtain ⟨done, u, hpropagate, h⟩ := h
  refine ⟨done, u, hpropagate, ?_⟩
  cases done with
  | true => exact (runs_pure.mp h).2
  | false =>
    obtain ⟨_, _, rfl, rfl⟩ := h
    rfl

/-- To put an instruction at the end of the queue is no change to the function. -/
theorem propagateOrDefer_steps (h : (propagateOrDefer env id).Runs t ⟨⟩ t') :
    ∃ done u, (propagate env id).Runs t done u ∧ Steps env p f Never u t' ∧ t'.func = u.func ∧
      t'.placeholders = u.placeholders ∧ t'.deferred = u.deferred ++ if done then [] else [id] := by
  obtain ⟨done, u, hpropagate, rfl⟩ := runs_propagateOrDefer h
  refine ⟨done, u, hpropagate, ?_⟩
  cases done with
  | true => exact ⟨.refl, rfl, rfl, (List.append_nil _).symm⟩
  | false => exact ⟨.single (.other rfl rfl rfl rfl (.inr rfl)), rfl, rfl, rfl⟩

/-- What holds while some instructions have no record yet. -/
structure Gathers (env : Env) (p : Routine → Prop) (f : Function) (s : Weaving)
    (todo : List ValueId) (t : Weaving) : Prop where
  steps : Steps env p f f.OfProgram s t
  pending : t.Pending f
  nodup : todo.Nodup
  program : ∀ v ∈ todo, f.isProgramInst v
  todo : ∀ v ∈ todo, (∃ kind, f.kind? v = some kind) ∧ t.store.lookup v = none ∧
    ∀ ph ∈ t.placeholders, ph.phi ≠ v

namespace Gathers

variable {front rest todo : List ValueId} {done : Bool}

/-- Gathering can be followed from any state on. -/
theorem anew (G : Gathers env p f s todo t) : Gathers env p f t todo t := { G with steps := .refl }

/-- An instruction that gets a record need not be visited again; one that has to wait stays. -/
theorem propagate (G : Gathers env p f s (front ++ id :: rest) t) (W : s.Woven env p f)
    (hp : Lenient p) (h : (Weaving.propagate env id).Runs t done t') :
    Gathers env p f s (front ++ if done then rest else id :: rest) t' ∧
      t'.deferred = t.deferred := by
  obtain ⟨⟨kind, hkind⟩, hnone, hfresh⟩ := G.todo id (by simp)
  have Wt := Steps.woven G.steps W
  have hhas := has_of_kind? hkind
  obtain ⟨S, P, hdeferred, hnew⟩ :=
    propagate_pending Wt hp hhas.index_lt hnone hkind G.pending hfresh h
  have hown : ∀ v, v = id ∧ done → f.OfProgram v := by
    rintro _ ⟨rfl, -⟩
    exact .inr (G.program _ (by simp))
  -- what is left to do was there before, and is not the instruction just recorded
  have hsub : (front ++ if done then rest else id :: rest).Sublist (front ++ id :: rest) := by grind
  refine ⟨⟨G.steps.trans (S.mono hown), P, G.nodup.sublist hsub,
    fun v hv => G.program v (hsub.subset hv), fun v hv => ?_⟩, hdeferred⟩
  have hv' : ¬(v = id ∧ done) := by grind [nodup, List.nodup_middle, List.nodup_cons]
  obtain ⟨hkind, hnone, hfresh⟩ := G.todo v (hsub.subset hv)
  refine ⟨hkind, by rw [(S.kept Wt).lookup hv', hnone], fun ph hph => ?_⟩
  rcases hnew ph hph with hph | ⟨hphi, hdone⟩
  · exact hfresh ph hph
  · exact fun e => hv' ⟨e ▸ hphi, hdone⟩

/-- Steps that give nothing a record, and leave the placeholders alone, do not matter. -/
theorem steps_any (G : Gathers env p f s todo t) (W : s.Woven env p f)
    (S : Steps env p f Never t t') (hplaceholders : t'.placeholders = t.placeholders) :
    Gathers env p f s todo t' := by
  have Wt := Steps.woven G.steps W
  have K := S.kept Wt
  refine ⟨G.steps.trans S.any, G.pending.of_kept K Wt (S.woven Wt) hplaceholders (by simp),
    G.nodup, G.program, fun v hv => ?_⟩
  obtain ⟨hkind, hnone, hfresh⟩ := G.todo v hv
  exact ⟨hkind, by rw [K.lookup id, hnone], hplaceholders ▸ hfresh⟩

theorem propagateOrDefer (G : Gathers env p f s (t.deferred ++ id :: rest) t) (W : s.Woven env p f)
    (hp : Lenient p) (h : (Weaving.propagateOrDefer env id).Runs t ⟨⟩ t') :
    Gathers env p f s (t'.deferred ++ rest) t' := by
  obtain ⟨done, u, hpropagate, S, -, hplaceholders, hqueue⟩ := propagateOrDefer_steps h
  obtain ⟨G', hdeferred⟩ := G.propagate W hp hpropagate
  have G' := G'.steps_any W S hplaceholders
  rw [hqueue, hdeferred]
  cases done <;> simpa using G'

end Gathers

/-! ### Loops over instructions -/

theorem runs_bfsBlocks : bfsBlocks.Runs s blocks s' ↔ s.func.bfsBlocks? = some blocks ∧ s = s' := by
  rw [bfsBlocks, runs_get_bind, runs_ofOption]

/-- A loop over the instructions of the program in some blocks, for a function that grows
meanwhile. -/
theorem forProgramInsts_induction {visit : ValueId → Edit Weaving Unit}
    (h : (forProgramInsts blocks visit).Runs s ⟨⟩ s') (T : f.Tidy)
    (I : List ValueId → Weaving → Prop)
    (hgrows : ∀ {todo t}, I todo t → f.Grows env.routines p t.func)
    (start : I (blocks.flatMap f.programInsts) s)
    (step : ∀ {id rest t t'}, I (id :: rest) t → (visit id).Runs t ⟨⟩ t' → I rest t') :
    I [] s' := by
  have loop := h.forM_induction (fun rest t => I (rest.flatMap f.programInsts) t) start
    fun b rest t t' ht hbody => ?_
  · exact loop
  rw [runs_get_bind, (hgrows ht).programInsts_eq T b] at hbody
  have inner := hbody.forM_induction
    (fun now t => I (now ++ rest.flatMap f.programInsts) t) ht fun id now t t' ht hvisit => ?_
  · exact inner
  exact step ht hvisit

/-! ### The key of the frame is released -/

theorem Woven.index_lt_of_kind? (W : s.Woven env p f) (hkind : s.func.kind? v = some kind)
    (hret : kind.isReturn) : v.index < f.values.size := by
  by_contra hlt
  rcases W.grows.new_kind hkind (Nat.not_lt.mp hlt) with weft | hphi
  · cases weft <;> cases hret
  · cases kind <;> simp_all [InstKind.isReturn, InstKind.isPhi]

theorem releaseBefore_steps {frameKey : Temporal} (W : s.Woven env p f) (hp : p .stackDeallocation)
    (hkind : s.func.kind? ret = some kind) (hreturn : kind.isReturn)
    (hframe : s.frameKey = some frameKey) (h : (splice (.before ret) do
      let _ ← env.routines.call .stackDeallocation [frameKey.key]).Runs s ⟨⟩ s') :
    Steps env p f Never s s' ∧ s'.queues = s.queues ∧
      ∃ b x, ret ∈ s'.func.instsOf b ∧ x ∈ s'.func.gapBefore b ret ∧ f.values.size ≤ x.index ∧
        s'.func.kind? x = some (env.callOf .stackDeallocation [frameKey.key]) := by
  have hphi : kind.isPhi = false := by
    cases kind with
    | phi incoming => cases hreturn
    | _ => rfl
  simp only [runs_splice, runs_bind] at h
  obtain ⟨b, i, v, hlocate, ⟨x, _, hcall, -, rfl⟩, rfl⟩ := h
  have anchored : InsertPoint.Anchored f s.func (.before ret) :=
    ⟨W.index_lt_of_kind? hkind hreturn, kind, hkind, hphi⟩
  have start : env.Adds p (s.Given env (.before ret))
    ⟨s.func, b, i⟩ ⟨s.func, b, i⟩ := .refl
  have hkey : s.Given env (.before ret) frameKey.key := .inr ⟨frameKey, hframe, rfl⟩
  obtain ⟨A, -, N⟩ := start.call hcall hp (by simpa using .inl hkey)
  have S : Steps env p f Never s { s with func := _ } :=
    .single (.splice anchored hlocate A)
  refine ⟨S, rfl, b, x, ?_, A.mem_gapBefore (fun _ hplain => hplain.1) W.func_tidy hlocate N.size_le
    N.value?, W.grows.size_le.trans N.size_le, ?_⟩
  · obtain ⟨before, after, hsplit, -⟩ := locate?_before hlocate
    exact (S.grows.instsOf_sublist W.func_tidy b).subset (by rw [hsplit]; simp)
  · obtain ⟨_, ⟨⟩, -, hkind⟩ := N.made
    exact hkind

theorem releaseFrameKey_steps (W : s.Woven env p f) (hp : p .stackDeallocation)
    (h : (releaseFrameKey env).Runs s ⟨⟩ s') : Steps env p f Never s s' ∧ s'.queues = s.queues := by
  rw [releaseFrameKey, runs_get_bind] at h
  cases hframe : s.frameKey with
  | none =>
    simp only [hframe] at h
    obtain ⟨-, rfl⟩ := h
    exact ⟨.refl, rfl⟩
  | some frameKey =>
    simp only [hframe] at h
    -- the returns are collected first, and stay returns while the keys are released
    have loop := h.forM_induction (fun rest t => (Steps env p f Never s t ∧
      t.queues = s.queues) ∧ ∀ ret ∈ rest, ∃ kind, s.func.kind? ret = some kind ∧ kind.isReturn)
      ⟨⟨.refl, rfl⟩, ?_⟩ ?_
    · exact loop.1
    · grind [returnOf?_eq_some]
    · rintro ret rest t t' ⟨⟨S, hqueues⟩, hrest⟩ hbody
      obtain ⟨kind, hkind, hreturn⟩ := hrest ret (.head _)
      have K := S.kept W
      have hkind := K.kind? hkind fun _ => not_false
      obtain ⟨S', hqueues', -⟩ :=
        releaseBefore_steps (S.woven W) hp hkind hreturn (K.frameKey hframe) hbody
      exact ⟨⟨S.trans S', hqueues'.trans hqueues⟩,
        fun ret hret => hrest ret (.tail _ hret)⟩

theorem Gathers.releaseFrameKey (G : Gathers env p f s t.deferred t) (W : s.Woven env p f)
    (hp : Lenient p) (h : (Weaving.releaseFrameKey env).Runs t ⟨⟩ s') :
    Gathers env p f s s'.deferred s' := by
  obtain ⟨S, hqueues⟩ := releaseFrameKey_steps (Steps.woven G.steps W) (hp _ rfl) h
  rw [show s'.deferred = t.deferred from congrArg (fun q => q.2.1) hqueues]
  exact G.steps_any W S (congrArg Prod.fst hqueues)

/-! ### The passes -/

section

variable (T : f.Tidy) (hfirst : f.ParamsFirst) (hstore : store.Vacant f) (hp : Lenient p)

include T hfirst hstore

theorem loaded_gathers {g : Function} (S : Steps env p f (· ∈ f.params) (.start f store) s')
    (hqueues : s'.queues = (start f store).queues) (hblocks : g.bfsBlocks? = some blocks) :
    Gathers env p f (.start f store) (s'.deferred ++ blocks.flatMap f.programInsts) s' := by
  have W : Woven env p f (.start f store) := ⟨T, .refl⟩
  have hplaceholders : s'.placeholders = [] := congrArg Prod.fst hqueues
  have hdeferred : s'.deferred = [] := congrArg (fun q => q.2.1) hqueues
  have hparams : ∀ v ∈ f.params, v.index < f.values.size ∧ ∀ edges, f.kind? v ≠ some (.phi edges) :=
    fun v hv => ⟨(hfirst.has hv).index_lt, by simp [hfirst.kind? hv]⟩
  have K := S.kept W
  have P : (start f store).Pending f := by
    refine ⟨by simp [start], by simp [start, shadowIds], fun hv hkind hlookup => ?_⟩
    rw [start, hstore _ (has_of_kind? hkind)] at hlookup
    cases hlookup
  rw [hdeferred]
  refine ⟨S.mono fun v => .inl, P.of_kept K W (S.woven W) hplaceholders hparams,
    T.nodup_programInsts (nodup_bfsBlocks hblocks), isProgramInst_of_mem_flatMap, fun v hv => ?_⟩
  obtain ⟨kind, hkind⟩ := exists_kind?_of_isProgramInst (isProgramInst_of_mem_flatMap v hv)
  -- instructions are not parameters, so there is no metadata for them yet
  have hv' : v ∉ f.params := fun hmem => by
    rw [hfirst.kind? hmem] at hkind
    cases hkind
  refine ⟨⟨kind, hkind⟩, ?_, by simp [hplaceholders]⟩
  rw [K.lookup hv']
  exact hstore v (has_of_kind? hkind)

include hp

/-- The first pass records the parameters, comes to the instructions of the blocks that are reached
then, and releases the key of the frame. -/
theorem runs_createMetadata (h : (createMetadata env).Runs (.start f store) ⟨⟩ s') :
    ∃ t blocks u, (loadParameters env).Runs (.start f store) ⟨⟩ t ∧
      (Steps env p f (· ∈ f.params) (.start f store) t ∧ t.queues = (start f store).queues) ∧
      t.func.bfsBlocks? = some blocks ∧
      Gathers env p f (.start f store) (t.deferred ++ blocks.flatMap f.programInsts) t ∧
      (forProgramInsts blocks (propagateOrDefer env)).Runs t ⟨⟩ u ∧
      (releaseFrameKey env).Runs u ⟨⟩ s' := by
  simp only [createMetadata, runs_bind, runs_bfsBlocks] at h
  obtain ⟨_, t, hparams, blocks, _, ⟨hblocks, rfl⟩, _, u, hinsts, hrelease⟩ := h
  obtain ⟨S, hqueues⟩ := loadParameters_steps ⟨T, .refl⟩ hp rfl
    (fun v hv => hstore v (hfirst.has hv)) hparams
  exact ⟨t, blocks, u, hparams, ⟨S, hqueues⟩, hblocks,
    loaded_gathers T hfirst hstore S hqueues hblocks, hinsts, hrelease⟩

/-- The first pass records parameters and instructions, or defers them. -/
theorem createMetadata_gathers (h : (createMetadata env).Runs (.start f store) ⟨⟩ s') :
    Gathers env p f (.start f store) s'.deferred s' := by
  have W : Woven env p f (.start f store) := ⟨T, .refl⟩
  obtain ⟨t, blocks, u, -, -, -, G, hinsts, hrelease⟩ := runs_createMetadata T hfirst hstore hp h
  have G := forProgramInsts_induction hinsts T
    (fun todo t => Gathers env p f (.start f store) (t.deferred ++ todo) t)
    (fun G => (Steps.woven G.steps W).grows) G fun G hvisit => G.propagateOrDefer W hp hvisit
  rw [List.append_nil] at G
  exact G.releaseFrameKey W hp hrelease

end

/-- Instructions are tried again and again. When there are as many rounds as instructions, none is
left. -/
theorem resolveRounds_induction {rounds : Nat} {waiting : List ValueId}
    (h : (resolveRounds env rounds waiting).Runs t ⟨⟩ s') (I : List ValueId → Weaving → Prop)
    (start : I waiting t) (step : ∀ {front id rest done t t'}, I (front ++ id :: rest) t →
      (propagate env id).Runs t done t' → I (front ++ if done then rest else id :: rest) t') :
    ∃ left, I left s' ∧ (waiting.length ≤ rounds → left = []) := by
  induction rounds generalizing waiting t with
  | zero =>
    obtain ⟨-, rfl⟩ := runs_pure.mp h
    exact ⟨waiting, start, fun hle => List.length_eq_zero_iff.mp (Nat.le_zero.mp hle)⟩
  | succ rounds ih =>
    cases waiting with
    | nil =>
      obtain ⟨-, rfl⟩ := runs_pure.mp h
      exact ⟨[], start, fun _ => rfl⟩
    | cons first rest =>
      rw [resolveRounds, runs_bind] at h
      obtain ⟨waiting, u, hround, h⟩ := h
      -- within a round: what is kept and what is still to be tried, never more than at its start
      have round := hround.filterM_induction
        (fun kept now t => I (kept ++ now) t ∧ (kept ++ now).length ≤ rest.length + 1)
        ⟨start, Nat.le_refl _⟩ ?_
      · -- a round that settles nothing is an error, so fewer are left after each
        rcases runs_ite.mp h with ⟨-, h⟩ | ⟨hfewer, h⟩
        · simp at h
        · grind
      · rintro kept id now b t t' ⟨hkept, hlength⟩ hbody
        simp only [runs_bind] at hbody
        obtain ⟨done, _, hpropagate, rfl, rfl⟩ := hbody
        have hnext := step hkept hpropagate
        simp only [List.length_append] at hlength
        cases done with
        | false => exact ⟨by simpa using hnext, by simpa using hlength⟩
        | true => grind

theorem steps_forget : Steps env p f own t { t with deferred := [] } :=
  .single (.other rfl rfl rfl rfl (.inr rfl))

/-- When the second pass has tried everything that was deferred, nothing is left. -/
theorem resolveDeferred_induction (h : (resolveDeferred env).Runs t ⟨⟩ s')
    (I : List ValueId → Weaving → Prop) (start : I t.deferred { t with deferred := [] })
    (step : ∀ {front id rest done t t'}, I (front ++ id :: rest) t →
      (propagate env id).Runs t done t' → I (front ++ if done then rest else id :: rest) t') :
    I [] s' := by
  rw [resolveDeferred, runs_get_bind] at h
  simp only [runs_bind, runs_modify] at h
  obtain ⟨_, _, rfl, h⟩ := h
  obtain ⟨left, hleft, hnil⟩ := resolveRounds_induction h I start step
  exact hnil (Nat.le_refl _) ▸ hleft

theorem resolveDeferred_gathers (W : s.Woven env p f) (hp : Lenient p)
    (G : Gathers env p f s t.deferred t) (h : (resolveDeferred env).Runs t ⟨⟩ s') :
    Gathers env p f s [] s' :=
  resolveDeferred_induction h (Gathers env p f s) (G.steps_any W steps_forget rfl)
    fun G hpropagate => (G.propagate W hp hpropagate).1

/-! ### What propagation keeps -/

section

variable {I : List ValueId → Weaving → Prop} (W : s.Woven env p f) (hp : Lenient p)
  (visit : ∀ {front id rest done t t'}, Gathers env p f s (front ++ id :: rest) t →
    (propagate env id).Runs t done t' → I (front ++ id :: rest) t →
    I (front ++ if done then rest else id :: rest) t')
  (idle : ∀ {todo t t'}, Gathers env p f s todo t → Steps env p f Never t t' → t'.func = t.func →
    t'.placeholders = t.placeholders → I todo t → I todo t')

include W hp visit idle

/-- What propagation keeps of the instructions still to be recorded, the first pass keeps. -/
theorem forProgramInsts_keeps
    (h : (forProgramInsts blocks (propagateOrDefer env)).Runs t ⟨⟩ t')
    (G : Gathers env p f s (t.deferred ++ blocks.flatMap f.programInsts) t)
    (start : I (t.deferred ++ blocks.flatMap f.programInsts) t) :
    Gathers env p f s t'.deferred t' ∧ I t'.deferred t' := by
  have loop := forProgramInsts_induction h W.tidy
    (fun todo t => Gathers env p f s (t.deferred ++ todo) t ∧ I (t.deferred ++ todo) t)
    (fun h => (Steps.woven h.1.steps W).grows) ⟨G, start⟩ ?_
  · simpa using loop
  · rintro id rest u u' ⟨G, hI⟩ hvisit
    obtain ⟨done, r, hpropagate, S, hfunc, hplaceholders, hqueue⟩ := propagateOrDefer_steps hvisit
    obtain ⟨G', hdeferred⟩ := G.propagate W hp hpropagate
    have hI' := idle G' S hfunc hplaceholders (visit G hpropagate hI)
    refine ⟨G.propagateOrDefer W hp hvisit, ?_⟩
    rw [hqueue, hdeferred]
    cases done <;> simpa using hI'

/-- So does the second, when it tries again what was deferred. -/
theorem resolveDeferred_keeps (h : (resolveDeferred env).Runs t ⟨⟩ t')
    (G : Gathers env p f s t.deferred t) (start : I t.deferred t) :
    Gathers env p f s [] t' ∧ I [] t' :=
  resolveDeferred_induction h (fun todo t => Gathers env p f s todo t ∧ I todo t)
    ⟨G.steps_any W steps_forget rfl, idle G steps_forget rfl rfl start⟩
    fun h hpropagate => ⟨(h.1.propagate W hp hpropagate).1, visit h.1 hpropagate h.2⟩

end

end Weaving

end PointerGuard
