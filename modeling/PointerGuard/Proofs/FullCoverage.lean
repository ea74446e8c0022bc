import PointerGuard.Proofs.Modules
import PointerGuard.Proofs.Readiness
import PointerGuard.Proofs.Samples
import PointerGuard.Proofs.ValidWeaving
import PointerGuard.Proofs.VisitOrder

/-!
# Every pointer gets metadata

The passes that gather metadata succeed on every valid function whose pointers come from parameters,
instructions of the program and constants that have metadata. An instruction is visited after those
it takes its pointers from, so nothing is ever deferred. The first block has to have an instruction
of the program, if there are pointer parameters.
-/

namespace PointerGuard

open PointerGuard.Function Weaving

variable {n position : Nat} {f : Function}

namespace Function

/-- Metadata for a pointer operand can be found: it is a parameter, an instruction of the program,
or a constant that has metadata. -/
structure Traceable (f : Function) (i : Interface) (operand : Operand) : Prop where
  pointer : f.isPointerOperand operand
  value : ∀ v, operand = .value v → v ∈ f.params ∨ f.isProgramInst v
  const : ∀ c, operand = .const c → ∃ folded, c.fold i = .ok folded

/-- All pointers of the program proper that can be come to can be traced. -/
structure Traced (f : Function) (i : Interface) : Prop where
  alloca : ∀ {b x allocated copies}, f.Reachable b → x ∈ f.programInsts b →
    f.kind? x = some (.alloca allocated copies) → f.isPointerValue x
  result : ∀ {b x kind}, f.Reachable b → x ∈ f.programInsts b → f.kind? x = some kind →
    f.isPointerValue x → kind.givesPointers
  source : ∀ {b x operand}, f.Reachable b → x ∈ f.programInsts b → operand ∈ f.pointerSources x →
    f.Traceable i operand

instance (f : Function) (i : Interface) (operand : Operand) : Decidable (f.Traceable i operand) :=
  match operand with
  | .value v =>
    decidable_of_iff (f.isPointerOperand (.value v) ∧ (v ∈ f.params ∨ f.isProgramInst v))
      ⟨fun h => ⟨h.1, fun _ hv => Operand.value.inj hv ▸ h.2, nofun⟩,
        fun h => ⟨h.pointer, h.value v rfl⟩⟩
  | .const c =>
    match hfold : c.fold i with
    | .ok folded =>
      decidable_of_iff (f.isPointerOperand (.const c))
        ⟨fun h => ⟨h, nofun, fun _ hc => ⟨folded, Operand.const.inj hc ▸ hfold⟩⟩, Traceable.pointer⟩
    | .error _ => .isFalse fun h => by
      obtain ⟨folded, hfolded⟩ := h.const c rfl
      rw [hfold] at hfolded
      cases hfolded

/-- The pointers of a function can be traced if this can be told from each instruction alone. -/
theorem traced_of_forall_kind {i : Interface}
    (h : ∀ v, ∀ kind ∈ f.kind? v, (kind matches .alloca .. → f.isPointerValue v) ∧
      (f.isPointerValue v → kind.givesPointers) ∧
      ∀ operand ∈ f.pointerSources v, f.Traceable i operand) :
    f.Traced i where
  alloca _ _ hkind := (h _ _ hkind).1 rfl
  result _ _ hkind := (h _ _ hkind).2.1
  source {b x operand} _ _ hoperand := by
    cases hkind : f.kind? x with
    | none => simp [pointerSources, hkind] at hoperand
    | some kind => exact (h x kind hkind).2.2 operand hoperand

end Function

namespace Weaving

open Edit

variable {env : Env} {store : Store} {s t u : Weaving} {id v x phi : ValueId}
  {blocks : List BlockId} {operand : Operand} {kind : InstKind}

theorem hasValue_of_isPointerValue (h : f.isPointerValue v) : f.Has v := by
  obtain ⟨ty, htype, -⟩ := isPointerValue_iff.mp h
  rw [operandType_value_eq_ok] at htype
  obtain ⟨info, hinfo, -⟩ := Option.map_eq_some_iff.mp htype
  exact Option.isSome_iff_exists.mpr ⟨info, hinfo⟩

/-! ### Parameters -/

theorem succeeds_parameter (E : env.Suits f) (R : s.Ready env f)
    (hget : f.pointerParams[n]? = some (id, position)) (hnone : s.store.lookup id = none) :
    (parameterMetadata env id (f.attrsAt position).byval (n + 1) >>= associate id).Succeeds s
      fun _ u => Served env f id s u ∧ Steps env Any f (· = id) s u := by
  have hpointer : f.isPointerValue id := (List.mem_filter.mp (List.mem_of_getElem? hget)).2
  have record : (parameterMetadata env id (f.attrsAt position).byval (n + 1)).Succeeds s
      fun md u => env.Typed u.func md := by
    refine succeeds_ite (fun _ => ?_) fun _ => ?_
    · exact (succeeds_materialize E R rfl rfl).mono fun md u _ h => h.2
    · obtain ⟨i, hlocate⟩ := exists_prologue E R
      obtain ⟨ty, htype, hty⟩ := isPointerValue_iff.mp hpointer
      refine (succeeds_splice hlocate (Splice.succeeds_loadParameter E.width
        (R.woven.grows.operandType_eq htype) hty)).mono fun md w _ hw => ?_
      obtain ⟨r, rfl, -, hmd⟩ := hw
      exact hmd
  refine .bind record fun md u hmd htyped => ?_
  obtain ⟨S, hsteady, hproduced⟩ :=
    parameterMetadata_steps R.woven (fun _ _ => trivial) hget hmd
  have A := Asks.of_steps E R S hsteady
  have hnone' := A.lookup_eq_none hnone
  refine (succeeds_serve E A.ready.width hnone' htyped A.deferred_eq).mono
    fun _ w hw hserved => ⟨hserved, ?_⟩
  have S' : Steps env Any f (· = id) s u := S.any
  exact (Steps.associate S' hsteady.queues rfl hnone' hproduced hw).1

/-- A pointer parameter has a record, or its turn is still to come. -/
structure Loads (env : Env) (f : Function) (s : Weaving) (rest : List ((ValueId × Nat) × Nat))
    (t : Weaving) : Prop where
  loading : Loading env Any f s rest t
  ready : t.Ready env f
  deferred : t.report.deferred = s.report.deferred
  recorded : ∀ v ∈ f.params, f.isPointerValue v →
    v ∈ rest.map (fun entry => entry.1.1) ∨ ∃ md, t.store.lookup v = some md

theorem Loads.start (R : s.Ready env f) (hnone : ∀ v ∈ f.params, s.store.lookup v = none) :
    Loads env f s f.pointerParams.zipIdx s := by
  refine ⟨.start hnone, R, rfl, fun v hv hpointer => .inl ?_⟩
  obtain ⟨position, hposition⟩ := List.mem_iff_getElem?.mp hv
  have hmem : (v, position) ∈ f.pointerParams :=
    List.mem_filter.mpr ⟨List.mem_zipIdx_iff_getElem?.mpr hposition, hpointer⟩
  obtain ⟨n, hn⟩ := List.mem_iff_getElem?.mp hmem
  exact List.mem_map.mpr ⟨((v, position), n), List.mem_zipIdx_iff_getElem?.mpr hn, rfl⟩

theorem Loads.step {rest : List ((ValueId × Nat) × Nat)}
    (L : Loads env f s (((id, position), n) :: rest) t) (E : env.Suits f) (R : s.Ready env f) :
    (parameterMetadata env id (f.attrsAt position).byval (n + 1) >>= associate id).Succeeds t
      fun _ u => Loads env f s rest u := by
  obtain ⟨hget, hparam, hnone⟩ := L.loading.todo _ (.head _)
  refine (succeeds_parameter E L.ready hget hnone).mono fun _ u hrun h => ?_
  obtain ⟨hserved, S⟩ := h
  refine ⟨L.loading.step R.woven (fun _ _ => trivial) hrun, hserved.ready L.ready E S fun _ h => h,
    hserved.deferred.trans L.deferred, fun v hv hpointer => ?_⟩
  by_cases hvid : v = id
  · subst hvid
    exact .inr (hserved.recorded hpointer)
  · rcases L.recorded v hv hpointer with hmem | ⟨md, hlookup⟩
    · exact .inl (by simpa [hvid] using hmem)
    · exact .inr ⟨md, (S.kept L.ready.woven).record hlookup⟩

theorem succeeds_loadParameters (E : env.Suits f) (R : s.Ready env f) (hfunc : s.func = f)
    (hnone : ∀ v ∈ f.params, s.store.lookup v = none) :
    (loadParameters env).Succeeds s fun _ t => Loads env f s [] t := by
  refine succeeds_get_bind ?_
  rw [hfunc]
  exact succeeds_forM (Loads env f s) (.start R hnone) fun entry rest t L => L.step E R

/-! ### Instructions -/

/-- What holds while some instructions have not been visited: those that have been visited have
records if they are pointers, and nothing was deferred. -/
structure Covers (env : Env) (f : Function) (store : Store) (blocks : List BlockId)
    (todo : List ValueId) (t : Weaving) : Prop where
  gathers : Gathers env Any f (.start f store) (t.deferred ++ todo) t
  ready : t.Ready env f
  none_waits : t.deferred = []
  deferred : t.report.deferred = 0
  visited : ∃ front, blocks.flatMap f.programInsts = front ++ todo ∧
    ∀ v ∈ f.params ++ front, f.isPointerValue v → ∃ md, t.store.lookup v = some md
  placeholder : ∀ ph ∈ t.placeholders, ph.phi ∈ blocks.flatMap f.programInsts

/-- A pointer that can be traced is resolvable if what it comes from has a record. -/
theorem resolvable_of_traceable (htrace : f.Traceable env.interface operand)
    (hrecorded : ∀ v, operand = .value v → v ∈ f.params ∨ f.isProgramInst v → f.isPointerValue v →
      ∃ md, t.store.lookup v = some md) : Resolvable env f t operand := by
  cases operand with
  | const c => exact htrace.const c rfl
  | value v =>
    have hpointer : f.isPointerValue v :=
      isPointerValue_iff.mpr (isPointerOperand_iff.mp htrace.pointer)
    exact ⟨hasValue_of_isPointerValue hpointer, hrecorded v rfl (htrace.value v rfl) hpointer⟩

section

variable (E : env.Suits f) (V : f.Valid) (hblocks : f.bfsBlocks? = some blocks)
  (htraced : f.Traced env.interface)

include E V hblocks htraced

/-- Visiting an instruction succeeds and defers nothing, as all that it takes pointers from has been
visited before. -/
theorem Covers.step {rest : List ValueId} (C : Covers env f store blocks (id :: rest) t) :
    (propagateOrDefer env id).Succeeds t fun _ u => Covers env f store blocks rest u := by
  obtain ⟨front, hsplit, hfront⟩ := C.visited
  have hmem : id ∈ blocks.flatMap f.programInsts := by simp [hsplit]
  have walk : f.WalksOnceGrown env.routines blocks := ⟨f, .refl, hblocks⟩
  obtain ⟨b, hb, hid⟩ := walk.exists_block V.tidy E.blocks hmem
  have hlisted : id ∈ f.instsOf b := List.mem_of_mem_filter hid
  obtain ⟨⟨kind, hkind⟩, hnone, hfresh⟩ := C.gathers.todo id (by simp)
  have hsources : kind.isPhi = false → ∀ operand ∈ f.pointerSources id,
      Resolvable env f t operand := by
    intro hphi operand hoperand
    apply resolvable_of_traceable (htraced.source hb hid hoperand)
    rintro v rfl (hparam | hprogram) hpointer
    · exact hfront v (List.mem_append_left _ hparam) hpointer
    · have hused := mem_operands_of_mem_pointerSources hkind hoperand
      have hbefore := (V.use hb hlisted hkind hphi hused).1
      have hvisited := mem_visited_of_before V E.blocks hblocks hsplit hprogram hbefore
      exact hfront v (List.mem_append_right _ hvisited) hpointer
  have visit := succeeds_propagate E C.ready hlisted hnone hkind
    (fun _ _ h => htraced.alloca hb hid (h ▸ hkind)) (htraced.result hb hid hkind)
    (fun ptr h => (htraced.source hb hid (by simp [pointerSources, hkind, h])).pointer)
    (fun operand hoperand => Gives.operandType
      ((V.fits hlisted hkind).gives operand (InstKind.passedOn_subset hoperand))) hsources
  have hrun : (propagateOrDefer env id).Succeeds t fun _ u =>
      (propagate env id).Runs t true u ∧ Served env f id t u := by
    refine .bind visit fun done u hrun h => ?_
    obtain ⟨rfl, hserved⟩ := h
    exact succeeds_pure ⟨hrun, hserved⟩
  refine hrun.mono fun _ u hrun h => ?_
  obtain ⟨hpropagate, hserved⟩ := h
  have W := C.ready.woven
  have W₀ : Woven env Any f (.start f store) := ⟨W.tidy, .refl⟩
  obtain ⟨S, P, hdeferred, hnew⟩ := propagate_pending W (fun _ _ => trivial)
    (index_lt_of_kind? hkind).2 hnone hkind C.gathers.pending hfresh hpropagate
  have K := S.kept W
  refine ⟨C.gathers.propagateOrDefer W₀ (fun _ _ => trivial) hrun,
    hserved.ready C.ready E S fun v hv => hv.1, hdeferred.trans C.none_waits,
    hserved.deferred.trans C.deferred,
    ⟨front ++ [id], by simp [hsplit], fun v hv hpointer => ?_⟩, fun ph hph => ?_⟩
  · grind [Kept.record, Served.recorded]
  · rcases hnew ph hph with hold | ⟨hphi, -⟩
    · exact C.placeholder ph hold
    · rwa [hphi]

omit V htraced hblocks in
theorem Covers.steps_any {todo : List ValueId} (C : Covers env f store blocks todo t)
    (S : Steps env Any f Never t u) (hqueues : u.queues = t.queues)
    (hreport : u.report.deferred = t.report.deferred) : Covers env f store blocks todo u := by
  have W : Woven env Any f (.start f store) := ⟨C.ready.woven.tidy, .refl⟩
  have K := S.kept C.ready.woven
  have hplaceholders : u.placeholders = t.placeholders := congrArg Prod.fst hqueues
  have hdeferred : u.deferred = t.deferred := congrArg (fun q => q.2.1) hqueues
  obtain ⟨front, hsplit, hfront⟩ := C.visited
  refine ⟨by rw [hdeferred]; exact C.gathers.steps_any W S hplaceholders,
    S.ready C.ready E.width fun h => h.elim, hdeferred.trans C.none_waits,
    hreport.trans C.deferred, ⟨front, hsplit, fun v hv hpointer => ?_⟩,
    by rw [hplaceholders]; exact C.placeholder⟩
  obtain ⟨md, hlookup⟩ := hfront v hv hpointer
  exact ⟨md, K.record hlookup⟩

end

/-! ### The first pass -/

theorem succeeds_forProgramInsts {visit : ValueId → Edit Weaving Unit} (T : f.Tidy)
    (I : List ValueId → Weaving → Prop)
    (hgrows : ∀ {todo t}, I todo t → f.Grows env.routines Any t.func)
    (start : I (blocks.flatMap f.programInsts) s)
    (step : ∀ {id rest t}, I (id :: rest) t → (visit id).Succeeds t fun _ u => I rest u) :
    (forProgramInsts blocks visit).Succeeds s fun _ u => I [] u := by
  refine succeeds_forM (fun rest t => I (rest.flatMap f.programInsts) t) start fun b rest t ht => ?_
  refine succeeds_get_bind ?_
  rw [(hgrows ht).programInsts_eq T b]
  exact succeeds_forM (fun now t => I (now ++ rest.flatMap f.programInsts) t) ht
    fun id now t ht => step ht

theorem succeeds_releaseFrameKey (E : env.Suits f) (W : s.Woven env Any f) :
    (releaseFrameKey env).Succeeds s fun _ u => u.report = s.report := by
  refine succeeds_get_bind ?_
  cases hframe : s.frameKey with
  | none => exact succeeds_pure rfl
  | some keys =>
    refine (succeeds_forM (fun rest t => (t.Woven env Any f ∧ t.report = s.report) ∧
      ∀ ret ∈ rest, ∃ b, ret ∈ f.instsOf b) ⟨⟨W, rfl⟩, fun ret hret => ?_⟩
      fun ret rest t h => ?_).mono fun _ u _ h => h.1.2
    · -- only the program has returns
      obtain ⟨b, -, hreturn⟩ := List.mem_filterMap.mp hret
      obtain ⟨kind, hkind, hreturns⟩ := returnOf?_eq_some hreturn
      have hindex := W.index_lt_of_kind? hkind hreturns
      have hmem : ret ∈ s.func.instsOf b := by
        simp only [returnOf?, Option.bind_eq_bind, Option.bind_eq_some_iff] at hreturn
        obtain ⟨last, hlast, kind, -, hsame⟩ := hreturn
        split at hsame
        · cases hsame
          exact List.mem_of_getLast? (terminator?_eq_some_iff.mp hlast).1
        · cases hsame
      refine ⟨b, ?_⟩
      rw [← W.grows.filter_instsOf W.tidy b]
      exact List.mem_filter.mpr ⟨hmem, decide_eq_true hindex⟩
    · obtain ⟨⟨Wt, hreport⟩, hrest⟩ := h
      obtain ⟨b, hb⟩ := hrest ret (.head _)
      obtain ⟨i, hlocate, -⟩ := exists_place E Wt hb
      refine (succeeds_splice hlocate (Q := fun _ r => f.Grows env.routines Any r.func) ?_).mono
        fun _ w _ hw => ?_
      · refine .bind Splice.yields_call fun _ r hcall _ => succeeds_pure ?_
        have start : env.Adds Any Any ⟨t.func, b, i⟩ ⟨t.func, b, i⟩ := .refl
        obtain ⟨A, -⟩ := start.call hcall trivial fun _ _ => .inl trivial
        exact Wt.grows.trans (A.grows (fun _ h => h.1) (place_before hlocate)).1
      · obtain ⟨r, rfl, G⟩ := hw
        exact ⟨⟨⟨Wt.tidy, G⟩, hreport⟩, fun ret hret => hrest ret (.tail _ hret)⟩

theorem Ready.start (T : f.Tidy) (hwidth : store.width = env.width) (hstore : store.Vacant f) :
    Ready env f (.start f store) where
  woven := ⟨T, .refl⟩
  width := hwidth
  record hv hlookup := by
    rw [show (Weaving.start f store).store = store from rfl, hstore _ hv] at hlookup
    cases hlookup
  lock h := by cases h
  frame h := by cases h

/-- The blocks that are come to stay the same while parameters are recorded, if an instruction of
the program comes first or there is nothing to record. -/
theorem Woven.runs_bfsBlocks (W : s.Woven env Any f)
    (hload : (loadParameters env).Runs (.start f store) ⟨⟩ s)
    (hentry : f.programInsts ⟨0⟩ ≠ [] ∨ f.pointerParams = [])
    (hblocks : f.bfsBlocks? = some blocks) : bfsBlocks.Runs s blocks s := by
  refine Weaving.runs_bfsBlocks.mpr ⟨?_, rfl⟩
  rcases hentry with hentry | hnone
  · have hempty : s.func.blocks.isEmpty = f.blocks.isEmpty := by
      simp only [Array.isEmpty, W.grows.size_blocks]
    rw [← hblocks, bfsBlocks?, bfsBlocks?, entryId?, entryId?, hempty,
      W.grows.flowGraph_eq W.tidy hentry]
  · rw [← loadParameters_nothing hnone hload]
    exact hblocks

/-- Some blocks are come to however a function has grown. -/
theorem Woven.exists_bfsBlocks (W : s.Woven env Any f) (V : f.Valid) :
    ∃ blocks, bfsBlocks.Runs s blocks s ∧ f.WalksOnceGrown env.routines blocks := by
  obtain ⟨blocks, hblocks⟩ := Function.exists_bfsBlocks (f := s.func) fun a b hb => by
    rw [W.grows.size_blocks]
    rcases W.grows.successors_eq W.tidy a with hsame | ⟨-, -, hlost⟩
    · exact (wellLaid_iff.mpr V.shaped).targets a b (hsame ▸ hb)
    · simp [hlost] at hb
  exact ⟨blocks, Weaving.runs_bfsBlocks.mpr ⟨hblocks, rfl⟩, s.func, W.grows, hblocks⟩

section

variable (E : env.Suits f) (V : f.Valid) (hfirst : f.ParamsFirst) (hwidth : store.width = env.width)
  (hstore : store.Vacant f) (hentry : f.programInsts ⟨0⟩ ≠ [] ∨ f.pointerParams = [])
  (htraced : f.Traced env.interface)

include E V hfirst hwidth hstore hentry htraced

/-- The first pass gives records to all pointers, and defers nothing. -/
theorem succeeds_createMetadata (hblocks : f.bfsBlocks? = some blocks) :
    (createMetadata env).Succeeds (.start f store) fun _ t => Covers env f store blocks [] t := by
  have T := V.tidy
  have R := Ready.start T hwidth hstore
  have hparams : ∀ v ∈ f.params, store.lookup v = none := fun v hv => hstore v (hfirst.has hv)
  refine .bind (succeeds_loadParameters E R rfl hparams) fun _ t hload L => ?_
  refine .of_runs_bind (L.ready.woven.runs_bfsBlocks hload hentry hblocks) ?_
  have hqueues : t.queues = (start f store).queues := L.loading.queues
  have hplaceholders : t.placeholders = [] := congrArg Prod.fst hqueues
  have C : Covers env f store blocks (blocks.flatMap f.programInsts) t :=
    ⟨loaded_gathers T hfirst hstore L.loading.steps hqueues hblocks, L.ready,
      congrArg (fun q => q.2.1) hqueues, L.deferred, ⟨[], rfl, fun v hv hpointer =>
        (L.recorded v (by simpa using hv) hpointer).resolve_left List.not_mem_nil⟩,
      by simp [hplaceholders]⟩
  refine .bind (succeeds_forProgramInsts T (Covers env f store blocks)
    (fun C => C.ready.woven.grows) C fun C => C.step E V hblocks htraced) fun _ u _ C => ?_
  refine (succeeds_releaseFrameKey E C.ready.woven).mono fun _ w hrelease hreport => ?_
  obtain ⟨S, hqueues⟩ := releaseFrameKey_steps C.ready.woven trivial hrelease
  exact C.steps_any E S hqueues (by rw [hreport])

end

/-! ### Edges of placeholders -/

theorem succeeds_addEdges {shadows : List (Component × ValueId)} {block : BlockId}
    (value : Component → Operand)
    (h : ∀ entry ∈ shadows, ∃ edges, s.func.kind? entry.2 = some (.phi edges)) :
    (shadows.forM fun shadow => addIncoming shadow.2 (value shadow.1) block).Succeeds s
      fun _ _ => True := by
  refine (succeeds_forM (fun rest t => ∀ entry ∈ rest, ∃ edges,
    t.func.kind? entry.2 = some (.phi edges)) h fun entry rest t ht => ?_).mono
      fun _ _ _ _ => trivial
  obtain ⟨edges, hedges⟩ := ht entry (.head _)
  refine ⟨⟨⟩, _, runs_addIncoming.mpr ⟨edges, hedges, rfl⟩, fun other hother => ?_⟩
  by_cases hsame : other.2 = entry.2
  · rw [hsame]
    exact ⟨_, kind?_withEdges hedges⟩
  · grind [kind?_withEdges_of_ne]

section

variable (E : env.Suits f) (R : s.Ready env f)

include E R

theorem succeeds_edgeMetadata {expected filled : Nat} {pred : BlockId}
    (h : env.isReachable pred → Resolvable env f s operand) :
    (edgeMetadata env phi expected filled operand pred).Succeeds s fun _ u => Asks env f s u := by
  refine succeeds_ite (fun hreachable => ?_) fun _ => succeeds_pure (.refl R)
  refine .bind (succeeds_tryResolve E R (h hreachable)) fun found u _ hfound => ?_
  obtain ⟨A, md, rfl, -⟩ := hfound
  exact succeeds_pure A

/-- Edges are given to new values only, so all records stay usable. -/
theorem Steps.ready_of_shadows {own : ValueId → Prop} (S : Steps env Any f own s u)
    (hown : ∀ v, own v → f.values.size ≤ v.index) : u.Ready env f :=
  S.ready R E.width fun hv hhas _ => absurd hhas.index_lt (Nat.not_lt.mpr (hown _ hv))

private theorem succeeds_fillPlaceholder {ph : Placeholder} {incoming : List (Operand × BlockId)}
    (hstands : ph.Stands f s) (hnodup : (ph.shadows.map Prod.snd).Nodup)
    (hkind : s.func.kind? ph.phi = some (.phi incoming))
    (hincoming : ∀ operand pred, (operand, pred) ∈ incoming → env.isReachable pred →
      Resolvable env f s operand) : (fillPlaceholder env ph).Succeeds s fun _ _ => True := by
  have hnew : ∀ x ∈ ph.shadows.map Prod.snd, f.values.size ≤ x.index := fun _ => hstands.size_le
  refine succeeds_get_bind ?_
  rw [hkind]
  refine .bind (succeeds_forM (fun rest t =>
    Fills env Any f ph s incoming (rest.map Prod.fst) t) ?_ ?_) fun _ t _ F => ?_
  · refine ⟨.refl, .refl, [], by simp, fun c x hx => ?_⟩
    exact ⟨[], (hstands.shadow c x hx).2, .nil⟩
  · rintro ⟨⟨operand, pred⟩, filled⟩ rest t F
    have Rt := Steps.ready_of_shadows E R F.steps hnew
    obtain ⟨front, hfront, hmirrors⟩ := F.mirrors
    have hmem : (operand, pred) ∈ incoming := by simp [hfront]
    have hresolvable : env.isReachable pred → Resolvable env f t operand := fun hreachable =>
      (hincoming operand pred hmem hreachable).of_kept (Steps.kept F.steps R.woven)
    have round : (edgeMetadata env ph.phi incoming.length filled operand pred >>= fun md =>
        ph.shadows.forM fun shadow =>
          addIncoming shadow.2 (md.component env.width shadow.1) pred).Succeeds t
            fun _ _ => True := by
      refine .bind (succeeds_edgeMetadata E Rt hresolvable) fun md u _ A => ?_
      refine succeeds_addEdges (md.component env.width) fun entry hentry => ?_
      obtain ⟨edges, hedges, -⟩ := hmirrors entry.1 entry.2 hentry
      exact (A.kept Rt).phi hedges
    exact round.mono fun _ u hrun _ => F.step R.woven (fun _ _ => trivial) hnodup hnew hrun
  · -- every shadow has got as many edges as the phi has
    obtain ⟨front, hfront, hmirrors⟩ := F.mirrors
    obtain rfl : incoming = front := by simpa using hfront
    refine (succeeds_forM (fun rest u => u = t ∧ ∀ entry ∈ rest, entry ∈ ph.shadows)
      ⟨rfl, fun _ h => h⟩ fun entry rest u h => ?_).mono fun _ _ _ _ => trivial
    obtain ⟨rfl, hrest⟩ := h
    obtain ⟨edges, hedges, hall⟩ := hmirrors entry.1 entry.2 (hrest entry (.head _))
    have harity : (u.func.phiArity? entry.2).getD 0 = incoming.length := by
      rw [phiArity?, hedges, hall.length_eq]
      rfl
    simp only [harity]
    exact succeeds_pure ⟨rfl, fun entry hentry => hrest entry (.tail _ hentry)⟩

theorem succeeds_fillPlaceholders (P : s.Pending f)
    (hincoming : ∀ ph ∈ s.placeholders, ∀ incoming, f.kind? ph.phi = some (.phi incoming) →
      ∀ operand pred, (operand, pred) ∈ incoming → env.isReachable pred →
        Resolvable env f s operand) :
    (fillPlaceholders env).Succeeds s fun _ u => u.Ready env f ∧ u.store = s.store ∧
      u.report = s.report := by
  have hnew : ∀ x ∈ shadowIds s.placeholders, f.values.size ≤ x.index := by
    intro x hx
    obtain ⟨ph, hph, hx⟩ := List.mem_flatMap.mp hx
    exact (P.stands ph hph).size_le hx
  have step : Steps env Any f Never s { s with placeholders := [] } :=
    .single (.other rfl rfl rfl rfl (.inr rfl))
  have R' := step.ready R E.width fun h => h.elim
  have filled : (fillPlaceholders env).Succeeds s fun _ _ => True := by
    refine (succeeds_forM (FillsAll env Any f s.placeholders
      { s with placeholders := [] }) ?_ fun ph rest t F => ?_).mono fun _ _ _ _ => trivial
    · refine ⟨.refl, .refl, P.nodup, fun ph hph => ⟨hph, ?_⟩, fun ph hph => .inl hph⟩
      exact { P.stands ph hph with }
    · obtain ⟨hph, hstands⟩ := F.stands ph (.head _)
      have Rt := Steps.ready_of_shadows E R' F.steps hnew
      have hnodup := F.nodup
      rw [shadowIds, List.flatMap_cons, List.nodup_append] at hnodup
      obtain ⟨incoming, hkind⟩ := hstands.phi
      have hkind' : f.kind? ph.phi = some (.phi incoming) := by
        rw [← Rt.woven.kind?_eq hstands.phi_lt, hkind]
      refine (succeeds_fillPlaceholder E Rt hstands hnodup.1 hkind
        fun operand pred hmem hreachable =>
        ?_).mono fun _ u hrun _ => F.step R'.woven (fun _ _ => trivial) hrun
      exact ((hincoming ph hph incoming hkind' operand pred hmem hreachable).of_kept
        (step.kept R.woven)).of_kept (Steps.kept F.steps R'.woven)
  refine filled.mono fun _ u hrun _ => ?_
  obtain ⟨S, hstore, hreport, -⟩ := fillPlaceholders_mirrors R.woven (fun _ _ => trivial) P hrun
  exact ⟨Steps.ready_of_shadows E R S hnew, hstore, hreport⟩

end

/-! ### Stored pointers -/

theorem succeeds_recordStore {b : BlockId} (E : env.Suits f) (V : f.Valid) (R : s.Ready env f)
    (hlisted : id ∈ f.instsOf b) (hkind : f.kind? id = some kind)
    (hpointers : ∀ operand ∈ f.pointerSources id, f.isPointerOperand operand)
    (hsources : kind.isPhi = false → ∀ operand ∈ f.pointerSources id, Resolvable env f s operand) :
    (recordStore env id).Succeeds s fun _ u => u.report.deferred = s.report.deferred := by
  have hkind' : s.func.kind? id = some kind := by
    rw [R.woven.kind?_eq (index_lt_of_kind? hkind).2, hkind]
  refine succeeds_get_bind ?_
  rw [hkind']
  cases kind with
  | store stored ptr =>
    have U := V.fits hlisted hkind
    obtain ⟨ty, htype⟩ :=
      Gives.operandType (U.gives stored (.head _))
    refine .of_runs_bind (runs_operandType.mpr ⟨R.woven.grows.operandType_eq htype, rfl⟩) ?_
    refine succeeds_ite (fun hpointer => ?_) fun _ => succeeds_pure rfl
    have hmem : stored ∈ f.pointerSources id := by
      simp [pointerSources, hkind, isPointerOperand_eq htype, hpointer]
    have hmem' : ptr ∈ f.pointerSources id := by simp [pointerSources, hkind]
    obtain ⟨ty', htype', hpointer'⟩ := isPointerOperand_iff.mp (hpointers ptr hmem')
    refine .bind (succeeds_resolve E R (hsources rfl stored hmem)) fun md u _ A => ?_
    obtain ⟨i, -, hlocate⟩ := exists_place E A.ready.woven hlisted
    refine .bind (succeeds_splice hlocate (Q := fun _ _ => True) ?_) fun _ w _ hw => ?_
    · refine .bind (Splice.succeeds_toVoidPtr (A.ready.woven.grows.operandType_eq htype') hpointer')
        fun address r _ _ => ?_
      exact .bind Splice.yields_call fun _ _ _ _ => succeeds_pure trivial
    · obtain ⟨r, rfl, -⟩ := hw
      exact succeeds_modify A.deferred_eq
  | _ => exact succeeds_pure rfl

/-! ### The second pass -/

/-- All pointers that can be come to have records, and nothing was deferred. -/
structure Full (env : Env) (f : Function) (t : Weaving) : Prop where
  ready : t.Ready env f
  deferred : t.report.deferred = 0
  recorded : ∀ v, f.isPointerValue v →
    v ∈ f.params ∨ (∃ b, f.Reachable b ∧ v ∈ f.programInsts b) → ∃ md, t.store.lookup v = some md

/-- A pointer that can be traced is resolvable wherever it is available. -/
theorem Full.resolvable (F : Full env f t) (htrace : f.Traceable env.interface operand)
    (havailable : f.Available operand) : Resolvable env f t operand := by
  apply resolvable_of_traceable htrace
  rintro v rfl (hparam | hprogram) hpointer
  · exact F.recorded v hpointer (.inl hparam)
  · rcases havailable v rfl with ⟨ty, position, hvalue⟩ | ⟨b, hv, hb⟩
    · simp [isProgramInst, inst?, hvalue] at hprogram
    · exact F.recorded v hpointer (.inr ⟨b, hb, List.mem_filter.mpr ⟨hv, hprogram⟩⟩)

theorem Full.steps_any (F : Full env f t) (E : env.Suits f) (S : Steps env Any f Never t u)
    (hreport : u.report.deferred = t.report.deferred) : Full env f u := by
  refine ⟨S.ready F.ready E.width fun h => h.elim, hreport.trans F.deferred,
    fun v hpointer hv => ?_⟩
  obtain ⟨md, hlookup⟩ := F.recorded v hpointer hv
  exact ⟨md, (S.kept F.ready.woven).record hlookup⟩

section

variable (E : env.Suits f) (V : f.Valid) (hblocks : f.bfsBlocks? = some blocks)
  (htraced : f.Traced env.interface)

include E V hblocks

omit V in
theorem Covers.full (C : Covers env f store blocks [] t) : Full env f t := by
  refine ⟨C.ready, C.deferred, fun v hpointer hv => ?_⟩
  obtain ⟨front, hsplit, hfront⟩ := C.visited
  refine hfront v ?_ hpointer
  rw [List.append_nil] at hsplit
  rw [← hsplit, List.mem_append, List.mem_flatMap]
  exact hv.imp_right fun ⟨b, hb, hv⟩ => ⟨b, (mem_bfsBlocks_iff E.blocks hblocks).mpr hb, hv⟩

include htraced

/-- The second pass fills placeholders and records stored pointers without fail. -/
theorem succeeds_resolveMetadata (C : Covers env f store blocks [] t)
    (htree : f.dominators? = some env.dominators) :
    (resolveMetadata env).Succeeds t fun _ u => Full env f u := by
  -- nothing was deferred, so nothing is tried again
  have C' : Covers env f store blocks [] { t with deferred := [] } :=
    C.steps_any E (.single (.other rfl rfl rfl rfl (.inr rfl))) (by simp [queues, C.none_waits]) rfl
  have hdeferred : (resolveDeferred env).Runs t ⟨⟩ { t with deferred := [] } := by
    rw [resolveDeferred, runs_get_bind]
    simp only [runs_bind]
    exact ⟨⟨⟩, _, rfl, by rw [C.none_waits]; exact runs_pure.mpr ⟨rfl, rfl⟩⟩
  refine .of_runs_bind hdeferred ?_
  have F := C'.full E hblocks
  have hincoming : ∀ ph ∈ t.placeholders, ∀ incoming, f.kind? ph.phi = some (.phi incoming) →
      ∀ operand pred, (operand, pred) ∈ incoming → env.isReachable pred →
        Resolvable env f { t with deferred := [] } operand := by
    intro ph hph incoming hkind operand pred hmem hreachable
    have walk : f.WalksOnceGrown env.routines blocks := ⟨f, .refl, hblocks⟩
    obtain ⟨b, hb, hphi⟩ := walk.exists_block V.tidy E.blocks (C.placeholder ph hph)
    have hsource : operand ∈ f.pointerSources ph.phi := by
      simp only [pointerSources, hkind, (C.gathers.pending.stands ph hph).pointer]
      exact List.mem_map.mpr ⟨(operand, pred), hmem, rfl⟩
    apply F.resolvable (htraced.source hb hphi hsource)
    rintro v rfl
    have hpred : f.Reachable pred := (isReachable_iff E.blocks htree).mp hreachable
    have fits := (V.fits (List.mem_of_mem_filter hphi) hkind).phi hb incoming rfl
    exact (fits.defined v pred hmem hpred).cases hpred
  refine .bind (succeeds_fillPlaceholders E C'.ready C'.gathers.pending hincoming)
    fun _ u _ hu => ?_
  obtain ⟨Ru, hstore, hreport⟩ := hu
  have Fu : Full env f u :=
    ⟨Ru, by rw [hreport]; exact F.deferred, by rw [hstore]; exact F.recorded⟩
  obtain ⟨visited, hvisited, walk⟩ := Ru.woven.exists_bfsBlocks V
  refine .of_runs_bind hvisited ?_
  refine (succeeds_forProgramInsts V.tidy (fun todo t =>
    (∀ v ∈ todo, v ∈ visited.flatMap f.programInsts) ∧ Full env f t)
    (fun h => h.2.ready.woven.grows) ⟨fun _ h => h, Fu⟩ fun {id rest t} h => ?_).mono
    fun _ _ _ h => h.2
  obtain ⟨htodo, Ft⟩ := h
  obtain ⟨b, hb, hid⟩ := walk.exists_block V.tidy E.blocks (htodo id (.head _))
  have hlisted : id ∈ f.instsOf b := List.mem_of_mem_filter hid
  obtain ⟨inst, hinst⟩ := V.tidy.listed hlisted
  have hkind : f.kind? id = some inst.kind := kind?_of_inst? hinst
  refine (succeeds_recordStore E V Ft.ready hlisted hkind
    (fun operand hoperand => (htraced.source hb hid hoperand).pointer)
      fun hphi operand hoperand => ?_).mono
    fun _ u hrun hreport => ⟨fun v hv => htodo v (.tail _ hv), ?_⟩
  · apply Ft.resolvable (htraced.source hb hid hoperand)
    rintro v rfl
    have hused := mem_operands_of_mem_pointerSources hkind hoperand
    exact (V.use hb hlisted hkind hphi hused).2 v rfl
  · exact Ft.steps_any E (recordStore_steps Ft.ready.woven trivial trivial
      (index_lt_of_inst? hinst).2 hrun) hreport

end

/-- What the audit looks at: parameters and reachable instructions of the program, as far as they
are pointers. -/
theorem mem_auditedValues_iff {p : Routine → Prop} (W : t.Woven env p f) (hfirst : f.ParamsFirst)
    (htree : f.dominators? = some env.dominators) :
    v ∈ env.auditedValues t.func ↔
      f.isPointerValue v ∧ (v ∈ f.params ∨ ∃ b, f.Reachable b ∧ v ∈ f.programInsts b) := by
  simp only [Env.auditedValues, List.mem_filter, List.mem_append, W.params_eq, List.mem_flatMap,
    W.grows.programInsts_eq W.tidy]
  have hblock : ∀ {b}, v ∈ f.programInsts b →
      b ∈ t.func.blockIds ∧ (env.isReachable b ↔ f.Reachable b) := by
    intro b hv
    have hlt := index_lt_of_mem_instsOf (List.mem_of_mem_filter hv)
    refine ⟨mem_blockIds.mpr (by rwa [W.grows.size_blocks]), ?_⟩
    exact isReachable_iff (Nat.zero_lt_of_lt hlt) htree
  have hplace : (v ∈ f.params ∨ ∃ b, (b ∈ t.func.blockIds ∧ env.isReachable b) ∧
      v ∈ f.programInsts b) ↔ v ∈ f.params ∨ ∃ b, f.Reachable b ∧ v ∈ f.programInsts b := by grind
  rw [hplace, and_comm]
  refine and_congr_left fun hv => ?_
  have hhas : f.Has v := by
    rcases hv with hparam | ⟨b, -, hv⟩
    · exact hfirst.has hparam
    · obtain ⟨inst, hinst⟩ := W.tidy.listed (List.mem_of_mem_filter hv)
      exact has_of_kind? (kind?_of_inst? hinst)
  rw [isPointerValue_congr (W.grows.value?_eq hhas.index_lt)]

theorem Full.audit (F : Full env f t) (hfirst : f.ParamsFirst)
    (htree : f.dominators? = some env.dominators) : (auditMetadata env).Runs t ⟨⟩ t := by
  have hrecorded : ∀ v ∈ env.auditedValues t.func, ∃ md, t.store.lookup v = some md := by
    intro v hv
    obtain ⟨hpointer, hv⟩ := (mem_auditedValues_iff F.ready.woven hfirst htree).mp hv
    exact F.recorded v hpointer hv
  have hnone : (env.auditedValues t.func).find? (!t.store.has ·) = none := by
    refine List.find?_eq_none.mpr fun v hv => ?_
    obtain ⟨md, hlookup⟩ := hrecorded v hv
    simp [Store.has, hlookup]
  rw [auditMetadata, runs_get_bind, hnone]
  exact runs_pure.mpr ⟨rfl, rfl⟩

end Weaving

/-- Gathering metadata succeeds on every valid function whose pointers can be traced, whatever its
control flow is. Nothing is deferred, and all pointers have metadata afterwards. -/
theorem Env.gather_covers {env : Env} {f : Function} {store : Store} (hverify : f.verify = .ok ())
    (hfirst : f.ParamsFirst) (htree : f.dominators? = some env.dominators)
    (hconfig : env.config.validate = .ok ()) (hroutines : env.routines.width = env.width)
    (hwidth : store.width = env.width) (hstore : ∀ v, f.Has v → store.lookup v = none)
    (htraced : f.Traced env.interface)
    (hentry : f.programInsts ⟨0⟩ ≠ [] ∨ 0 < f.blocks.size ∧ f.pointerParams = []) :
    ∃ s, ([.create, .resolve, .audit].mapM (Weaving.runPass env)).Runs (.start f store)
        [true, true, false] s ∧
      s.report.deferred = 0 ∧
      ∀ v, f.isPointerValue v → v ∈ f.params ∨ (∃ b, f.Reachable b ∧ v ∈ f.programInsts b) →
        s.store.has v := by
  have hblocks : 0 < f.blocks.size := by
    rcases hentry with hentry | ⟨hbody, -⟩
    · obtain ⟨x, hx⟩ := List.exists_mem_of_ne_nil _ hentry
      exact Function.index_lt_of_mem_instsOf (List.mem_of_mem_filter hx)
    · exact hbody
  have V := ((Function.verify_eq_ok_iff hblocks).mp hverify).2
  have E : env.Suits f := ⟨V.homed, hblocks, hconfig, hroutines⟩
  obtain ⟨blocks, hvisited⟩ := V.exists_bfsBlocks
  obtain ⟨⟨⟩, t, hcreate, C⟩ :=
    Weaving.succeeds_createMetadata E V hfirst hwidth hstore (hentry.imp_right And.right) htraced
      hvisited
  obtain ⟨⟨⟩, u, hresolve, F⟩ :=
    Weaving.succeeds_resolveMetadata E V hvisited htraced C htree
  have haudit := F.audit hfirst htree
  refine ⟨u, ?_, F.deferred, fun v hpointer hv => ?_⟩
  · simp only [Edit.runs_mapM_cons, Edit.runs_mapM_nil]
    exact ⟨true, t, _, Edit.runs_bind.mpr ⟨_, _, hcreate, Edit.runs_pure.mpr ⟨rfl, rfl⟩⟩,
      ⟨true, u, _, Edit.runs_bind.mpr ⟨_, _, hresolve, Edit.runs_pure.mpr ⟨rfl, rfl⟩⟩,
        ⟨false, u, _, Edit.runs_bind.mpr ⟨_, _, haudit, Edit.runs_pure.mpr ⟨rfl, rfl⟩⟩,
          ⟨rfl, rfl⟩, rfl⟩, rfl⟩, rfl⟩
  · obtain ⟨md, hlookup⟩ := F.recorded v hpointer hv
    simp [Store.has, hlookup]

/-- Two blocks that jump to each other and can both be entered from outside, so that neither is the
head of the loop. A pointer goes around through both. -/
def twoDoors : Function := .ofBlocks ⟨0⟩ "doors" ⟨.void, [.ptr (.int 8), .int 1], false⟩ [
  [(.void, .branch (val 1) ⟨1⟩ ⟨2⟩)],
  [(.ptr (.int 8), .phi [(val 0, ⟨0⟩), (val 7, ⟨2⟩)]), (.int 8, .load (val 3)),
    (.void, .branch (val 1) ⟨2⟩ ⟨3⟩)],
  [(.ptr (.int 8), .phi [(val 0, ⟨0⟩), (val 3, ⟨1⟩)]),
    (.ptr (.int 8), .gep (val 6) [.const (.int 64 1)]), (.void, .jump ⟨1⟩)],
  [(.void, .ret none)]]

/-- The pointer in the loop has metadata at both doors. -/
theorem gather_covers_twoDoors : ∃ s,
    ([.create, .resolve, .audit].mapM
        (Weaving.runPass (gatherEnv twoDoors))).Runs
      (.start twoDoors ⟨.bits64, []⟩) [true, true, false] s ∧
    s.report.deferred = 0 ∧ s.store.has ⟨⟨0⟩, 3⟩ ∧ s.store.has ⟨⟨0⟩, 6⟩ := by
  obtain ⟨s, hrun, hdeferred, hhas⟩ :=
    @Env.gather_covers (gatherEnv twoDoors) twoDoors ⟨.bits64, []⟩
      (by decide +kernel) (by decide +kernel) (dominators_gatherEnv (by decide +kernel))
        (by decide +kernel) rfl rfl
      (fun _ _ => rfl)
      (Function.traced_of_forall_kind (Function.forall_kind_iff.mpr (by decide +kernel)))
      (by decide +kernel)
  have hdoors : ∀ b ∈ [1, 2], twoDoors.Reachable ⟨b⟩ := fun b hb => ⟨_, .step .start (by
    revert b
    decide +kernel)⟩
  exact ⟨s, hrun, hdeferred,
    hhas _ (by decide +kernel) (.inr ⟨⟨1⟩, hdoors 1 (by decide), by decide +kernel⟩),
    hhas _ (by decide +kernel) (.inr ⟨⟨2⟩, hdoors 2 (by decide), by decide +kernel⟩)⟩

/-- A pointer is moved twice, and the first move was inserted. -/
def insertedSource : Function :=
  (Function.ofBlocks ⟨0⟩ "f" ⟨.void, [.ptr (.int 8)], false⟩ [
    [(.ptr (.int 8), .gep (val 0) [.const (.int 64 1)]),
      (.ptr (.int 8), .gep (val 1) [.const (.int 64 1)]), (.void, .ret none)]]).withInserted 1

/-- A pointer is moved in the second block, and the first block only has a jump that was
inserted. -/
def insertedEntry : Function :=
  (Function.ofBlocks ⟨0⟩ "f" ⟨.void, [.ptr (.int 8)], false⟩ [
    [(.void, .jump ⟨1⟩)],
    [(.ptr (.int 8), .gep (val 0) [.const (.int 64 1)]), (.void, .ret none)]]).withInserted 1

/-- A pointer is read from an address that is called an integer. -/
def integerAddress : Function := .ofBlocks ⟨0⟩ "f" ⟨.void, [], false⟩ [
  [(.ptr (.int 8), .load (.const (.func ⟨0⟩ (.int 8)))), (.void, .ret none)]]

/-- The three functions are valid. But an inserted instruction gets no metadata, so that what is
made from it is deferred for ever; what is inserted at the top of a function goes behind an inserted
jump, so that the second block is not visited; and an address of no pointer type cannot be looked
up. -/
theorem gather_not_covers_inserted :
    insertedSource.verify = .ok () ∧
      (([.create, .resolve, .audit].mapM
          (Weaving.runPass (gatherEnv insertedSource))).apply
        (.start insertedSource ⟨.bits64, []⟩)).1 = .error (.missingMetadata "f" ⟨⟨0⟩, 1⟩) ∧
    insertedEntry.verify = .ok () ∧
      (([.create, .resolve, .audit].mapM
          (Weaving.runPass (gatherEnv insertedEntry))).apply
        (.start insertedEntry ⟨.bits64, []⟩)).1 = .error (.missingMetadata "f" ⟨⟨0⟩, 2⟩) ∧
    integerAddress.verify = .ok () ∧
      (([.create, .resolve, .audit].mapM
          (Weaving.runPass (gatherEnv integerAddress))).apply
        (.start integerAddress ⟨.bits64, []⟩)).1 =
          .error (.invalidIr (.notPointer (.int 8) (.const (.func ⟨0⟩ (.int 8))))) := by
  decide +kernel

end PointerGuard
