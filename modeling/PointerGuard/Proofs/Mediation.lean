import PointerGuard.Proofs.Erasure
import PointerGuard.Proofs.Guards

/-!
# Complete mediation

Every load and every store of the program is checked as far as that is asked for, or constant
indices prove it in bounds, or its key check was counted as left out. The checks stand in the gap in
front of the access, one of each kind that is needed. What is shown of the passes on one function is
put together with what is known of a whole run: when a module has been instrumented, all loads and
stores of all of its functions are guarded.
-/

namespace PointerGuard

open PointerGuard.Function

variable {env : Env} {f g : Function} {s : Weaving} {ids : List ValueId} {r : Routine} {b : BlockId}
  {y : ValueId} {d : Decisions} {config : Config}

/-! ### Counters -/

/-- How often each kind of verdict was passed, in the order of the counters. -/
def Decisions.tally (d : Decisions) : List Nat :=
  [d.countP (·.2.1.isInserted), d.countP (·.2.2.isInserted), d.countP (·.2.1 = .elided ()),
    d.countP (·.2.2 = .elided .trivial), d.countP (·.2.2 = .elided .block),
    d.countP (·.2.2 = .elided .function)]

/-- Counting verdicts is adding up what each of them counts for. -/
theorem FunctionReport.tally_note (r : FunctionReport) (id : ValueId)
    (v : Verdict Unit × Verdict Tier) (d : Decisions) :
    List.zipWith (· + ·) ((r.noteBounds v.1).noteKey v.2).tally d.tally =
      List.zipWith (· + ·) r.tally (Decisions.tally ((id, v) :: d)) := by
  obtain ⟨bounds, key⟩ := v
  rcases bounds with _ | _ | _ <;> rcases key with _ | (_ | _ | _) | _ <;>
    simp [FunctionReport.tally, Decisions.tally, FunctionReport.noteBounds, FunctionReport.noteKey,
      FunctionReport.countEliminated, Verdict.isInserted, Nat.add_assoc, Nat.add_comm 1]

namespace Weaving

open Edit

variable {s' : Weaving} {id : ValueId}

theorem tally_of_checkInst (W : s.Woven env Any f) (hid : id.index < f.values.size)
    (h : (checkInst env id).Runs s ⟨⟩ s') :
    s'.report.tally =
      ((s.report.noteBounds (s.verdicts env id).1).noteKey (s.verdicts env id).2).tally := by
  rcases checkInst_cases h with ⟨m, hm, C⟩ | ⟨hnone, -⟩
  · rw [verdicts, hm]
    cases C with
    | nothing => rfl
    | inserted _ _ _ hresolve _ hchecks _ hreport =>
      obtain ⟨-, hsteady, -⟩ := insertion_adds W (fun _ _ => trivial) hid hm hresolve hchecks
      rw [hreport hsteady.report]
  · rw [verdicts, hnone]
    exact (checkInst_aside W hid trivial trivial trivial hnone h).2.tally

theorem tally_of_visits (W : s.Woven env Any f) (hids : ∀ id ∈ ids, id.index < f.values.size)
    (h : (ids.forM (checkInst env)).Runs s ⟨⟩ s') :
    s'.report.tally = List.zipWith (· + ·) s.report.tally
      (Decisions.tally (verdictsOn env ids s)) := by
  induction ids generalizing s with
  | nil =>
    obtain rfl := runs_forM_nil.mp h
    simp [verdictsOn, Decisions.tally, FunctionReport.tally]
  | cons id rest ih =>
    obtain ⟨t, hvisit, hrest⟩ := runs_forM_cons.mp h
    have hid := hids id (.head _)
    have Wt := (checkInst_steps W (fun _ _ => trivial) hid hvisit).1.woven W
    rw [ih Wt (fun id hid => hids id (.tail _ hid)) hrest,
      tally_of_checkInst W hid hvisit, FunctionReport.tally_note _ id, ← verdictsOn_cons hvisit]

end Weaving

/-! ### Extents in what a function grows to -/

namespace Function.Grows

variable {t : RoutineTable} {p : Routine → Prop} {i : Interface} {ptr : Operand}

/-- An extent that was found is found again, also with more values to follow. -/
theorem extentWithin_eq (G : f.Grows t p g) {fuel fuel' : Nat} {offset : Int} {extent : Extent}
    (hle : fuel ≤ fuel') (h : f.extentWithin i fuel offset ptr = some extent) :
    g.extentWithin i fuel' offset ptr = some extent := by
  induction fuel generalizing fuel' offset ptr with
  | zero =>
    cases ptr with
    | const c => cases fuel' <;> exact h
    | value x => cases h
  | succ fuel ih =>
    obtain ⟨fuel', rfl⟩ := Nat.exists_eq_add_of_le' (Nat.lt_of_lt_of_le (Nat.succ_pos fuel) hle)
    have hle : fuel ≤ fuel' := Nat.succ_le_succ_iff.mp hle
    cases ptr with
    | const c => exact h
    | value x =>
      rw [extentWithin] at h ⊢
      split at h
      · rename_i base indices hkind
        rw [G.kind?_eq hkind]
        simp only [Option.bind_eq_bind, Option.bind_eq_some_iff] at h ⊢
        obtain ⟨ty, hty, offset', hoffset, h⟩ := h
        refine ⟨ty, ?_, offset', hoffset, ih hle h⟩
        cases htype : f.operandType base with
        | ok ty' => rw [G.operandType_eq htype, ← htype, hty]
        | error e => rw [htype] at hty; cases hty
      · rename_i value hkind
        rw [G.kind?_eq hkind]
        exact ih hle h
      · rename_i hkind
        rw [G.kind?_eq hkind]
        exact h
      · cases h

theorem provenInBounds (G : f.Grows t p g) {bytes : Nat} (h : f.provenInBounds i ptr bytes) :
    g.provenInBounds i ptr bytes := by
  rw [Function.provenInBounds] at h ⊢
  cases hextent : f.extent? i ptr with
  | none =>
    rw [hextent] at h
    cases h
  | some extent =>
    rw [hextent] at h
    have hextent' : g.extent? i ptr = some extent :=
      G.extentWithin_eq (Nat.succ_le_succ G.size_le) hextent
    rw [hextent']
    exact h

end Function.Grows

/-! ### The order of visits -/

theorem Function.checkOrder?_spec {order : List BlockId} (h : f.checkOrder? = some order) :
    order.Nodup ∧ ∀ b : BlockId, b.index < f.blocks.size → b ∈ order := by
  obtain ⟨reached, hreached, rfl⟩ := Option.map_eq_some_iff.mp h
  constructor
  · refine (nodup_bfsBlocks hreached).append (nodup_blockIds.filter _) fun b hb hb' => ?_
    simpa [hb] using (List.mem_filter.mp hb').2
  · intro b hb
    rw [List.mem_append, List.mem_filter]
    by_cases hmem : b ∈ reached
    · exact .inl hmem
    · exact .inr ⟨mem_blockIds.mpr hb, by simpa using hmem⟩

theorem Weaving.map_fst_verdictsOn (env : Env) (ids : List ValueId) (s : Weaving) :
    (verdictsOn env ids s).map Prod.fst = ids := by
  induction ids generalizing s with
  | nil => rfl
  | cons id rest ih => rw [verdictsOn, List.map_cons, ih]

/-! ### Calls of one routine -/

namespace Env

/-- The arguments of a call, if it is one of a routine. -/
def argsOf (env : Env) (r : Routine) : InstKind → Option (List Operand)
  | .call callee args _ => if callee = env.routines.callee r then some args else none
  | _ => none

/-- The calls of a routine that stand in front of an instruction of `g`, after the last instruction
of the program, and are not in `f`; their arguments, in order. -/
def callsBefore (env : Env) (f g : Function) (r : Routine) (b : BlockId) (y : ValueId) :
    List (List Operand) :=
  (g.gapBefore b y).filterMap fun x =>
    if f.values.size ≤ x.index then (g.kind? x).bind (env.argsOf r) else none

variable {r' : Routine}

/-- For a routine that guards accesses it is enough to look at the checks. -/
theorem callsBefore_eq (hr : r.checksAccess) :
    env.callsBefore f g r b y = (env.checksBefore f g b y).filterMap (env.argsOf r) := by
  rw [checksBefore, checksAmong, List.filterMap_filterMap]
  refine List.filterMap_congr fun x _ => ?_
  split
  · cases g.kind? x with
    | none => rfl
    | some kind =>
      by_cases hcheck : env.checksAccess kind
      · simp [Option.filter, hcheck]
      · -- a call of the routine would be a check
        have hargs : env.argsOf r kind = none := by
          rw [argsOf.eq_def]
          split
          · refine if_neg fun hcallee => hcheck ?_
            exact List.any_eq_true.mpr ⟨r, r.mem_all, by simp [hr, hcallee]⟩
          · rfl
        simp [Option.filter, hcheck, hargs]
  · rfl

private theorem argsOf_callOf (hdistinct : env.Distinct) {args : List Operand} :
    env.argsOf r (env.callOf r' args) = if r = r' then some args else none := by
  change (if env.routines.callee r' = env.routines.callee r then some args else none) = _
  by_cases h : r = r'
  · rw [if_pos h, if_pos (by rw [h])]
  · rw [if_neg h, if_neg fun hcallee => h (hdistinct r' r hcallee).symm]

end Env

/-! ### The checks of an access -/

namespace Weaving

/-- The checks of an access that are wanted are there, once and with the metadata of the pointer, or
they are not there for a reason. -/
structure Guarded (env : Env) (f : Function) (s : Weaving) (d : Decisions) (b : BlockId)
    (y : ValueId) (m : MemoryAccess) : Prop where
  bounds : m.ptr.isNull = false → m.kind.wantsSpatial env.config →
    (∃ md raw size, s.resolved? env m.ptr = some md ∧
      s.func.AsVoidPtr (· ∈ s.func.gapBefore b y) m.ptr raw ∧
      signedWord? (Layout.size env.width m.ty) = some size ∧
      env.callsBefore f s.func m.kind.spatialRoutine b y =
        [[md.baseOrNull, md.boundOrNull, raw, .const (.int env.width.bits size)]]) ∨
    (env.config.eliminateConstantIndexSpatial ∧
      s.func.provenInBounds env.interface m.ptr (Layout.size env.width m.ty) ∧
      env.callsBefore f s.func m.kind.spatialRoutine b y = [])
  key : m.ptr.isNull = false → m.kind.wantsTemporal env.config →
    (∃ md, s.resolved? env m.ptr = some md ∧
      env.callsBefore f s.func m.kind.temporalRoutine b y =
        [[md.lockOrNull, md.keyOrZero env.width, md.baseOrNull, md.boundOrNull]]) ∨
    (∃ bounds tier, (y, bounds, .elided tier) ∈ d) ∧
      env.callsBefore f s.func m.kind.temporalRoutine b y = []

/-- All accesses of a function are guarded, and nothing else is. What was decided about the checks
is counted, each instruction once. -/
structure Mediated (env : Env) (f : Function) (s : Weaving) (d : Decisions) : Prop where
  guarded : ∀ {b y m}, y ∈ f.programInsts b → s.func.access? y = some m → s.Guarded env f d b y m
  only : ∀ {b y r}, y ∈ f.programInsts b → r.checksAccess → env.callsBefore f s.func r b y ≠ [] →
    ∃ m, s.func.access? y = some m ∧ m.ptr.isNull = false ∧
      (r = m.kind.spatialRoutine ∧ m.kind.wantsSpatial env.config ∨
        r = m.kind.temporalRoutine ∧ m.kind.wantsTemporal env.config)
  placed : Placed env f s.func
  counted : s.report.tally = d.tally
  once : (d.map Prod.fst).Nodup
  visited : ∀ y v, (y, v) ∈ d → ∃ b, y ∈ f.programInsts b

open Edit

variable {t : Weaving} {m : MemoryAccess} {v : Verdict Unit × Verdict Tier}

theorem filterMap_checkKinds (hdistinct : env.Distinct) {md : PointerMetadata} {raw : Operand}
    {size : Int} {bounds key : Bool} :
    (checkKinds env m md raw size bounds key).filterMap (env.argsOf r) =
      (if bounds ∧ r = m.kind.spatialRoutine then
        [[md.baseOrNull, md.boundOrNull, raw, .const (.int env.width.bits size)]] else []) ++
      if key ∧ r = m.kind.temporalRoutine then
        [[md.lockOrNull, md.keyOrZero env.width, md.baseOrNull, md.boundOrNull]] else [] := by
  rw [checkKinds, List.filterMap_append]
  congr 1
  · cases bounds with
    | false => simp
    | true =>
      by_cases hr : r = m.kind.spatialRoutine <;>
        simp [env.argsOf_callOf hdistinct, hr]
  · cases key with
    | false => simp
    | true =>
      by_cases hr : r = m.kind.temporalRoutine <;>
        simp [env.argsOf_callOf hdistinct, hr]

/-- What the verdicts on an access mean for it. -/
theorem GuardedBy.guarded (hdistinct : env.Distinct) (h : s.GuardedBy env f b y m v)
    (G : t.func.Grows env.routines Any s.func)
    (hv : v = (t.boundsVerdict env m, t.keyVerdict env y m)) (hd : (y, v) ∈ d) :
    s.Guarded env f d b y m := by
  obtain ⟨md, raw, size, hchecks, hresolved, hraw⟩ := h
  have hne : m.kind.spatialRoutine ≠ m.kind.temporalRoutine := by
    cases m.kind <;> simp [Access.spatialRoutine, Access.temporalRoutine]
  have hspatial : m.kind.spatialRoutine.checksAccess := by cases m.kind <;> rfl
  have htemporal : m.kind.temporalRoutine.checksAccess := by cases m.kind <;> rfl
  constructor
  · intro hnull hwants
    rw [env.callsBefore_eq hspatial, hchecks, filterMap_checkKinds hdistinct]
    have hbounds : v.1 = t.boundsVerdict env m := by rw [hv]
    rw [boundsVerdict, hnull, hwants] at hbounds
    simp only [Bool.not_true, Bool.or_self, Bool.false_eq_true, if_false] at hbounds
    split at hbounds
    · rename_i hproven
      rw [Bool.and_eq_true] at hproven
      refine .inr ⟨hproven.1, G.provenInBounds hproven.2, ?_⟩
      simp [hbounds, hne, Verdict.isInserted]
    · have hinserted : v.1.isInserted := by rw [hbounds]; rfl
      refine .inl ⟨md, raw, size, hresolved (.inl hinserted), (hraw hinserted).2,
        (hraw hinserted).1, ?_⟩
      simp [hinserted, hne]
  · intro hnull hwants
    rw [env.callsBefore_eq htemporal, hchecks, filterMap_checkKinds hdistinct]
    have hkey : v.2 = t.keyVerdict env y m := by rw [hv]
    rw [keyVerdict, hnull, hwants] at hkey
    simp only [Bool.not_true, Bool.or_self, Bool.false_eq_true, if_false] at hkey
    split at hkey
    · grind
    · have hinserted : v.2.isInserted := by rw [hkey]; rfl
      refine .inl ⟨md, hresolved (.inr hinserted), ?_⟩
      simp [hinserted, hne.symm]

/-- A check in front of an access is one that was wanted. -/
theorem GuardedBy.wanted (hdistinct : env.Distinct) (h : s.GuardedBy env f b y m v)
    (hv : v = (t.boundsVerdict env m, t.keyVerdict env y m)) (hr : r.checksAccess)
    (hcalls : env.callsBefore f s.func r b y ≠ []) :
    m.ptr.isNull = false ∧ (r = m.kind.spatialRoutine ∧ m.kind.wantsSpatial env.config ∨
      r = m.kind.temporalRoutine ∧ m.kind.wantsTemporal env.config) := by
  obtain ⟨md, raw, size, hchecks, -⟩ := h
  rw [env.callsBefore_eq hr, hchecks, filterMap_checkKinds hdistinct] at hcalls
  by_cases hspatial : (t.boundsVerdict env m).isInserted ∧ r = m.kind.spatialRoutine
  · obtain ⟨hinserted, hr⟩ := hspatial
    rw [boundsVerdict] at hinserted
    split at hinserted
    · cases hinserted
    · grind
  · by_cases htemporal : (t.keyVerdict env y m).isInserted ∧ r = m.kind.temporalRoutine
    · obtain ⟨hinserted, hr⟩ := htemporal
      rw [keyVerdict] at hinserted
      split at hinserted
      · cases hinserted
      · grind
    · grind

/-! ### The pipeline -/

/-- If a check of an access is wanted, the check pass is run. -/
theorem check_mem_pipeline {access : Access}
    (h : access.wantsSpatial config ∨ access.wantsTemporal config) : .check ∈ config.pipeline := by
  have hasked : config.spatialChecksEnabled || config.temporalChecksEnabled ||
      config.memcpyMetadata := by
    cases access <;>
      simp only [Access.wantsSpatial, Access.wantsTemporal, Bool.and_eq_true] at h <;>
      rcases h with ⟨h, h'⟩ | ⟨h, h'⟩ <;>
      simp [Config.spatialChecksEnabled, Config.temporalChecksEnabled, h, h']
  rw [Config.pipeline, if_pos hasked]
  simp

theorem checksBefore_refl (T : f.Tidy) : env.checksBefore f f b y = [] := by
  refine List.filterMap_eq_nil_iff.mpr fun x hx => if_neg ?_
  have hx : x ∈ f.instsOf b := List.takeWhile_subset _ ((List.rtakeWhile_suffix _ _).subset hx)
  exact Nat.not_le.mpr (T.index_lt hx)

theorem placed_refl (T : f.Tidy) : Placed env f f := by
  intro b x kind hx hle
  exact absurd (T.index_lt hx) (Nat.not_lt.mpr hle)

/-- The check pass has come to all instructions of the program in a function, to each of them once,
and there were no checks in front of them before. -/
structure Visited (env : Env) (f : Function) (ids : List ValueId) (t s : Weaving) : Prop where
  woven : t.Woven env Any f
  program : ∀ id ∈ ids, ∃ o, id ∈ f.programInsts o
  nodup : ids.Nodup
  all : ∀ {b y}, y ∈ f.programInsts b → y ∈ ids
  unchecked : ∀ {b y}, y ∈ f.programInsts b → env.checksBefore f t.func b y = []
  runs : (ids.forM (checkInst env)).Runs t ⟨⟩ s

namespace Visited

variable (V : Visited env f ids t s)

include V

theorem exists_verdict (hy : y ∈ f.programInsts b) : ∃ v, (y, v) ∈ verdictsOn env ids t := by
  have hmem := V.all hy
  rw [← map_fst_verdictsOn env ids t] at hmem
  obtain ⟨⟨y, v⟩, hv, rfl⟩ := List.mem_map.mp hmem
  exact ⟨v, hv⟩

theorem guardedBy (hdistinct : env.Distinct) (hy : y ∈ f.programInsts b)
    (hv : (y, v) ∈ verdictsOn env ids t) (hm : s.func.access? y = some m) :
    s.GuardedBy env f b y m v ∧
      ∃ t : Weaving, t.func.Grows env.routines Any s.func ∧
        v = (t.boundsVerdict env m, t.keyVerdict env y m) :=
  guardedBy_of_mem_verdictsOn hdistinct V.woven V.program V.nodup (V.unchecked hy) hy V.runs hv hm

/-- There are no checks in front of what is neither a load nor a store. -/
theorem callsBefore_eq_nil (hdistinct : env.Distinct) (hr : r.checksAccess)
    (hy : y ∈ f.programInsts b) (hm : s.func.access? y = none) :
    env.callsBefore f s.func r b y = [] := by
  obtain ⟨v, hv⟩ := V.exists_verdict hy
  rw [env.callsBefore_eq hr, checksBefore_eq_nil_of_mem_verdictsOn hdistinct V.woven V.program
    V.nodup (V.unchecked hy) hy V.runs hv hm]
  rfl

/-- Visits to all instructions of a function without checks guard all of its accesses. -/
theorem mediated (hdistinct : env.Distinct) (hplaced : Placed env f t.func)
    (htally : t.report.tally = Decisions.tally []) : Mediated env f s (verdictsOn env ids t) := by
  constructor
  case guarded =>
    intro b y m hy hm
    obtain ⟨v, hv⟩ := V.exists_verdict hy
    obtain ⟨guarded, u, G, heq⟩ := V.guardedBy hdistinct hy hv hm
    exact guarded.guarded hdistinct G heq hv
  case only =>
    intro b y r hy hr hcalls
    obtain ⟨v, hv⟩ := V.exists_verdict hy
    cases hm : s.func.access? y with
    | some m =>
      obtain ⟨guarded, u, -, heq⟩ := V.guardedBy hdistinct hy hv hm
      exact ⟨m, rfl, guarded.wanted hdistinct heq hr hcalls⟩
    | none => exact absurd (V.callsBefore_eq_nil hdistinct hr hy hm) hcalls
  case placed => exact placed_of_visits hdistinct V.woven V.program hplaced V.runs
  case counted =>
    rw [tally_of_visits V.woven (fun id hid =>
      index_lt_of_mem_programInsts V.woven.tidy (V.program id hid).choose_spec) V.runs, htally]
    simp [Decisions.tally]
  case once =>
    rw [map_fst_verdictsOn]
    exact V.nodup
  case visited =>
    intro y v hv
    refine V.program y ?_
    rw [← map_fst_verdictsOn env ids t]
    exact List.mem_map.mpr ⟨(y, v), hv, rfl⟩

end Visited

theorem mediated_of_unchecked (hcheck : .check ∉ env.config.pipeline)
    (hnone : ∀ b y, y ∈ f.programInsts b → env.checksBefore f s.func b y = [])
    (hplaced : Placed env f s.func) (htally : s.report.tally = Decisions.tally []) :
    Mediated env f s [] := by
  constructor
  case guarded =>
    intro b y m _ _
    exact ⟨fun _ h => absurd (check_mem_pipeline (.inl h)) hcheck,
      fun _ h => absurd (check_mem_pipeline (.inr h)) hcheck⟩
  case only => grind [Env.callsBefore_eq]
  case placed => exact hplaced
  case counted => exact htally
  case once => exact List.nodup_nil
  case visited =>
    intro y v hv
    cases hv

section

variable {store : Store} (P : Piped env f store s) (T : f.Tidy) (hfirst : f.ParamsFirst)
  (hstore : store.Vacant f) (hdistinct : env.Distinct)

include P T hfirst hstore hdistinct

theorem Piped.unchecked (hy : y ∈ f.programInsts b) :
    env.checksBefore f (env.beforeChecks f store).func b y = [] := by
  have W := P.woven (p := (·.checksAccess = false)) T hfirst hstore fun _ h => h
  rw [env.checksBefore_of_grows hdistinct (fun _ h => h) W.grows T (List.mem_of_mem_filter hy),
    checksBefore_refl T]

theorem Piped.visited (hcheck : .check ∈ env.config.pipeline) :
    ∃ order, (env.beforeChecks f store).func.checkOrder? = some order ∧
      Visited env f (order.flatMap f.programInsts)
      { env.beforeChecks f store with covered := [] } s ∧
      env.decisions f store = verdictsOn env (order.flatMap f.programInsts)
        { env.beforeChecks f store with covered := [] } := by
  have W := P.woven (p := Any) T hfirst hstore fun _ _ => trivial
  obtain ⟨order, horder, hvisits, hdecisions⟩ := P.visits T hfirst hstore hcheck
  obtain ⟨hnodup, hall⟩ := checkOrder?_spec horder
  refine ⟨order, horder, ⟨⟨T, W.grows⟩, fun id hid => ?_, T.nodup_programInsts hnodup,
    fun {b y} hy => ?_, fun hy => P.unchecked T hfirst hstore hdistinct hy, hvisits⟩, hdecisions⟩
  · grind
  · have hb := index_lt_of_mem_instsOf (List.mem_of_mem_filter hy)
    exact List.mem_flatMap.mpr ⟨b, hall b (by rw [W.grows.size_blocks]; exact hb), hy⟩

theorem Piped.mediated : Mediated env f s (env.decisions f store) := by
  have G := P.gathered (p := (·.checksAccess = false)) T hfirst hstore fun _ h => h
  have W := P.woven (p := (·.checksAccess = false)) T hfirst hstore fun _ h => h
  have hplaced : Placed env f (env.beforeChecks f store).func :=
    (placed_refl T).of_grows_aside (q := Any) T .refl W.grows hdistinct fun _ h => h
  have htally : (env.beforeChecks f store).report.tally = Decisions.tally [] :=
    Steps.tally_eq (fun _ h => h) G.steps
  by_cases hcheck : .check ∈ env.config.pipeline
  · grind [Piped.visited, Visited.mediated]
  · have hnone : ∀ b y, y ∈ f.programInsts b →
        env.checksBefore f (env.beforeChecks f store).func b y = [] :=
      fun b y hy => P.unchecked T hfirst hstore hdistinct hy
    obtain rfl := P.done hcheck
    rw [Env.decisions, if_neg hcheck]
    exact mediated_of_unchecked hcheck hnone hplaced htally

end

end Weaving

/-! ### Modules -/

open Edit

variable {f' : Function}

/-- Which calls are new depends on the number of values there were before. -/
theorem Env.callsBefore_congr (env : Env) (hsize : f'.values.size = f.values.size) :
    env.callsBefore f' = env.callsBefore f := by
  funext g r b y
  rw [callsBefore, callsBefore, hsize]

/-- For the guards of a function it does not matter what its operands were. -/
theorem Weaving.Mediated.congr (M : Mediated env f' s d) (hsize : f'.values.size = f.values.size)
    (hprogram : ∀ b, f'.programInsts b = f.programInsts b) : Mediated env f s d := by
  have hcalls := env.callsBefore_congr hsize
  constructor
  case guarded =>
    intro b y m hy hm
    obtain ⟨hbounds, hkey⟩ := M.guarded (hprogram b ▸ hy) hm
    rw [hcalls] at hbounds hkey
    exact ⟨hbounds, hkey⟩
  case only =>
    intro b y r hy hr hne
    exact M.only (hprogram b ▸ hy) hr (hcalls ▸ hne)
  case placed =>
    intro b x kind hx hnew hkind hcheck
    rw [← hprogram b]
    exact M.placed b x kind hx (hsize ▸ hnew) hkind hcheck
  case counted => exact M.counted
  case once => exact M.once
  case visited => grind [Weaving.Mediated.visited]

namespace Module

variable {m m' u : Module} {id : FuncId} {t : RoutineTable} {r? : Option Redirection}
  {report : Report}

section

variable (P : m.Prepares r? u) (hm : m.WellFormed) (hf : m.function id = .ok f)
  (htarget : f.isTarget) (hf' : u.function id = .ok f')

include P hm hf htarget hf'

omit hm in
/-- Preparing a module changes the names and flags of functions of the program, and what is
redirected in them. -/
theorem Prepares.eq_relabel : f' = (f.redirected r?).relabel f'.name f'.flags := by
  obtain ⟨g, hg, F⟩ := P.function hf
  cases hg.symm.trans hf'
  exact (F.body (isDeclaration_redirected.trans (isDeclaration_of_isTarget htarget))).eq_relabel

/-- Preparing changes which functions the instructions of the program name, and nothing else. -/
theorem Prepares.readdresses : f.Readdresses (f.redirection r?) f' := by
  have R : f.Readdresses (f.redirection r?) (f.redirected r?) :=
    readdresses_redirected (hm.wellFormed hf).tidy
  rw [P.eq_relabel hf htarget hf']
  exact ⟨R.id_eq, R.signature_eq, R.blocks_eq, R.size_eq, R.type_eq, R.param, R.inst⟩

/-- A function of the program that has been prepared has the instructions it had. -/
theorem Prepares.programInsts_eq :
    f'.values.size = f.values.size ∧ ∀ b, f'.programInsts b = f.programInsts b := by
  have R := P.readdresses hm hf htarget hf'
  exact ⟨R.size_eq, fun b => R.programInsts_eq (hm.wellFormed hf).tidy⟩

end

/-- A turn starts from a function of the program as it has been prepared. -/
structure Turn.StartsFrom {i : Interface} (turn : Turn config i t u m' id) (f : Function) :
    Prop where
  tidy : f.Tidy
  wellFormed : turn.f.WellFormed
  nonempty : 0 < turn.f.blocks.size
  width : turn.store.width = i.width
  fresh : ∀ v : ValueId, v.func = turn.f.id → turn.store.lookup v = none
  distinct : turn.env.Distinct
  readdresses : ∃ change, Operand.Readdressing change ∧ f.Readdresses change turn.f

/-- In a run the functions of the program take turns. What the passes keep of the metadata they are
given is so at every turn. -/
theorem exists_turns_keeping {I : Interface → RoutineTable → Store → Prop} (hm : m.WellFormed)
    (hI : ∀ i t, I i t ⟨i.width, []⟩)
    (hnext : ∀ i t f dominators store s, config.validate = .ok () →
      (Env.mk config i t dominators).Distinct → f.WellFormed →
      store.Vacant f → (Env.mk config i t dominators).Passes f store s →
      I i t store → I i t s.store) (h : (instrument config).Runs m report m') :
    ∃ prepared u, (prepare config).Runs m prepared u ∧
      List.Forall₂ (fun id r => ∃ f, m.function id = .ok f ∧
        ∃ turn : Turn config u.interface prepared.routines u m' id, turn.s.report = r ∧
          turn.StartsFrom f ∧ I u.interface prepared.routines turn.store) m.targets
        report.functions := by
  obtain ⟨prepared, u, hprepare, hall, -⟩ := runs_instrument h
  obtain ⟨hconfig, htargets, hdeclared, r?, P⟩ := of_runs_prepare hm hprepare
  rw [htargets] at hall
  obtain ⟨-, hturns⟩ := turns_of_runs_instrumentAll
    (I := fun store => store.width = u.width ∧ I u.interface prepared.routines store)
    P.wellFormed (nodup_targets hm) (fun _ _ _ _ => rfl) ⟨rfl, hI _ _⟩
    (fun f tree store s hf hstore passes hkept => ⟨(passes.width_eq hf hstore).trans hkept.1,
      hnext _ _ f tree store s hconfig (fun _ _ => hdeclared.callee_injective) hf hstore passes
        hkept.2⟩) hall
  refine ⟨prepared, u, hprepare, ?_⟩
  rw [List.forall₂_iff_get] at hturns ⊢
  refine ⟨hturns.1, fun k hk hk' => ?_⟩
  obtain ⟨turn, hreport, ⟨hwidth, hkept⟩, hfresh⟩ := hturns.2 k hk hk'
  obtain ⟨f, hf, htarget⟩ := (mem_targets hm).mp (List.get_mem m.targets ⟨k, hk⟩)
  have R := P.readdresses hm hf htarget turn.function
  refine ⟨f, hf, turn, hreport, ⟨(hm.wellFormed hf).tidy, P.wellFormed.wellFormed turn.function, ?_,
    hwidth, fun v hv => ?_, fun _ _ => hdeclared.callee_injective,
    _, readdressing_redirection, R⟩, hkept⟩
  · rw [R.blocks_eq]
    simp only [isTarget, isDeclaration, Bool.and_eq_true] at htarget
    simpa [Nat.pos_iff_ne_zero] using htarget.1
  · exact hfresh _ (List.mem_singleton_self _) v (hv.trans (P.wellFormed.id_eq turn.function))

theorem exists_turns (hm : m.WellFormed) (h : (instrument config).Runs m report m') :
    ∃ prepared u, (prepare config).Runs m prepared u ∧
      List.Forall₂ (fun id r => ∃ f, m.function id = .ok f ∧
        ∃ turn : Turn config u.interface prepared.routines u m' id, turn.s.report = r ∧
          turn.StartsFrom f) m.targets report.functions := by
  obtain ⟨prepared, u, hprepare, hturns⟩ := exists_turns_keeping (I := fun _ _ _ => True) hm
    (fun _ _ => trivial) (fun _ _ _ _ _ _ _ _ _ _ _ _ => trivial) h
  refine ⟨prepared, u, hprepare, hturns.imp ?_⟩
  rintro id r ⟨f, hf, turn, hreport, S, -⟩
  exact ⟨f, hf, turn, hreport, S⟩

/-- All accesses of all functions of the program are guarded. -/
theorem instrument_mediates {report : Report} (hm : m.WellFormed)
    (h : (instrument config).Runs m report m') :
    ∃ prepared u, (prepare config).Runs m prepared u ∧
      List.Forall₂ (fun id r => ∃ f, m.function id = .ok f ∧
        ∃ turn : Turn config u.interface prepared.routines u m' id, turn.s.report = r ∧
          Weaving.Mediated turn.env f turn.s turn.decisions) m.targets report.functions := by
  obtain ⟨prepared, u, hprepare, hturns⟩ := exists_turns hm h
  refine ⟨prepared, u, hprepare, hturns.imp ?_⟩
  rintro id r ⟨f, hf, turn, hreport, S⟩
  obtain ⟨change, -, R⟩ := S.readdresses
  have M : Weaving.Mediated turn.env turn.f turn.s turn.decisions := turn.passes.piped.mediated
    S.wellFormed.tidy S.wellFormed.paramsFirst turn.fresh S.distinct
  exact ⟨f, hf, turn, hreport, M.congr R.size_eq fun b => R.programInsts_eq S.tidy⟩

end Module

/-- The write through what was allocated is checked. -/
theorem instrument_mediates_allocModule :
    allocModule.WellFormed ∧
      ∃ report m', (Module.instrument {}).Runs allocModule report m' ∧
        ∃ prepared u, (Module.prepare {}).Runs allocModule prepared u ∧
          List.Forall₂ (fun id r => ∃ f, allocModule.function id = .ok f ∧
            ∃ turn : Module.Turn {} u.interface prepared.routines u m' id, turn.s.report = r ∧
              Weaving.Mediated turn.env f turn.s turn.decisions) allocModule.targets
            report.functions := by
  have hm : allocModule.WellFormed := by decide +kernel
  obtain ⟨report, hrun⟩ : ∃ report, (Module.instrument {}).Runs allocModule report _ :=
    Edit.exists_runs (by decide +kernel)
  exact ⟨hm, report, _, hrun, Module.instrument_mediates hm hrun⟩

end PointerGuard
