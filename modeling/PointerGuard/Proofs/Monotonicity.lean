import PointerGuard.Proofs.Emission

/-!
# Leaving out more checks never adds one

A check that is left out covers nothing, so one switch might make another check necessary. It does
not: coverage is transitive, and bounds checks are decided upon one by one. For bounds checks the
size of what is stored has to be known: a store of a value that does not exist may come to store one
that is inserted.
-/

namespace PointerGuard

open PointerGuard.Function Weaving Env

variable {env' : Env} {f : Function} {c a y : ValueId} {r : Routine} {store : Store}

/-! ### Switches -/

/-- The configuration with no check left out. -/
def Config.checkAll (config : Config) : Config :=
  { config with
    eliminateBlockTemporal := false
    eliminateFunctionTemporal := false
    eliminateStackTemporal := false
    eliminateGlobalTemporal := false
    eliminateConstantIndexSpatial := false }

/-- Two configurations differ only in the switches that leave checks out, and those that are on in
the first are on in the second. -/
structure Config.Relaxes (config config' : Config) : Prop where
  same : config'.checkAll = config.checkAll
  block : config.eliminateBlockTemporal → config'.eliminateBlockTemporal
  function : config.eliminateFunctionTemporal → config'.eliminateFunctionTemporal
  stack : config.eliminateStackTemporal → config'.eliminateStackTemporal
  global : config.eliminateGlobalTemporal → config'.eliminateGlobalTemporal
  constantIndex : config.eliminateConstantIndexSpatial → config'.eliminateConstantIndexSpatial

instance (config config' : Config) : Decidable (config.Relaxes config') :=
  decidable_of_iff (config'.checkAll = config.checkAll ∧
    (config.eliminateBlockTemporal → config'.eliminateBlockTemporal) ∧
    (config.eliminateFunctionTemporal → config'.eliminateFunctionTemporal) ∧
    (config.eliminateStackTemporal → config'.eliminateStackTemporal) ∧
    (config.eliminateGlobalTemporal → config'.eliminateGlobalTemporal) ∧
    (config.eliminateConstantIndexSpatial → config'.eliminateConstantIndexSpatial))
    ⟨fun ⟨h, hb, hf, hs, hg, hc⟩ => ⟨h, hb, hf, hs, hg, hc⟩,
      fun h => ⟨h.same, h.block, h.function, h.stack, h.global, h.constantIndex⟩⟩

/-- The environment with no check left out. -/
def Env.checkAll (env : Env) : Env := { env with config := env.config.checkAll }

/-! Gathering metadata does not depend on what is left out. Where the passes recurse this has to be
said by induction. -/

namespace Weaving

variable (env : Env)

private theorem tryResolveAll_checkAll : tryResolveAll env.checkAll = tryResolveAll env := by
  funext operands
  induction operands with
  | nil => rfl
  | cons operand rest ih =>
    rw [tryResolveAll, ih]
    rfl

theorem propagate_checkAll : propagate env.checkAll = propagate env := by
  have hcall : propagateCall env.checkAll = propagateCall env := by
    unfold propagateCall
    rw [tryResolveAll_checkAll]
    rfl
  unfold propagate
  rw [hcall]
  rfl

theorem createMetadata_checkAll : createMetadata env.checkAll = createMetadata env := by
  unfold createMetadata propagateOrDefer
  rw [propagate_checkAll]
  rfl

private theorem resolveRounds_checkAll : resolveRounds env.checkAll = resolveRounds env := by
  funext fuel waiting
  induction fuel generalizing waiting with
  | zero => rfl
  | succ fuel ih =>
    cases waiting with
    | nil => rfl
    | cons first rest => simp only [resolveRounds, propagate_checkAll, ih]

private theorem resolveMetadata_checkAll : resolveMetadata env.checkAll = resolveMetadata env := by
  unfold resolveMetadata resolveDeferred
  rw [resolveRounds_checkAll]
  rfl

end Weaving

theorem Env.beforeChecks_checkAll (env : Env) : env.checkAll.beforeChecks = env.beforeChecks := by
  have hcreate : runPass env.checkAll .create = runPass env .create := by
    rw [runPass, runPass, createMetadata_checkAll]
  have hresolve : runPass env.checkAll .resolve = runPass env .resolve := by
    rw [runPass, runPass, resolveMetadata_checkAll]
  have haudit : runPass env.checkAll .audit = runPass env .audit := rfl
  funext f store
  simp only [beforeChecks, List.mapM_cons, List.mapM_nil, hcreate, hresolve, haudit]

/-- Two environments that differ in what is left out. -/
structure Env.Relaxes (env env' : Env) : Prop where
  config : env.config.Relaxes env'.config
  same : env'.checkAll = env.checkAll

namespace Env.Relaxes

variable {env : Env} (R : env.Relaxes env')

include R

/-- Whatever does not depend on what is left out is the same. -/
theorem eq_of {α : Type} (view : Env → α) (hview : ∀ env : Env, view env.checkAll = view env) :
    view env' = view env := by
  rw [← hview env', R.same, hview env]

theorem beforeChecks_eq : env'.beforeChecks = env.beforeChecks :=
  R.eq_of beforeChecks beforeChecks_checkAll

theorem interface_eq : env'.interface = env.interface := R.eq_of interface fun _ => rfl

theorem pipeline_eq : env'.config.pipeline = env.config.pipeline :=
  R.eq_of (fun env => env.config.pipeline) fun _ => rfl

theorem wantsTemporal_eq (access : Access) :
    access.wantsTemporal env'.config = access.wantsTemporal env.config :=
  R.eq_of (fun env => access.wantsTemporal env.config) fun _ => by cases access <;> rfl

theorem wantsSpatial_eq (access : Access) :
    access.wantsSpatial env'.config = access.wantsSpatial env.config :=
  R.eq_of (fun env => access.wantsSpatial env.config) fun _ => by cases access <;> rfl

/-- What may not be freed, as far as the first makes use of that, is not checked by the second. -/
theorem isTriviallyLive_mono {source : Operand} (h : f.isTriviallyLive env.config source) :
    f.isTriviallyLive env'.config source := by
  cases source with
  | value x =>
    rw [isTriviallyLive] at h ⊢
    split at h
    · exact R.config.stack h
    · cases h
  | const c =>
    cases c with
    | global => exact R.config.global h
    | _ => cases h

theorem needsKey (h : env'.NeedsKey f a) : env.NeedsKey f a := by
  obtain ⟨m, source, hm, hground, hnull, hwants, hsource, hlive⟩ := h
  refine ⟨m, source, hm, hground, hnull, R.wantsTemporal_eq _ ▸ hwants, hsource, ?_⟩
  rw [Bool.eq_false_iff] at hlive ⊢
  exact fun h => hlive (R.isTriviallyLive_mono h)

theorem needsBounds (h : env'.NeedsBounds f a) : env.NeedsBounds f a := by
  obtain ⟨m, hm, hground, hnull, hwants, hproven⟩ := h
  refine ⟨m, hm, hground, hnull, R.wantsSpatial_eq _ ▸ hwants, ?_⟩
  have hwidth : env'.width = env.width := by rw [width, width, R.interface_eq]
  rw [R.interface_eq, hwidth, Bool.eq_false_iff] at hproven
  rw [Bool.eq_false_iff]
  intro h
  rw [Bool.and_eq_true] at h
  rw [Ne, Bool.and_eq_true] at hproven
  exact hproven ⟨R.config.constantIndex h.1, h.2⟩

theorem relieves (h : env.Relieves f c a) : env'.Relieves f c a := by
  obtain ⟨tier, used, source, covers⟩ := h
  refine ⟨tier, ?_, source, R.eq_of (·.config.opaqueCalls) (fun _ => rfl) ▸ covers⟩
  cases tier with
  | trivial => cases used
  | block => exact R.config.block used
  | function => exact R.config.function used

end Env.Relaxes

/-- What makes a check unnecessary whose own would make a third unnecessary does so itself. -/
theorem Env.Relieves.trans {env : Env} {z : ValueId} (T : f.Tidy) (h : env.Relieves f c a)
    (h' : env.Relieves f a z) : env.Relieves f c z := by
  obtain ⟨tier, used, ⟨source, hc, ha⟩, o, hco, covers⟩ := h
  obtain ⟨tier', used', ⟨source', ha', hz⟩, b, hab, covers'⟩ := h'
  obtain ⟨m, hm⟩ := access?_of_accessesSource ha
  obtain rfl : source' = source := Option.some.inj
    (((accessesSource_iff hm).mp ha').2.symm.trans ((accessesSource_iff hm).mp ha).2)
  -- the access in the middle is no call
  have hcall : f.mayFree env.config.opaqueCalls a = false := by
    obtain ⟨kind, hkind, -, hptr, -⟩ := mem_operands_of_access? hm
    rw [mayFree, isCall]
    cases kind <;> simp_all [InstKind.accessedPointer?, InstKind.isCall]
  rcases covers.trans T hab hcall covers' with hcovers | hcovers
  · exact ⟨tier, used, ⟨source', hc, hz⟩, o, hco, hcovers⟩
  · exact ⟨tier', used', ⟨source', hc, hz⟩, o, hco, hcovers⟩

/-! ### Accesses with a check -/

def InstKind.callee? : InstKind → Option Operand
  | .call callee _ _ => some callee
  | _ => none

/-- The value that a store stores, if it is not a constant. -/
def InstKind.storedValue? : InstKind → Option ValueId
  | .store (.value x) _ => some x
  | _ => none

theorem InstKind.storedValue?_mapOperands {change : Operand → Operand}
    (C : Operand.Readdressing change)
    {kind : InstKind} : (kind.mapOperands change).storedValue? = kind.storedValue? := by
  cases kind with
  | store value ptr =>
    cases value with
    | value x => simp [InstKind.mapOperands, C.value, InstKind.storedValue?]
    | const c =>
      obtain ⟨c', hc', -⟩ := C.const c
      simp [InstKind.mapOperands, hc', InstKind.storedValue?]
  | _ => rfl

namespace Function

/-- Accesses with a check by a routine: a call of it that is not in `f` stands between the access
and the instruction of the program in front of it. -/
def CheckedBy (t : RoutineTable) (f g : Function) (r : Routine) (y : ValueId) : Prop :=
  ∃ b ∈ f.blockIds, y ∈ f.programInsts b ∧ ∃ x ∈ g.gapBefore b y, f.values.size ≤ x.index ∧
    (g.kind? x).bind InstKind.callee? = some (t.callee r)

/-- The accesses of `f` whose keys are checked in `g`. -/
def keyChecked (t : RoutineTable) (f g : Function) : Set ValueId :=
  { y | ∃ access ∈ [Access.load, .store], CheckedBy t f g access.temporalRoutine y }

/-- The accesses of `f` whose bounds are checked in `g`. -/
def boundsChecked (t : RoutineTable) (f g : Function) : Set ValueId :=
  { y | ∃ access ∈ [Access.load, .store], CheckedBy t f g access.spatialRoutine y }

/-- Whatever the program stores is a constant or a value of the function. -/
def StoresExist (f : Function) : Prop :=
  ∀ b ∈ f.blockIds, ∀ y ∈ f.programInsts b, ∀ x ∈ (f.kind? y).bind InstKind.storedValue?,
    (f.value? x).isSome

instance (f : Function) : Decidable f.StoresExist :=
  inferInstanceAs (Decidable (∀ b ∈ f.blockIds, _))

instance (t : RoutineTable) (f g : Function) (r : Routine) : DecidablePred (f.CheckedBy t g r) :=
  fun _ => inferInstanceAs (Decidable (∃ b ∈ f.blockIds, _))

instance (t : RoutineTable) (f g : Function) : DecidablePred (· ∈ f.keyChecked t g) :=
  fun _ => inferInstanceAs (Decidable (∃ access ∈ [Access.load, .store], _))

instance (t : RoutineTable) (f g : Function) : DecidablePred (· ∈ f.boundsChecked t g) :=
  fun _ => inferInstanceAs (Decidable (∃ access ∈ [Access.load, .store], _))

end Function

theorem Env.checkedBy_iff {env : Env} {g : Function} :
    f.CheckedBy env.routines g r y ↔
      ∃ b, y ∈ f.programInsts b ∧ env.callsBefore f g r b y ≠ [] := by
  have hargs : ∀ kind, env.argsOf r kind = none ↔ kind.callee? ≠ some (env.routines.callee r) := by
    intro kind
    cases kind with
    | call callee args sig => simp [argsOf, InstKind.callee?]
    | _ => exact iff_of_true rfl (Option.some_ne_none _).symm
  have hcall : ∀ x, (g.kind? x).bind (env.argsOf r) = none ↔
      (g.kind? x).bind InstKind.callee? ≠ some (env.routines.callee r) := by
    intro x
    cases g.kind? x with
    | none => exact iff_of_true rfl (Option.some_ne_none _).symm
    | some kind => exact hargs kind
  constructor
  · rintro ⟨b, -, hy, x, hx, hle, hcallee⟩
    refine ⟨b, hy, fun hnil => ?_⟩
    have hnone := List.filterMap_eq_nil_iff.mp hnil x hx
    rw [if_pos hle] at hnone
    exact (hcall x).mp hnone hcallee
  · rintro ⟨b, hy, hne⟩
    rw [callsBefore, ne_eq, List.filterMap_eq_nil_iff] at hne
    push Not at hne
    obtain ⟨x, hx, hsome⟩ := hne
    have hb := index_lt_of_mem_instsOf (List.mem_of_mem_filter hy)
    refine ⟨b, mem_blockIds.mpr hb, hy, x, hx, ?_⟩
    split at hsome
    · grind
    · exact absurd rfl hsome

theorem Access.temporalRoutine_ne_spatialRoutine (access access' : Access) :
    access.temporalRoutine ≠ access'.spatialRoutine := by
  cases access <;> cases access' <;> nofun

namespace Weaving

open Edit

variable {env : Env} {s s₁ s₂ : Weaving} {ids : List ValueId}

/-- Of two runs over the same accesses, the one that leaves out more inserts no further key check.
If it inserts one, and the other does not, then because of a check that it does not insert itself;
but what made that check unnecessary covers the access as well. -/
theorem keyInserted_mono (R : env.Relaxes env') (htree : f.dominators? = some env.dominators)
    (hrecords : ∀ v md, s.store.lookup v = some md → f.Grounded (.value v))
    (hcovered : s.covered = []) (V : Visited env f ids s s₁) (V' : Visited env' f ids s s₂)
    (h : KeyInserted (verdictsOn env' ids s) a) : KeyInserted (verdictsOn env ids s) a := by
  have htree' : f.dominators? = some env'.dominators := by
    rw [R.eq_of dominators fun _ => rfl, htree]
  have hiff : ∀ {a front rest}, ids = front ++ a :: rest → _ := fun {a front rest} hsplit =>
    V.keyInserted_iff hsplit hrecords htree hcovered
  have hiff' : ∀ {a front rest}, ids = front ++ a :: rest → _ := fun {a front rest} hsplit =>
    V'.keyInserted_iff hsplit hrecords htree' hcovered
  obtain ⟨front, rest, hsplit⟩ := List.append_of_mem (fst_mem_of_mem_verdictsOn h.choose_spec)
  obtain ⟨hneeds, hnone⟩ := (hiff' hsplit).mp h
  refine (hiff hsplit).mpr ⟨R.needsKey hneeds, fun c hc hinserted hrelieves => ?_⟩
  -- the second run does not insert the check that the access was relieved by
  have hnot : ¬KeyInserted (verdictsOn env' ids s) c := fun h => hnone c hc h (R.relieves hrelieves)
  obtain ⟨front', rest', rfl⟩ := List.append_of_mem hc
  have hsplit' : ids = front' ++ c :: (rest' ++ a :: rest) := by simp [hsplit]
  have hneedsc := ((hiff hsplit').mp hinserted).1
  rw [hiff' hsplit', not_and] at hnot
  obtain ⟨tier, used, ⟨source, hsc, hsa⟩, -⟩ := id hrelieves
  -- it needs one, since the object is the same
  have hneedsc' : env'.NeedsKey f c := by
    obtain ⟨m, σ, hm, hground, hnull, hwants, hσ, -⟩ := hneedsc
    obtain ⟨m', σ', hm', -, hnull', -, hσ', hlive⟩ := hneeds
    refine ⟨m, σ, hm, hground, hnull, (R.wantsTemporal_eq _).symm ▸ hwants, hσ, ?_⟩
    rw [accessesSource_iff hm, hσ] at hsc
    rw [accessesSource_iff hm', hσ'] at hsa
    cases hsc.2
    cases hsa.2
    exact hlive
  -- so another check makes it unnecessary, which covers the access as well
  have hother := hnot hneedsc'
  simp only [not_forall, Classical.not_not] at hother
  obtain ⟨c', hc', hinserted', hrelieves'⟩ := hother
  exact hnone c' (List.mem_append_left _ hc') hinserted'
    (hrelieves'.trans V.woven.tidy (R.relieves hrelieves))

/-- Of two runs over the same accesses, the one that leaves out more inserts no further bounds
check. -/
theorem boundsInserted_mono (R : env.Relaxes env')
    (hstored : ∀ x ptr, f.kind? a = some (.store (.value x) ptr) → f.Has x)
    (hrecords : ∀ v md, s.store.lookup v = some md → f.Grounded (.value v))
    (V : Visited env f ids s s₁) (V' : Visited env' f ids s s₂)
    (h : BoundsInserted (verdictsOn env' ids s) a) : BoundsInserted (verdictsOn env ids s) a := by
  obtain ⟨front, rest, hsplit⟩ := List.append_of_mem (fst_mem_of_mem_verdictsOn h.choose_spec)
  rw [V'.boundsInserted_iff hsplit hrecords hstored] at h
  rw [V.boundsInserted_iff hsplit hrecords hstored]
  exact R.needsBounds h

/-- What stands in front of an instruction in the end, in terms of the verdicts on it. -/
theorem Visited.callsBefore_ne_nil_iff {b : BlockId} (V : Visited env f ids s s₁)
    (hdistinct : env.Distinct) (hr : r.checksAccess) (ha : a ∈ f.programInsts b) :
    env.callsBefore f s₁.func r b a ≠ [] ↔ ∃ m, f.access? a = some m ∧
      (r = m.kind.spatialRoutine ∧ BoundsInserted (verdictsOn env ids s) a ∨
        r = m.kind.temporalRoutine ∧ KeyInserted (verdictsOn env ids s) a) := by
  have hindex := index_lt_of_mem_programInsts V.woven.tidy ha
  have G : f.Grows env.routines Any s₁.func := by
    have hids : ∀ id ∈ ids, id.index < f.values.size := fun id hid =>
      index_lt_of_mem_programInsts V.woven.tidy (V.program id hid).choose_spec
    exact ((visits_steps V.woven (fun _ _ => trivial) hids V.runs).1.woven V.woven).grows
  cases hm : s₁.func.access? a with
  | none => grind [Visited.callsBefore_eq_nil, Grows.access?_some]
  | some m =>
    obtain ⟨ty, hmf⟩ := G.access?_of_grown hindex hm
    obtain ⟨v, hv⟩ := V.exists_verdict ha
    obtain ⟨⟨md, raw, size, hchecks, -⟩, -⟩ := V.guardedBy hdistinct ha hv hm
    have honly : ∀ v', (a, v') ∈ verdictsOn env ids s ↔ v' = v := by
      obtain ⟨front, rest, hsplit⟩ := List.append_of_mem (V.all ha)
      obtain ⟨t, -, -, -, -, -, hverdict, -⟩ := V.visit hsplit
      intro v'
      rw [hverdict, ← (hverdict v).mp hv]
    have hbounds : BoundsInserted (verdictsOn env ids s) a ↔ v.1.isInserted := by
      simp only [BoundsInserted, honly]
      rcases v with ⟨_ | _ | _, key⟩ <;> simp [Verdict.isInserted]
    have hkey : KeyInserted (verdictsOn env ids s) a ↔ v.2.isInserted := by
      simp only [KeyInserted, honly]
      rcases v with ⟨bounds, _ | _ | _⟩ <;> simp [Verdict.isInserted]
    rw [env.callsBefore_eq hr, hchecks, filterMap_checkKinds hdistinct, hmf, hbounds]
    simp only [Option.some.injEq]
    by_cases hspatial : v.1.isInserted ∧ r = m.kind.spatialRoutine
    · simp [hspatial]
    · grind

theorem lookup_eq_none_of_foreign (hforeign : ∀ v md, store.lookup v = some md → v.func ≠ f.id)
    (v : ValueId) (hv : f.Has v) :
    store.lookup v = none := by
  cases hlookup : store.lookup v with
  | none => rfl
  | some md => exact absurd hv.func_eq (hforeign v md hlookup)

section

variable (R : env.Relaxes env') (P : Piped env f store s₁) (P' : Piped env' f store s₂) (T : f.Tidy)
  (hfirst : f.ParamsFirst) (hforeign : ∀ v md, store.lookup v = some md → v.func ≠ f.id)
  (hdistinct : env.Distinct)

include R P P' T hfirst hforeign hdistinct

/-- Two runs of the pipeline that differ in what they leave out come to the same instructions in the
same order, from the same state. -/
theorem Piped.visited_together (hcheck : .check ∈ env.config.pipeline) :
    ∃ ids t, Visited env f ids t s₁ ∧ Visited env' f ids t s₂ ∧ t.covered = [] ∧
      ∀ v md, t.store.lookup v = some md → f.Grounded (.value v) := by
  have hstore : store.Vacant f := lookup_eq_none_of_foreign hforeign
  have hdistinct' : env'.Distinct := by
    have hroutines := R.eq_of routines fun _ => rfl
    rwa [Distinct, hroutines]
  obtain ⟨order, horder, V, -⟩ := P.visited T hfirst hstore hdistinct hcheck
  obtain ⟨order', horder', V', -⟩ :=
    P'.visited T hfirst hstore hdistinct' (R.pipeline_eq ▸ hcheck)
  rw [R.beforeChecks_eq] at horder' V'
  cases horder.symm.trans horder'
  have G : Gathered env Any f _ _ := P.gathered T hfirst hstore fun _ _ => trivial
  exact ⟨_, _, V, V', rfl,
    fun v md hv => G.grounded hforeign (show resolved? _ env (.value v) = _ from hv)⟩

/-- Calls are followed back to the verdicts of the one run, and from those of the other to its
calls. -/
theorem Piped.checkedBy_mono (hr : r.checksAccess)
    (hmono : ∀ {ids t} {access : Access}, Visited env f ids t s₁ → Visited env' f ids t s₂ →
      t.covered = [] → (∀ v md, t.store.lookup v = some md → f.Grounded (.value v)) →
      (r = access.spatialRoutine → BoundsInserted (verdictsOn env' ids t) y →
        BoundsInserted (verdictsOn env ids t) y) ∧
      (r = access.temporalRoutine → KeyInserted (verdictsOn env' ids t) y →
        KeyInserted (verdictsOn env ids t) y)) (h : f.CheckedBy env.routines s₂.func r y) :
    f.CheckedBy env.routines s₁.func r y := by
  have hroutines : env'.routines = env.routines := R.eq_of routines fun _ => rfl
  have hdistinct' : env'.Distinct := by rwa [Distinct, hroutines]
  rw [← hroutines, checkedBy_iff] at h
  obtain ⟨b, hy, hcalls⟩ := h
  by_cases hcheck : .check ∈ env.config.pipeline
  · obtain ⟨ids, t, V, V', hcovered, hrecords⟩ :=
      P.visited_together R P' T hfirst hforeign hdistinct hcheck
    obtain ⟨m, hm, hverdict⟩ := (V'.callsBefore_ne_nil_iff hdistinct' hr hy).mp hcalls
    obtain ⟨hbounds, hkey⟩ := @hmono ids t m.kind V V' hcovered hrecords
    refine checkedBy_iff.mpr ⟨b, hy, (V.callsBefore_ne_nil_iff hdistinct hr hy).mpr ⟨m, hm, ?_⟩⟩
    exact hverdict.imp (fun h => ⟨h.1, hbounds h.1 h.2⟩) fun h => ⟨h.1, hkey h.1 h.2⟩
  · rw [← P'.done (by rwa [R.pipeline_eq]), env'.callsBefore_eq hr,
      P'.unchecked T hfirst (lookup_eq_none_of_foreign hforeign) hdistinct' hy] at hcalls
    exact absurd rfl hcalls

/-- Of two runs of the pipeline the one that leaves out more checks the keys of no further
access. -/
theorem Piped.keyChecked_subset (htree : f.dominators? = some env.dominators) :
    f.keyChecked env.routines s₂.func ⊆ f.keyChecked env.routines s₁.func := by
  rintro y ⟨access, haccess, hchecked⟩
  refine ⟨access, haccess,
    P.checkedBy_mono R P' T hfirst hforeign hdistinct (by cases access <;> rfl)
    (fun V V' hcovered hrecords => ?_) hchecked⟩
  exact ⟨fun h => absurd h (access.temporalRoutine_ne_spatialRoutine _),
    fun _ => keyInserted_mono R htree hrecords hcovered V V'⟩

/-- Of two runs of the pipeline the one that leaves out more checks the bounds of no further
access. -/
theorem Piped.boundsChecked_subset (hstored : f.StoresExist) :
    f.boundsChecked env.routines s₂.func ⊆ f.boundsChecked env.routines s₁.func := by
  rintro y ⟨access, haccess, hchecked⟩
  obtain ⟨b, hb, hy, -⟩ := id hchecked
  refine ⟨access, haccess,
    P.checkedBy_mono R P' T hfirst hforeign hdistinct (by cases access <;> rfl)
    (fun V V' _ hrecords => ?_) hchecked⟩
  have hexists : ∀ x ptr, f.kind? y = some (.store (.value x) ptr) → f.Has x := by
    intro x ptr hkind
    exact hstored b hb y hy x (by rw [hkind]; rfl)
  exact ⟨fun _ => boundsInserted_mono R hexists hrecords V V',
    fun h => absurd h.symm (Access.temporalRoutine_ne_spatialRoutine _ access)⟩

end

end Weaving

/-! ### Modules -/

namespace Module

variable {m m' n n' u : Module} {id : FuncId} {f' : Function} {config config' : Config}
  {i : Interface} {t : RoutineTable} {r? : Option Redirection}

open Edit

theorem prepare_eq_of_relaxes (hrelax : config.Relaxes config') :
    prepare config' = prepare config :=
  calc prepare config' = prepare config'.checkAll := rfl
    _ = prepare config.checkAll := by rw [hrelax.same]
    _ = prepare config := rfl

/-- Two runs that differ in what they leave out come to each function with the same metadata. -/
theorem each_of_runs_together {ids : List FuncId} {reports reports' : List FunctionReport}
    (hrelax : config.Relaxes config') (hm : m.WellFormed) (hm' : m'.WellFormed)
    (hsame : ∀ id ∈ ids, m'.function id = m.function id) (hnodup : ids.Nodup)
    (hstore : Fresh store ids) (h : (instrumentAll config i t store ids).Runs m reports n)
    (h' : (instrumentAll config' i t store ids).Runs m' reports' n') :
    ∀ id ∈ ids, ∃ f dominators store s s', m.function id = .ok f ∧
      (∀ v md, store.lookup v = some md → v.func ≠ id) ∧
      (Env.mk config i t dominators).Passes f store s ∧
      (Env.mk config' i t dominators).Passes f store s' ∧
      n.function id = .ok s.func ∧ n'.function id = .ok s'.func := by
  induction ids generalizing m m' store reports reports' with
  | nil => nofun
  | cons first rest ih =>
    obtain ⟨hfirst, hlater⟩ := List.nodup_cons.mp hnodup
    rw [instrumentAll] at h h'
    simp only [runs_bind, runs_pure, Prod.exists, runs_instrumentFunction] at h h'
    obtain ⟨_, _, _, ⟨f, dominators, s, hf, P, -, rfl, rfl, rfl⟩, reports, _, hrest, rfl, hend⟩ := h
    obtain ⟨_, _, _, ⟨f', dominators', s', hf', P', -, rfl, rfl, rfl⟩, reports', _, hrest', rfl,
      hend'⟩ := h'
    rw [hend] at hrest
    rw [hend'] at hrest'
    obtain rfl : f = f' := Except.ok.inj
      (hf.symm.trans ((hsame first (.head _)).symm.trans hf'))
    obtain rfl : dominators = dominators' :=
      Option.some.inj (P.dominators.symm.trans P'.dominators)
    have R : (Env.mk config i t dominators).Relaxes (Env.mk config' i t dominators) :=
      ⟨hrelax, by rw [Env.checkAll, Env.checkAll, hrelax.same]⟩
    have hown := hstore.vacant hm hf
    have hstores : s'.store = s.store := by
      rw [P.store_eq (hm.wellFormed hf) hown, P'.store_eq (hm.wellFormed hf) hown,
        R.beforeChecks_eq]
    have G := grows_setFunction hm hf (P.grows (hm.wellFormed hf).tidy)
    have G' := grows_setFunction hm' hf' (P'.grows (hm.wellFormed hf).tidy)
    have hfresh : Fresh s.store rest := fresh_of_passes hm hf hfirst hstore P
    rw [hstores] at hrest'
    intro id hid
    rcases List.mem_cons.mp hid with rfl | hid
    · refine ⟨f, dominators, store, s, s', hf, fun v md hv hfunc => ?_, P, P', ?_, ?_⟩
      · rw [hstore id (.head _) v hfunc] at hv
        cases hv
      · rw [(each_of_runs_instrumentAll G.wellFormed hlater hfresh hrest).1 id hfirst,
          function_setFunction_self hf]
      · rw [(each_of_runs_instrumentAll G'.wellFormed hlater hfresh hrest').1 id hfirst,
          function_setFunction hf', if_pos rfl]
    · -- functions that come later are not touched before it is their turn
      have hother : ∀ other ∈ rest,
          (m'.setFunction first s'.func).function other =
            (m.setFunction first s.func).function other := by
        grind [ne_of_mem_of_not_mem, function_setFunction]
      have hturns := ih G.wellFormed G'.wellFormed hother hlater hfresh hrest hrest' id hid
      rwa [function_setFunction hf, if_neg (ne_of_mem_of_not_mem hid hfirst)] at hturns

/-- What is stored in a function that has been prepared is what was stored before, except for the
addresses of functions. -/
theorem Prepares.storesExist (P : m.Prepares r? u) (hm : m.WellFormed) (hf : m.function id = .ok f)
    (htarget : f.isTarget) (hf' : u.function id = .ok f') (h : f.StoresExist) : f'.StoresExist := by
  have R := P.readdresses hm hf htarget hf'
  intro b hb y hy x hx
  have hb' : b ∈ f.blockIds := by rwa [blockIds, ← R.blocks_eq]
  have hy' : y ∈ f.programInsts b := by rwa [← R.programInsts_eq (hm.wellFormed hf).tidy]
  refine R.has_iff.mpr (h b hb' y hy' x ?_)
  obtain ⟨inst, hinst⟩ := (hm.wellFormed hf).tidy.listed (List.mem_of_mem_filter hy')
  have hkind : f.kind? y = some inst.kind := kind?_of_inst? hinst
  rw [R.kind? (List.mem_of_mem_filter hy') hkind, Option.bind_some,
    InstKind.storedValue?_mapOperands readdressing_redirection] at hx
  rwa [hkind]

/-- For the checks in a function it does not matter what its operands were. -/
theorem Prepares.checkedBy_eq (P : m.Prepares r? u) (t : RoutineTable) (hm : m.WellFormed)
    (hf : m.function id = .ok f) (htarget : f.isTarget) (hf' : u.function id = .ok f') :
    f'.CheckedBy t = f.CheckedBy t := by
  have hblocks : f'.blockIds = f.blockIds := by
    rw [blockIds, blockIds, (P.readdresses hm hf htarget hf').blocks_eq]
  obtain ⟨hsize, hprogram⟩ := P.programInsts_eq hm hf htarget hf'
  funext g r y
  simp only [CheckedBy, hblocks, hsize, hprogram]

/-- Leaving out checks for more reasons adds no check: those accesses that are checked by a run on a
module are checked by every run that leaves out less. -/
theorem checked_subset_of_relaxes {report report' : Report} (hm : m.WellFormed)
    (hrelax : config.Relaxes config') (h : (instrument config).Runs m report n)
    (h' : (instrument config').Runs m report' n') :
    ∃ prepared u, (prepare config).Runs m prepared u ∧ (prepare config').Runs m prepared u ∧
      ∀ id ∈ m.targets, ∃ f g g', m.function id = .ok f ∧ n.function id = .ok g ∧
        n'.function id = .ok g' ∧
        f.keyChecked prepared.routines g' ⊆ f.keyChecked prepared.routines g ∧
        (f.StoresExist →
          f.boundsChecked prepared.routines g' ⊆ f.boundsChecked prepared.routines g) := by
  obtain ⟨prepared, u, hprepare, hall, -⟩ := runs_instrument h
  obtain ⟨prepared', u', hprepare', hall', -⟩ := runs_instrument h'
  rw [prepare_eq_of_relaxes hrelax] at hprepare' ⊢
  obtain ⟨rfl, rfl⟩ := hprepare.unique hprepare'
  obtain ⟨-, htargets, hdeclared, r?, P⟩ := of_runs_prepare hm hprepare
  rw [htargets] at hall hall'
  refine ⟨prepared, u, hprepare, hprepare, fun id hid => ?_⟩
  obtain ⟨f, hf, htarget⟩ := (mem_targets hm).mp hid
  obtain ⟨f', dominators, store, s, s', hf', hforeign, passes, passes', hg, hg'⟩ :=
    each_of_runs_together hrelax P.wellFormed P.wellFormed (fun _ _ => rfl) (nodup_targets hm)
      (fun _ _ _ _ => rfl) hall hall' id hid
  have hwf := P.wellFormed.wellFormed hf'
  have R : (Env.mk config u.interface prepared.routines dominators).Relaxes
      (Env.mk config' u.interface prepared.routines dominators) :=
    ⟨hrelax, by rw [Env.checkAll, Env.checkAll, hrelax.same]⟩
  rw [← P.wellFormed.id_eq hf'] at hforeign
  have hdistinct : (Env.mk config u.interface prepared.routines dominators).Distinct :=
    fun _ _ => hdeclared.callee_injective
  have hkeys := passes.piped.keyChecked_subset R passes'.piped hwf.tidy hwf.paramsFirst hforeign
    hdistinct passes.dominators
  have hbounds :=
    passes.piped.boundsChecked_subset R passes'.piped hwf.tidy hwf.paramsFirst hforeign
    hdistinct
  have hchecked := P.checkedBy_eq prepared.routines hm hf htarget hf'
  simp only [Function.keyChecked, Function.boundsChecked, hchecked] at hkeys hbounds
  exact ⟨f, s.func, s'.func, hf, hg, hg', hkeys,
    fun hstored => hbounds (P.storesExist hm hf htarget hf' hstored)⟩

end Module

/-! ### A function that reads again

A parameter is read three times, and in a block that is never entered something is stored to the
frame. -/

/-- The function, by what it stores. -/
def rereadFunction (stored : Operand) : Function :=
  .ofBlocks ⟨0⟩ "f" ⟨.void, [.ptr (.int 32)], false⟩ [
  [(.ptr (.int 32), .alloca (.int 32) none), (.int 32, .load (val 0)), (.int 32, .load (val 0)),
    (.int 32, .load (val 0)), (.void, .ret none)],
  [(.void, .store stored (val 1)), (.void, .ret none)]]

/-- The module, by what it stores. -/
def rereadModule (stored : Operand) : Module where
  name := "m"
  width := .bits64
  functions := #[rereadFunction stored]

/-- Only bounds checks are left out. -/
def keepKeyChecks : Config where
  eliminateBlockTemporal := false
  eliminateFunctionTemporal := false
  eliminateStackTemporal := false
  eliminateGlobalTemporal := false
  verifyOutput := false

/-- Key checks within a block are left out too. -/
def dropKeyChecks : Config := { keepKeyChecks with eliminateBlockTemporal := true }

theorem checked_subset_of_relaxes_rereadModule :
    let m := rereadModule (.const (.int 32 7))
    m.WellFormed ∧ keepKeyChecks.Relaxes dropKeyChecks ∧
      ∃ report n report' n', (Module.instrument keepKeyChecks).Runs m report n ∧
        (Module.instrument dropKeyChecks).Runs m report' n' ∧
        ∃ prepared u f g g', (Module.prepare keepKeyChecks).Runs m prepared u ∧
          m.function ⟨0⟩ = .ok f ∧ n.function ⟨0⟩ = .ok g ∧ n'.function ⟨0⟩ = .ok g' ∧
            f.StoresExist ∧
          f.keyChecked prepared.routines g' ⊆ f.keyChecked prepared.routines g ∧
          f.boundsChecked prepared.routines g' ⊆ f.boundsChecked prepared.routines g := by
  intro m
  have hm : m.WellFormed := by decide +kernel
  have hrelax : keepKeyChecks.Relaxes dropKeyChecks := by decide +kernel
  obtain ⟨report, hrun⟩ : ∃ report, (Module.instrument keepKeyChecks).Runs m report _ :=
    Edit.exists_runs (by decide +kernel)
  obtain ⟨report', hrun'⟩ : ∃ report, (Module.instrument dropKeyChecks).Runs m report _ :=
    Edit.exists_runs (by decide +kernel)
  obtain ⟨prepared, u, hprepare, -, hsubset⟩ :=
    Module.checked_subset_of_relaxes hm hrelax hrun hrun'
  obtain ⟨f, g, g', hf, hg, hg', hkeys, hbounds⟩ := hsubset ⟨0⟩ (by decide +kernel)
  have hstored : f.StoresExist := by
    obtain rfl : rereadFunction _ = f := Except.ok.inj hf
    decide +kernel
  exact ⟨hm, hrelax, report, _, report', _, hrun, hrun', prepared, u, f, g, g',
    hprepare, hf, hg, hg', hstored, hkeys, hbounds hstored⟩

/-- Where a store names a value that does not exist, leaving out a key check may add a bounds
check. -/
theorem boundsChecked_not_subset_rereadModule :
    let m := rereadModule (.value ⟨⟨0⟩, 24⟩)
    m.WellFormed ∧ keepKeyChecks.Relaxes dropKeyChecks ∧
      ∃ report n report' n', (Module.instrument keepKeyChecks).Runs m report n ∧
        (Module.instrument dropKeyChecks).Runs m report' n' ∧
        ∃ prepared u f g g', (Module.prepare keepKeyChecks).Runs m prepared u ∧
          ⟨0⟩ ∈ m.targets ∧ m.function ⟨0⟩ = .ok f ∧ n.function ⟨0⟩ = .ok g ∧
          n'.function ⟨0⟩ = .ok g' ∧
          ¬f.boundsChecked prepared.routines g' ⊆ f.boundsChecked prepared.routines g := by
  intro m
  obtain ⟨report, hrun⟩ : ∃ report, (Module.instrument keepKeyChecks).Runs m report _ :=
    Edit.exists_runs (by decide +kernel)
  obtain ⟨report', hrun'⟩ : ∃ report, (Module.instrument dropKeyChecks).Runs m report _ :=
    Edit.exists_runs (by decide +kernel)
  obtain ⟨prepared, hprepare⟩ : ∃ prepared, (Module.prepare keepKeyChecks).Runs m prepared _ :=
    Edit.exists_runs (by decide +kernel)
  obtain ⟨f, hf, g, hg, g', hg', t, ht, hin, hnot⟩ : ∃ f ∈ m.functions[0]?,
      ∃ g ∈ ((Module.instrument keepKeyChecks).apply m).2.functions[0]?,
      ∃ g' ∈ ((Module.instrument dropKeyChecks).apply m).2.functions[0]?,
      ∃ t ∈ ((Module.prepare keepKeyChecks).apply m).1.toOption.map (·.routines),
        ⟨⟨0⟩, 6⟩ ∈ f.boundsChecked t g' ∧ ⟨⟨0⟩, 6⟩ ∉ f.boundsChecked t g := by
    decide +kernel
  obtain rfl : prepared.routines = t := by
    rw [hprepare] at ht
    exact Option.some.inj ht
  exact ⟨by decide +kernel, by decide +kernel, report, _, report', _, hrun, hrun', prepared, _,
    f, g, g', hprepare, by decide +kernel, Module.function_eq_ok_iff.mpr hf,
    Module.function_eq_ok_iff.mpr hg, Module.function_eq_ok_iff.mpr hg',
      fun hsubset => hnot (hsubset hin)⟩

end PointerGuard
