import PointerGuard.Module.Verify
import PointerGuard.Proofs.Mediation
import PointerGuard.Proofs.TypedWeaving

/-!
# Functions are instrumented independently

All functions of a module record their metadata in one store. Still what the passes make of a
function follows from the function, the interface of the module, the runtime and the configuration.
So the order of the functions does not matter.
-/

namespace PointerGuard

open Edit Weaving

variable {id : FuncId} {f g : Function} {store : Store} {covered : List (ValueId × Tier)}
  {s : Weaving} {m m' : Module} {config : Config} {i : Interface} {t : RoutineTable}
  {carry : Weaving → List (ValueId × Tier)} {ids : List FuncId} {reports : List FunctionReport}
  {report : FunctionReport}

/-- What becomes of a function that is instrumented on its own: its new body and its report. -/
def Function.instrumentAlone (f : Function) (config : Config) (i : Interface) (t : RoutineTable) :
    Except Error (Function × FunctionReport) := do
  f.checkEntry
  match f.dominators? with
  | none => throw (.fault .danglingEdge)
  | some dominators =>
    let (outcome, s) := (config.pipeline.mapM (runPass ⟨config, i, t, dominators⟩)).apply
      (.start f ⟨i.width, []⟩)
    let _ ← outcome
    if config.verifyOutput then
      s.func.verify
    return (s.func, s.report)

namespace Module

/-- Edit a function as a weaving with marks on accesses from before, and give all that is left. -/
def weaveCarrying {α : Type} (id : FuncId) (store : Store) (covered : List (ValueId × Tier))
    (edit : Edit Weaving α) : Edit Module Weaving :=
  Module.onFunction id do
    let (outcome, s) := edit.apply { start (← get) store with covered := covered }
    set s.func
    let _ ← Edit.ofExcept outcome
    return s

/-- Instrument functions one after another with passes that carry marks on accesses over from one
function to the next. -/
def instrumentCarrying (carry : Weaving → List (ValueId × Tier)) (config : Config)
    (interface : Interface) (routines : RoutineTable) :
    List (ValueId × Tier) → Store → List FuncId → Edit Module (List FunctionReport)
  | _, _, [] => return []
  | covered, store, id :: rest => do
    let f ← Edit.ofExcept ((← get).function id)
    Edit.ofExcept f.checkEntry
    let dominators ← Edit.ofOption .danglingEdge f.dominators?
    let env : Env := ⟨config, interface, routines, dominators⟩
    let s ← weaveCarrying id store covered (config.pipeline.mapM (runPass env))
    if config.verifyOutput then
      Edit.ofExcept ((← get).function id >>= Function.verify)
    let reports ← instrumentCarrying carry config interface routines (carry s) s.store rest
    return s.report :: reports

end Module

/-- The passes have run from some state on a function that they could be run on. -/
structure Env.PassesFrom (env : Env) (f : Function) (start s : Weaving) : Prop where
  checkEntry : f.checkEntry = .ok ()
  dominators : f.dominators? = some env.dominators
  runs : ∃ changed, (env.config.pipeline.mapM (runPass env)).Runs start changed s

section

variable {env : Env} {store' : Store}

theorem Env.passes_iff : env.Passes f store s ↔ env.PassesFrom f (.start f store) s :=
  ⟨fun P => ⟨P.checkEntry, P.dominators, P.runs⟩, fun P => ⟨P.checkEntry, P.dominators, P.runs⟩⟩

/-- What the passes make of a function does not depend on metadata of values that are not its own,
nor on marks. -/
theorem Env.PassesFrom.twin {own : ValueId → Prop}
    (P : env.PassesFrom f { start f store with covered := covered } s) (F : f.Enclosed)
    (T : f.Tidy) (hown : ∀ v, v.func = f.id → own v) (hstore : store.LikeOn own store')
    (covered' : List (ValueId × Tier)) :
    ∃ s', env.PassesFrom f { start f store' with covered := covered' } s' ∧
      s.Alike own False s' := by
  obtain ⟨changed, hrun⟩ := P.runs
  have halike : Alike own False { start f store with covered := covered }
      { start f store' with covered := covered' } :=
    ⟨rfl, hstore, rfl, rfl, rfl, rfl, rfl, nofun⟩
  obtain ⟨s', hrun', h⟩ := ((pipeline_advances F hown False.elim False.elim False
    (advances_start T False.elim)).agree _ halike).runs hrun
  exact ⟨s', ⟨P.checkEntry, P.dominators, changed, hrun'⟩, h⟩

end

namespace Module

private theorem runs_weaveCarrying {α : Type} {edit : Edit Weaving α} :
    (weaveCarrying id store covered edit).Runs m s m' ↔
      ∃ f a, m.function id = .ok f ∧
        edit.Runs { start f store with covered := covered } a s ∧
        m.setFunction id s.func = m' := by
  refine (runs_onWeaving (fun f => { start f store with covered := covered })
    fun _ s => s).trans ⟨?_, ?_⟩
  · simp
  · simp

theorem runs_instrumentCarrying_cons :
    (instrumentCarrying carry config i t covered store (id :: ids)).Runs m reports m' ↔
      ∃ f dominators s rest, m.function id = .ok f ∧
        (Env.mk config i t dominators).PassesFrom f
          { start f store with covered := covered } s ∧
        (config.verifyOutput → s.func.verify = .ok ()) ∧
        (instrumentCarrying carry config i t (carry s) s.store ids).Runs (m.setFunction id s.func)
          rest m' ∧
        reports = s.report :: rest := by
  rw [instrumentCarrying]
  simp only [runs_bind, runs_get, runs_ofExcept, runs_ofOption, runs_weaveCarrying]
  constructor
  · rintro ⟨_, _, ⟨rfl, rfl⟩, f, _, ⟨hf, rfl⟩, _, _, ⟨hentry, rfl⟩, dominators, _,
      ⟨hdominators, rfl⟩, s, _, ⟨f', changed, hf', hpasses, rfl⟩, hrest⟩
    cases hf.symm.trans hf'
    have P : (Env.mk config i t dominators).PassesFrom f
        { start f store with covered := covered } s := ⟨hentry, hdominators, changed, hpasses⟩
    split at hrest
    · simp only [runs_bind, runs_ofExcept] at hrest
      obtain ⟨_, _, ⟨rfl, rfl⟩, _, _, ⟨hverify, rfl⟩, rest, _, hrest, rfl, rfl⟩ := hrest
      rw [function_setFunction_self hf] at hverify
      exact ⟨f, dominators, s, rest, hf, P, fun _ => hverify, hrest, rfl⟩
    · grind [runs_bind, runs_pure]
  · rintro ⟨f, dominators, s, rest, hf, ⟨hentry, hdominators, changed, hpasses⟩,
      hverify, hrest, rfl⟩
    refine ⟨m, m, ⟨rfl, rfl⟩, f, m, ⟨hf, rfl⟩, (), m, ⟨hentry, rfl⟩, dominators, m,
      ⟨hdominators, rfl⟩, s, _, ⟨f, changed, hf, hpasses, rfl⟩, ?_⟩
    split
    · rename_i hasked
      simp only [runs_bind, runs_get, runs_ofExcept, runs_pure]
      refine ⟨_, _, ⟨rfl, rfl⟩, (), _, ⟨?_, rfl⟩, rest, m', hrest, rfl, rfl⟩
      rw [function_setFunction_self hf]
      exact hverify hasked
    · simp only [runs_bind, runs_pure]
      exact ⟨rest, m', hrest, rfl, rfl⟩

/-- Instrumenting functions one after another is doing so with passes that forget their marks. -/
theorem runs_instrumentAll_iff :
    (instrumentAll config i t store ids).Runs m reports m' ↔
      (instrumentCarrying (fun _ => []) config i t [] store ids).Runs m reports m' := by
  induction ids generalizing m store reports with
  | nil => rfl
  | cons id ids ih =>
    rw [runs_instrumentCarrying_cons, instrumentAll]
    simp only [runs_bind, runs_pure, Prod.exists, runs_instrumentFunction, Env.passes_iff]
    constructor
    · rintro ⟨_, _, _, ⟨f, dominators, s, hf, P, hverify, rfl, rfl, rfl⟩, rest, _, hrest, rfl, rfl⟩
      exact ⟨f, dominators, s, rest, hf, P, hverify, ih.mp hrest, rfl⟩
    · rintro ⟨f, dominators, s, rest, hf, P, hverify, hrest, rfl⟩
      exact ⟨_, _, _, ⟨f, dominators, s, hf, P, hverify, rfl, rfl, rfl⟩, rest, _, ih.mpr hrest,
        rfl, rfl⟩

end Module

theorem Function.instrumentAlone_eq_ok_iff :
    f.instrumentAlone config i t = .ok (g, report) ↔
      ∃ dominators s, (Env.mk config i t dominators).PassesFrom f (.start f ⟨i.width, []⟩) s ∧
        (config.verifyOutput → s.func.verify = .ok ()) ∧ s.func = g ∧ s.report = report := by
  rw [instrumentAlone, Outcome.bind_eq_ok]
  constructor
  · rintro ⟨_, hentry, h⟩
    split at h
    · exact absurd h Outcome.throw_ne_ok
    · rename_i dominators hdominators
      obtain ⟨changed, houtcome, h⟩ := Outcome.bind_eq_ok.mp h
      have P : (Env.mk config i t dominators).PassesFrom f (.start f ⟨i.width, []⟩) _ :=
        ⟨hentry, hdominators, changed, Prod.ext houtcome rfl⟩
      by_cases hasked : config.verifyOutput
      · grind [Outcome.bind_eq_ok, Outcome.pure_eq_ok]
      · rw [if_neg hasked] at h
        cases Outcome.pure_eq_ok.mp h
        exact ⟨dominators, _, P, fun h => absurd h hasked, rfl, rfl⟩
  · rintro ⟨dominators, s, ⟨hentry, hdominators, changed, hrun⟩, hverify, rfl, rfl⟩
    refine ⟨(), hentry, ?_⟩
    rw [hdominators]
    dsimp only
    rw [hrun, Outcome.bind_eq_ok]
    refine ⟨changed, rfl, ?_⟩
    split
    · rename_i hasked
      exact Outcome.bind_eq_ok.mpr ⟨(), hverify hasked, rfl⟩
    · rfl

namespace Module

/-- Nothing has changed but the bodies of some functions. -/
structure SameBut (ids : List FuncId) (m m' : Module) : Prop where
  shell : m' = { m with functions := m'.functions }
  size_eq : m'.functions.size = m.functions.size
  function_eq : ∀ id, id ∉ ids → m'.function id = m.function id

variable {u w : Module} {ids' : List FuncId}

private theorem SameBut.eq_of_function (S : m.SameBut ids u) (S' : m.SameBut ids w)
    (h : ∀ id ∈ ids, u.function id = w.function id) : u = w := by
  have hfunctions : u.functions = w.functions := by
    refine Array.ext_getElem? fun n => ?_
    have hsame : u.function ⟨n⟩ = w.function ⟨n⟩ := by
      by_cases hid : (⟨n⟩ : FuncId) ∈ ids
      · exact h _ hid
      · rw [S.function_eq _ hid, S'.function_eq _ hid]
    refine Option.ext fun f => ?_
    have hlists (v : Module) : v.function ⟨n⟩ = .ok f ↔ v.functions[n]? = some f :=
      function_eq_ok_iff
    rw [← hlists, ← hlists, hsame]
  rw [S.shell, S'.shell, hfunctions]

theorem SameBut.nil_iff : m.SameBut [] m' ↔ m = m' := by
  constructor
  · intro S
    have S' : m.SameBut [] m := ⟨rfl, rfl, fun _ _ => rfl⟩
    exact S'.eq_of_function S (by simp)
  · rintro rfl
    exact ⟨rfl, rfl, fun _ _ => rfl⟩

theorem sameBut_setFunction_iff (hf : m.function id = .ok f) (hid : id ∉ ids) :
    (m.setFunction id g).SameBut ids m' ↔ m.SameBut (id :: ids) m' ∧ m'.function id = .ok g := by
  have hsize : (m.setFunction id g).functions.size = m.functions.size := Array.size_setIfInBounds ..
  constructor
  · intro S
    refine ⟨⟨S.shell, S.size_eq.trans hsize, fun other hother => ?_⟩, ?_⟩
    · rw [List.mem_cons, not_or] at hother
      obtain ⟨hne, hother⟩ := hother
      rw [S.function_eq other hother, function_setFunction hf, if_neg hne]
    · rw [S.function_eq id hid, function_setFunction_self hf]
  · rintro ⟨S, hg⟩
    refine ⟨S.shell, S.size_eq.trans hsize.symm, fun other hother => ?_⟩
    rw [function_setFunction hf]
    split
    · rename_i heq
      rw [heq, hg]
    · rename_i hne
      exact S.function_eq other (List.not_mem_cons_of_ne_of_not_mem hne hother)

/-- What is recorded for one function, with whatever marks from before, is not about others. -/
theorem fresh_of_passesFrom {dominators : DominatorTree} (hm : m.WellFormed) (F : f.Enclosed)
    (hf : m.function id = .ok f) (hid : id ∉ ids) (hstore : Fresh store (id :: ids))
    (P : (Env.mk config i t dominators).PassesFrom f { start f store with covered := covered } s) :
    Fresh s.store ids ∧ s.store.width = store.width ∧ f.Grows t Any s.func := by
  have T := (hm.wellFormed hf).tidy
  have hsame : store.LikeOn Any store := ⟨rfl, fun _ _ => rfl⟩
  obtain ⟨s', P', A⟩ := P.twin F T (fun _ _ => trivial) hsame []
  have P' := Env.passes_iff.mpr P'
  have hown := hstore.vacant hm hf
  refine ⟨fun other hother v hv => ?_, ?_, ?_⟩
  · rw [← A.store.lookup_eq v trivial]
    exact fresh_of_passes hm hf hid hstore P' other hother v hv
  · rw [← A.store.width_eq]
    exact P'.width_eq (hm.wellFormed hf) hown
  · rw [← A.func_eq]
    exact P'.grows T

/-- A store without metadata of a function is as good as an empty one. -/
theorem Fresh.likeOn (h : Fresh store (id :: ids)) (hwidth : store.width = i.width) :
    store.LikeOn (·.func = id) ⟨i.width, []⟩ where
  width_eq := hwidth.symm
  lookup_eq v hv := (h id (.head _) v hv).symm

/-- What becomes of one function: what it would have become on its own. -/
def Becomes (config : Config) (i : Interface) (t : RoutineTable) (m m' : Module) (id : FuncId)
    (report : FunctionReport) : Prop :=
  ∃ f g, m.function id = .ok f ∧ f.instrumentAlone config i t = .ok (g, report) ∧
    m'.function id = .ok g

/-- Instrumenting functions one after another is instrumenting each of them on its own, whatever is
in the store and whatever the passes remember. -/
theorem runs_instrumentCarrying (hm : m.WellFormed) (hnodup : ids.Nodup)
    (hF : ∀ id ∈ ids, ∀ f, m.function id = .ok f → f.Enclosed) (hwidth : store.width = i.width)
    (hstore : Fresh store ids) :
    (instrumentCarrying carry config i t covered store ids).Runs m reports m' ↔
      m.SameBut ids m' ∧ List.Forall₂ (m.Becomes config i t m') ids reports := by
  induction ids generalizing m store covered reports with
  | nil =>
    rw [instrumentCarrying, runs_pure, SameBut.nil_iff, List.forall₂_nil_left_iff,
      eq_comm, and_comm]
  | cons id ids ih =>
    obtain ⟨hid, hnodup⟩ := List.nodup_cons.mp hnodup
    -- when the first function has been woven, the others are as they were
    have next : ∀ {f dominators s covered'}, m.function id = .ok f →
        (Env.mk config i t dominators).PassesFrom f
          { start f store with covered := covered } s →
        ∀ {rest}, (instrumentCarrying carry config i t covered' s.store ids).Runs
          (m.setFunction id s.func) rest m' ↔
          (m.setFunction id s.func).SameBut ids m' ∧
            List.Forall₂ (m.Becomes config i t m') ids rest := by
      intro f dominators s covered' hf P rest
      have hother : ∀ other ∈ ids, (m.setFunction id s.func).function other = m.function other :=
        fun other h => by rw [function_setFunction hf, if_neg (ne_of_mem_of_not_mem h hid)]
      obtain ⟨hfresh, hw, G⟩ := fresh_of_passesFrom hm (hF id (.head _) f hf) hf hid
        hstore P
      rw [ih (grows_setFunction hm hf G).wellFormed hnodup ?_ (hw.trans hwidth) hfresh,
        List.forall₂_iff_get, List.forall₂_iff_get]
      · refine and_congr_right fun _ => and_congr_right fun _ => forall₃_congr fun k hk _ => ?_
        rw [Becomes, Becomes, hother _ (List.get_mem ..)]
      · grind
    have own : ∀ {f}, m.function id = .ok f → ∀ v : ValueId, v.func = f.id → v.func = id :=
      fun hf v hv => hv.trans (hm.id_eq hf)
    have like := hstore.likeOn hwidth
    rw [runs_instrumentCarrying_cons, List.forall₂_cons_left_iff]
    constructor
    · rintro ⟨f, dominators, s, rest, hf, P, hverify, hrest, rfl⟩
      obtain ⟨S, hall⟩ := (next hf P).mp hrest
      obtain ⟨S, hg⟩ := (sameBut_setFunction_iff hf hid).mp S
      obtain ⟨s', P', A⟩ := P.twin (hF id (.head _) f hf) (hm.wellFormed hf).tidy
        (own hf) like []
      have halone : f.instrumentAlone config i t = .ok (s.func, s.report) := by
        refine Function.instrumentAlone_eq_ok_iff.mpr
          ⟨dominators, s', P', ?_, A.func_eq, A.report_eq⟩
        rwa [A.func_eq]
      exact ⟨S, s.report, rest, ⟨f, s.func, hf, halone, hg⟩, hall, rfl⟩
    · rintro ⟨S, report, rest, ⟨f, g, hf, halone, hg⟩, hall, rfl⟩
      obtain ⟨dominators, s', P', hverify, rfl, rfl⟩ := Function.instrumentAlone_eq_ok_iff.mp halone
      obtain ⟨s, P, A⟩ := P'.twin (hF id (.head _) f hf) (hm.wellFormed hf).tidy
        (own hf) like.symm covered
      refine ⟨f, dominators, s, rest, hf, P, ?_, (next hf P).mpr ⟨?_, hall⟩, by rw [A.report_eq]⟩
      · rwa [A.func_eq]
      · rw [A.func_eq]
        exact (sameBut_setFunction_iff hf hid).mpr ⟨S, hg⟩

/-! ### Orders -/

theorem Becomes.unique {report' : FunctionReport} (h : m.Becomes config i t m' id report)
    (h' : m.Becomes config i t m' id report') : report = report' := by
  obtain ⟨f, g, hf, halone, -⟩ := h
  obtain ⟨f', g', hf', halone', -⟩ := h'
  cases hf.symm.trans hf'
  exact (Prod.mk.inj (Except.ok.inj (halone.symm.trans halone'))).2

private theorem mem_zip_iff_becomes (h : List.Forall₂ (m.Becomes config i t m') ids reports) :
    (id, report) ∈ ids.zip reports ↔ id ∈ ids ∧ m.Becomes config i t m' id report := by
  induction h with
  | nil => simp
  | @cons id' report' ids reports hfirst _ ih =>
    rw [List.zip_cons_cons, List.mem_cons, List.mem_cons, ih, Prod.mk.injEq, or_and_right]
    refine or_congr_left ⟨?_, ?_⟩
    · rintro ⟨rfl, rfl⟩
      exact ⟨rfl, hfirst⟩
    · rintro ⟨rfl, h⟩
      exact ⟨rfl, h.unique hfirst⟩

/-- What becomes of functions can be told in every order. -/
theorem exists_becomes_of_perm (hnodup : ids.Nodup) (hperm : ids'.Perm ids)
    (h : List.Forall₂ (m.Becomes config i t m') ids reports) :
    ∃ reports', List.Forall₂ (m.Becomes config i t m') ids' reports' ∧
      (ids'.zip reports').Perm (ids.zip reports) := by
  obtain ⟨reports', h', -⟩ := List.perm_comp_forall₂ hperm h
  have nodup_zip : ∀ {ids : List FuncId} {reports}, ids.Nodup →
      List.Forall₂ (m.Becomes config i t m') ids reports → (ids.zip reports).Nodup := by
    intro ids reports hnodup h
    refine List.Nodup.of_map Prod.fst ?_
    rwa [List.map_fst_zip h.length_eq.le]
  refine ⟨reports', h', ?_⟩
  rw [List.perm_ext_iff_of_nodup (nodup_zip (hperm.nodup_iff.mpr hnodup) h') (nodup_zip hnodup h)]
  rintro ⟨id, report⟩
  rw [mem_zip_iff_becomes h', mem_zip_iff_becomes h, hperm.mem_iff]

/-- The functions of a valid module that has been prepared use no values of each other. -/
theorem enclosed_of_runs_prepare {prepared : Prepared} (hm : m.WellFormed)
    (hverify : m.verify = .ok ()) (hprepare : (prepare config).Runs m prepared u)
    (hid : id ∈ prepared.targets) (hf : u.function id = .ok f) : f.Enclosed := by
  obtain ⟨-, htargets, -, r?, P⟩ := of_runs_prepare hm hprepare
  rw [htargets] at hid
  obtain ⟨f₀, hf₀, htarget⟩ := (mem_targets hm).mp hid
  have hmem : f₀ ∈ m.functions.toList := (mem_functions hm).mpr (by rwa [hm.id_eq hf₀])
  have V := Function.valid_of_verify (Outcome.forM_eq_ok.mp hverify f₀ hmem)
  exact ((P.readdresses hm hf₀ htarget hf).valid Function.readdressing_redirection V).enclosed

/-- Functions are instrumented independently of each other. When a module has been prepared and its
functions have been instrumented in some order, with metadata of others in the store and with marks
that passes carry over, each of them has become what it becomes on its own; and the same comes of
every other order, other such metadata and other marks. -/
theorem instrumentAll_independent {prepared : Prepared} (hm : m.WellFormed)
    (hverify : m.verify = .ok ()) (hprepare : (prepare config).Runs m prepared u)
    (hids : ids.Perm prepared.targets) (hwidth : store.width = u.width)
    (hstore : Fresh store prepared.targets)
    (h : (instrumentCarrying carry config u.interface prepared.routines covered store ids).Runs u
      reports w) :
    List.Forall₂ (u.Becomes config u.interface prepared.routines w) ids reports ∧
      ∀ ids' : List FuncId, ids'.Perm prepared.targets → ∃ reports',
        (ids'.zip reports').Perm (ids.zip reports) ∧
        (instrumentAll config u.interface prepared.routines ⟨u.width, []⟩ ids').Runs u reports' w ∧
        ∀ carry' covered' (store' : Store), store'.width = u.width →
          Fresh store' prepared.targets →
          (instrumentCarrying carry' config u.interface prepared.routines covered' store' ids').Runs
            u reports' w := by
  obtain ⟨-, htargets, -, r?, P⟩ := of_runs_prepare hm hprepare
  have hnodup : prepared.targets.Nodup := htargets ▸ nodup_targets hm
  -- a run in some order is told by what becomes of each function
  have runs_iff : ∀ {order carry covered store reports}, order.Perm prepared.targets →
      store.width = u.width → Fresh store prepared.targets →
      ((instrumentCarrying carry config u.interface prepared.routines covered store order).Runs u
        reports w ↔ u.SameBut order w ∧
          List.Forall₂ (u.Becomes config u.interface prepared.routines w) order reports) := by
    intro order carry covered store reports horder hwidth hstore
    refine runs_instrumentCarrying P.wellFormed (horder.nodup_iff.mpr hnodup) ?_ hwidth ?_
    · exact fun id hid f hf => enclosed_of_runs_prepare hm hverify hprepare
        (horder.mem_iff.mp hid) hf
    · exact fun id hid => hstore id (horder.mem_iff.mp hid)
  obtain ⟨S, hall⟩ := (runs_iff hids hwidth hstore).mp h
  refine ⟨hall, fun ids' hids' => ?_⟩
  have hperm : ids'.Perm ids := hids'.trans hids.symm
  obtain ⟨reports', hall', hzip⟩ := exists_becomes_of_perm (hids.nodup_iff.mpr hnodup) hperm hall
  have S' : u.SameBut ids' w :=
    ⟨S.shell, S.size_eq, fun id hid => S.function_eq id fun h => hid (hperm.mem_iff.mpr h)⟩
  refine ⟨reports', hzip, ?_, fun carry' covered' store' hwidth' hstore' => ?_⟩
  · exact runs_instrumentAll_iff.mpr
      ((runs_iff hids' rfl fun _ _ _ _ => rfl).mpr ⟨S', hall'⟩)
  · exact (runs_iff hids' hwidth' hstore').mpr ⟨S', hall'⟩

end Module

/-- A function that reads twice through its parameter, so that the second access is marked. -/
def rereader (id : FuncId) (name : String) : Function :=
  .ofBlocks id name ⟨.int 32, [.ptr (.int 32)], false⟩ [
  [(.int 32, .load (.value ⟨id, 0⟩)), (.int 32, .load (.value ⟨id, 0⟩)),
    (.void, .ret (some (.value ⟨id, 2⟩)))]]

/-- Two such functions. -/
def rereaders : Module :=
  { name := "rereaders", width := .bits64,
    functions := #[rereader ⟨0⟩ "left", rereader ⟨1⟩ "right"] }

/-- The second function comes first, and its metadata and marks are there when the other comes. -/
theorem instrumentAll_independent_rereaders :
    rereaders.WellFormed ∧ rereaders.verify = .ok () ∧ ∃ prepared u reports w,
      (Module.prepare {}).Runs rereaders prepared u ∧
      [⟨1⟩, ⟨0⟩].Perm prepared.targets ∧ Module.Fresh ⟨u.width, []⟩ prepared.targets ∧
      (Module.instrumentCarrying Weaving.covered {} u.interface prepared.routines [] ⟨u.width, []⟩
        [⟨1⟩, ⟨0⟩]).Runs u reports w ∧
      reports.map FunctionReport.temporalEliminatedBlock = [1, 1] ∧
      List.Forall₂ (u.Becomes {} u.interface prepared.routines w) [⟨1⟩, ⟨0⟩] reports ∧
      ∃ reports', ([⟨0⟩, ⟨1⟩].zip reports').Perm (([⟨1⟩, ⟨0⟩] : List FuncId).zip reports) ∧
        (Module.instrumentAll {} u.interface prepared.routines ⟨u.width, []⟩ [⟨0⟩, ⟨1⟩]).Runs u
          reports' w := by
  have hm : rereaders.WellFormed := by decide +kernel
  have hverify : rereaders.verify = .ok () := by decide +kernel
  obtain ⟨prepared, u, hprepare⟩ : ∃ prepared u, (Module.prepare {}).Runs rereaders prepared u := by
    obtain ⟨prepared, h⟩ := Edit.exists_runs (show ((Module.prepare {}).apply rereaders).1.isOk by
      decide +kernel)
    exact ⟨prepared, _, h⟩
  obtain ⟨-, htargets, -⟩ := Module.of_runs_prepare hm hprepare
  have htargets : prepared.targets = [⟨0⟩, ⟨1⟩] := htargets.trans (by decide +kernel)
  have hids : [⟨1⟩, ⟨0⟩].Perm prepared.targets := htargets ▸ .swap ..
  have hcounts : (match (Module.prepare {}).apply rereaders with
      | (.ok prepared, u) => ((Module.instrumentCarrying Weaving.covered {} u.interface
          prepared.routines [] ⟨u.width, []⟩ [⟨1⟩, ⟨0⟩]).apply u).1.toOption.map
            (List.map FunctionReport.temporalEliminatedBlock)
      | (.error _, _) => none) = some [1, 1] := by
    decide +kernel
  rw [hprepare] at hcounts
  dsimp only at hcounts
  obtain ⟨reports, hrun, hreports⟩ := Edit.exists_runs_of_map hcounts
  obtain ⟨hall, hother⟩ := Module.instrumentAll_independent hm hverify hprepare hids rfl
    (fun _ _ _ _ => rfl) hrun
  obtain ⟨reports', hzip, hrun', -⟩ := hother [⟨0⟩, ⟨1⟩] (htargets ▸ .refl _)
  exact ⟨hm, hverify, prepared, u, reports, _, hprepare, hids, fun _ _ _ _ => rfl, hrun,
    hreports, hall, reports', hzip, hrun'⟩

end PointerGuard
