import PointerGuard.Proofs.Additions
import PointerGuard.Proofs.Pipeline
import PointerGuard.Proofs.Preparation

/-!
# Instrumenting a module

Preparation and weaving are taken apart: what preparation leaves, what the passes were given when
they came to a function, and what has become of it in the end. Each function is woven once, so what
is shown of the passes on one function holds of all of them.
-/

namespace PointerGuard

open Edit

variable {store : Store} {f : Function} {prepared : Prepared} {ids : List FuncId} {s : Weaving}

/-- Functions of a module have grown, and nothing else has changed. -/
structure Module.Grows (t : RoutineTable) (p : Routine → Prop) (m m' : Module) : Prop where
  wellFormed : m'.WellFormed
  width_eq : m'.width = m.width
  globals_eq : m'.globals = m.globals
  function : ∀ {id f}, m.function id = .ok f → ∃ g, m'.function id = .ok g ∧ f.Grows t p g

/-- The passes have run on a function that they could be run on. -/
structure Env.Passes (env : Env) (f : Function) (store : Store) (s : Weaving) : Prop where
  checkEntry : f.checkEntry = .ok ()
  dominators : f.dominators? = some env.dominators
  runs : ∃ changed, (env.config.pipeline.mapM (Weaving.runPass env)).Runs (.start f store) changed s

theorem Weaving.intact_start {env : Env} (T : f.Tidy) :
    (start f store).Intact env f :=
  ⟨⟨T, .refl⟩, by simp [start], by simp [start], by simp [start]⟩

namespace Env.Passes

open Weaving

variable {env : Env} (P : env.Passes f store s)

include P

theorem piped : Piped env f store s := by
  obtain ⟨changed, hrun⟩ := P.runs
  exact Weaving.piped hrun

theorem grows (T : f.Tidy) : f.Grows env.routines Any s.func := by
  obtain ⟨changed, hrun⟩ := P.runs
  exact ((pipeline_harmless _ (intact_start T)).of_runs hrun).woven.grows

variable (hf : f.WellFormed) (hstore : store.Vacant f)

include hf hstore

theorem gathered : Gathered env Any f (.start f store) (env.beforeChecks f store) :=
  P.piped.gathered hf.tidy hf.paramsFirst hstore fun _ _ => trivial

theorem steps_checks :
    Steps env Any f Never (env.beforeChecks f store) s ∧
      s.store = (env.beforeChecks f store).store :=
  P.piped.steps_checks hf.tidy hf.paramsFirst hstore
    (P.piped.woven hf.tidy hf.paramsFirst hstore fun _ _ => trivial) (fun _ _ => trivial) le_rfl

/-- What is known of pointers in the end is what was known before checks were inserted. -/
theorem store_eq : s.store = (env.beforeChecks f store).store := (P.steps_checks hf hstore).2

theorem kept : Kept (·.func = f.id) (.start f store) (env.beforeChecks f store) :=
  (P.gathered hf hstore).steps.kept ⟨hf.tidy, .refl⟩

/-- Metadata is recorded for values of the function only. -/
theorem lookup_eq {v : ValueId} (hv : v.func ≠ f.id) : s.store.lookup v = store.lookup v := by
  rw [P.store_eq hf hstore]
  exact (P.kept hf hstore).lookup hv

theorem width_eq : s.store.width = store.width := by
  rw [P.store_eq hf hstore]
  exact (P.kept hf hstore).width

end Env.Passes

namespace Module

variable {m m' m'' : Module} {id : FuncId} {g : Function} {t : RoutineTable} {p : Routine → Prop}
  {config : Config} {i : Interface} {store' : Store} {E : Error → Prop}
  {reports : List FunctionReport} {report : FunctionReport} {α β : Type} {edit : Edit Weaving α}

/-! ### Whatever the outcome -/

theorem Grows.refl (hm : m.WellFormed) : m.Grows t p m :=
  ⟨hm, rfl, rfl, fun h => ⟨_, h, .refl⟩⟩

theorem Grows.trans (G : m.Grows t p m') (G' : m'.Grows t p m'') : m.Grows t p m'' where
  wellFormed := G'.wellFormed
  width_eq := G'.width_eq.trans G.width_eq
  globals_eq := G'.globals_eq.trans G.globals_eq
  function h := by
    obtain ⟨g, hg, hfg⟩ := G.function h
    obtain ⟨k, hk, hgk⟩ := G'.function hg
    exact ⟨k, hk, hfg.trans hgk⟩

theorem grows_setFunction (hm : m.WellFormed) (hf : m.function id = .ok f) (G : f.Grows t p g) :
    m.Grows t p (m.setFunction id g) where
  wellFormed := hm.setFunction hf G.id_eq ((hm.wellFormed hf).of_grows G)
  width_eq := rfl
  globals_eq := rfl
  function {id' f'} h := by
    rw [function_setFunction hf]
    split
    · grind
    · exact ⟨f', h, .refl⟩

/-- A function is edited as a weaving, and is left as the weaving leaves it. -/
theorem onWeaving_endsIn {I : Function → Prop}
    (h : edit.EndsIn (.start f store) (fun s => I s.func) E) :
    (do
      let result := edit.apply (.start (← get) store)
      set result.2.func
      return (← Edit.ofExcept result.1, result.2.store, result.2.report) :
        Edit Function (α × Store × FunctionReport)).EndsIn f I E := by
  refine endsIn_get_bind ((endsIn_set h.1).bind fun _ _ _ hI => ?_)
  exact (endsIn_ofExcept hI h.2).bind fun _ _ _ hI => endsIn_pure hI

/-- What was done to a function that is woven stays, whatever the outcome. -/
theorem weave_endsIn (hm : m.WellFormed) (hE : ∀ e, e.NoViolation → E e)
    (h : ∀ f, m.function id = .ok f →
      edit.EndsIn (.start f store) (fun s => f.Grows t p s.func) E) :
    (weave id store edit).EndsIn m (m.Grows t p) E := by
  refine endsIn_get_bind ((endsIn_ofExcept (.refl hm) fun e he =>
    hE e (.of_isOrdinary (ordinary_function e he))).bind fun f u hrun _ => ?_)
  obtain ⟨hf, -⟩ := runs_ofExcept.mp hrun
  have hwoven := onWeaving_endsIn (h f hf)
  refine (endsIn_set (grows_setFunction hm hf hwoven.1)).bind fun _ _ _ h => ?_
  exact endsIn_ofExcept h hwoven.2

/-- A weaving of one function is started in some way, and something is told of its outcome. -/
theorem runs_onWeaving {b : β} (start : Function → Weaving) (out : α → Weaving → β) :
    (onFunction id do
      let result := edit.apply (start (← get))
      set result.2.func
      return out (← Edit.ofExcept result.1) result.2).Runs m b m' ↔
      ∃ f a s, m.function id = .ok f ∧ edit.Runs (start f) a s ∧ out a s = b ∧
        m.setFunction id s.func = m' := by
  rw [runs_onFunction]
  simp only [runs_bind, runs_get, runs_set, runs_ofExcept, runs_pure]
  constructor
  · rintro ⟨f, g, hf, ⟨_, _, ⟨rfl, rfl⟩, _, _, rfl, a, _, ⟨houtcome, rfl⟩, rfl, rfl⟩, rfl⟩
    exact ⟨_, a, _, hf, Prod.ext houtcome rfl, rfl, rfl⟩
  · rintro ⟨f, a, s, hf, hedit, rfl, rfl⟩
    refine ⟨f, s.func, hf, ⟨f, f, ⟨rfl, rfl⟩, ⟨⟩, s.func, ?_, a, s.func, ?_⟩, rfl⟩
    · rw [hedit]
    · rw [hedit]
      exact ⟨⟨rfl, rfl⟩, rfl, rfl⟩

theorem runs_weave {a : α} :
    (weave id store edit).Runs m (a, store', report) m' ↔
      ∃ f s, m.function id = .ok f ∧ edit.Runs (.start f store) a s ∧ s.store = store' ∧
        s.report = report ∧ m.setFunction id s.func = m' := by
  refine (runs_onWeaving (.start · store) fun a s => (a, s.store, s.report)).trans ⟨?_, ?_⟩
  · grind
  · grind

private theorem ordinary_checkEntry : Outcome.Ordinary f.checkEntry := by
  rw [Function.checkEntry]
  split
  · exact Outcome.ordinary_error rfl
  · split
    · exact Outcome.ordinary_ok
    · exact Outcome.ordinary_error rfl

/-- One function grows. Only if the passes have run on it can it be found to break a rule. -/
theorem instrumentFunction_endsIn (hm : m.WellFormed) (hE : ∀ e, e.NoViolation → E e)
    (hverify : config.verifyOutput → ∀ f dominators s, m.function id = .ok f →
      (Env.mk config i t dominators).Passes f store s → ∀ e, s.func.verify = .error e → E e) :
    (instrumentFunction config i t store id).EndsIn m (m.Grows t Any) E := by
  refine endsIn_get_bind ((endsIn_ofExcept (.refl hm) fun e he =>
    hE e (.of_isOrdinary (ordinary_function e he))).bind fun f u hrun _ => ?_)
  obtain ⟨hf, rfl⟩ := runs_ofExcept.mp hrun
  refine (endsIn_ofExcept (.refl hm)
    fun e he => hE e (.of_isOrdinary (ordinary_checkEntry e he))).bind
    fun _ u hrun _ => ?_
  obtain ⟨hentry, rfl⟩ := runs_ofExcept.mp hrun
  refine (endsIn_ofOption (.refl hm) fun _ => hE _ .fault).bind fun dominators u hrun _ => ?_
  obtain ⟨hdominators, rfl⟩ := runs_ofOption.mp hrun
  refine (weave_endsIn hm hE fun f' hf' => ?_).bind fun out u hrun G => ?_
  · have hintact : (Weaving.start f' store).Intact ⟨config, i, t, dominators⟩ f' :=
      Weaving.intact_start (hm.wellFormed hf').tidy
    exact (Weaving.pipeline_harmless _ hintact).mono (fun _ h => h.woven.grows) hE
  · obtain ⟨changed, store', report⟩ := out
    dsimp only
    split
    · rename_i hasked
      obtain ⟨f', s, hf', hpasses, -, -, rfl⟩ := runs_weave.mp hrun
      cases hf.symm.trans hf'
      refine endsIn_get_bind ((endsIn_ofExcept G fun e he => ?_).bind fun _ _ _ h => endsIn_pure h)
      rw [function_setFunction_self hf] at he
      exact hverify hasked f dominators s hf ⟨hentry, hdominators, changed, hpasses⟩ e he
    · exact endsIn_pure G

theorem runs_instrumentFunction :
    (instrumentFunction config i t store id).Runs m (store', report) m' ↔
      ∃ f dominators s, m.function id = .ok f ∧ (Env.mk config i t dominators).Passes f store s ∧
        (config.verifyOutput → s.func.verify = .ok ()) ∧ s.store = store' ∧ s.report = report ∧
        m.setFunction id s.func = m' := by
  rw [instrumentFunction]
  simp only [runs_bind, runs_get, runs_ofExcept, runs_ofOption, Prod.exists, runs_weave]
  constructor
  · rintro ⟨_, _, ⟨rfl, rfl⟩, f, _, ⟨hf, rfl⟩, _, _, ⟨hentry, rfl⟩, dominators, _,
      ⟨hdominators, rfl⟩, changed, store₁, report₁, u, ⟨f', s, hf', hpasses, rfl, rfl, rfl⟩, hrest⟩
    cases hf.symm.trans hf'
    have P : (Env.mk config i t dominators).Passes f store s :=
      ⟨hentry, hdominators, changed, hpasses⟩
    split at hrest
    · simp only [runs_bind, runs_ofExcept] at hrest
      obtain ⟨_, _, ⟨rfl, rfl⟩, _, _, ⟨hverify, rfl⟩, ⟨rfl, rfl⟩, rfl⟩ := hrest
      rw [function_setFunction_self hf] at hverify
      exact ⟨f, dominators, s, hf, P, fun _ => hverify, rfl, rfl, rfl⟩
    · grind [runs_pure]
  · rintro ⟨f, dominators, s, hf, ⟨hentry, hdominators, changed, hpasses⟩, hverify, rfl, rfl, rfl⟩
    refine ⟨m, m, ⟨rfl, rfl⟩, f, m, ⟨hf, rfl⟩, (), m, ⟨hentry, rfl⟩, dominators, m,
      ⟨hdominators, rfl⟩, changed, s.store, s.report, _, ⟨f, s, hf, hpasses, rfl, rfl, rfl⟩, ?_⟩
    split
    · rename_i hasked
      simp only [runs_bind, runs_get, runs_ofExcept, runs_pure]
      exact ⟨_, _, ⟨rfl, rfl⟩, (), _,
        ⟨by rw [function_setFunction_self hf]; exact hverify hasked, rfl⟩, trivial, rfl⟩
    · exact runs_pure.mpr ⟨rfl, rfl⟩

/-! ### One function after another -/

/-- No metadata is known of the values of functions that are still to be woven. -/
def Fresh (store : Store) (ids : List FuncId) : Prop :=
  ∀ id ∈ ids, ∀ v : ValueId, v.func = id → store.lookup v = none

theorem Fresh.vacant (h : Fresh store (id :: ids)) (hm : m.WellFormed)
    (hf : m.function id = .ok f) :
    store.Vacant f :=
  fun v hv => h id (.head _) v (hv.func_eq.trans (hm.id_eq hf))

/-- What is recorded for one function is not about the others. -/
theorem fresh_of_passes {env : Env} (hm : m.WellFormed) (hf : m.function id = .ok f)
    (hid : id ∉ ids) (hstore : Fresh store (id :: ids)) (P : env.Passes f store s) :
    Fresh s.store ids := by
  intro other hother v hv
  have hown := hstore.vacant hm hf
  rw [P.lookup_eq (hm.wellFormed hf) hown, hstore other (.tail _ hother) v hv]
  rw [hv, hm.id_eq hf]
  rintro rfl
  exact hid hother

/-- Functions grow, whatever the outcome. Only a function that the passes have run on can be found
to break a rule; what is known of it may be assumed of all that are to be woven. -/
theorem instrumentAll_endsIn {V : Function → Prop} (hm : m.WellFormed) (hnodup : ids.Nodup)
    (hstore : Fresh store ids) (hE : ∀ e, e.NoViolation → E e)
    (hV : ∀ id ∈ ids, ∀ f, m.function id = .ok f → V f)
    (hverify : config.verifyOutput → ∀ f dominators store s, V f → f.WellFormed →
      store.Vacant f → (Env.mk config i t dominators).Passes f store s →
      ∀ e, s.func.verify = .error e → E e) :
    (instrumentAll config i t store ids).EndsIn m (m.Grows t Any) E := by
  induction ids generalizing m store with
  | nil => exact endsIn_pure (.refl hm)
  | cons id rest ih =>
    obtain ⟨hid, hnodup⟩ := List.nodup_cons.mp hnodup
    refine (instrumentFunction_endsIn hm hE fun hasked f dominators s hf P => ?_).bind
      fun out u hrun G => ?_
    · grind [Fresh.vacant, WellFormed.wellFormed]
    · obtain ⟨store', report⟩ := out
      obtain ⟨f, dominators, s, hf, P, -, rfl, rfl, rfl⟩ := runs_instrumentFunction.mp hrun
      have hrest : (instrumentAll config i t s.store rest).EndsIn (m.setFunction id s.func)
          ((m.setFunction id s.func).Grows t Any) E := by
        refine ih G.wellFormed hnodup (fresh_of_passes hm hf hid hstore P)
          fun other hother f' hf' => ?_
        rw [function_setFunction hf, if_neg (ne_of_mem_of_not_mem hother hid)] at hf'
        exact hV other (.tail _ hother) f' hf'
      refine (hrest.mono (fun _ G' => G.trans G') fun _ h => h).bind fun _ _ _ G' => ?_
      exact endsIn_pure G'

/-- How the passes were run on a function when its turn came, and what became of it. -/
structure Turn (config : Config) (i : Interface) (t : RoutineTable) (m m' : Module) (id : FuncId)
    where
  /-- The function before. -/
  f : Function
  /-- Its dominators. -/
  dominators : DominatorTree
  /-- The metadata of other functions. -/
  store : Store
  /-- What the passes left behind. -/
  s : Weaving
  function : m.function id = .ok f
  fresh : ∀ v, f.Has v → store.lookup v = none
  passes : (Env.mk config i t dominators).Passes f store s
  result : m'.function id = .ok s.func

/-- What the passes knew. -/
def Turn.env (turn : Turn config i t m m' id) : Env := ⟨config, i, t, turn.dominators⟩

/-- What was decided about checks. -/
def Turn.decisions (turn : Turn config i t m m' id) : Decisions :=
  turn.env.decisions turn.f turn.store

/-- When all functions have been woven, each has had its turn, and no other has changed. What the
passes keep of the metadata they are given has been so at every turn. -/
theorem turns_of_runs_instrumentAll {I : Store → Prop} (hm : m.WellFormed) (hnodup : ids.Nodup)
    (hstore : Fresh store ids) (hI : I store)
    (hnext : ∀ f dominators store s, f.WellFormed → store.Vacant f →
      (Env.mk config i t dominators).Passes f store s → I store → I s.store)
    (h : (instrumentAll config i t store ids).Runs m reports m') :
    (∀ id, id ∉ ids → m'.function id = m.function id) ∧
      List.Forall₂ (fun id report => ∃ turn : Turn config i t m m' id, turn.s.report = report ∧
        I turn.store ∧ Fresh turn.store [id]) ids reports := by
  induction ids generalizing m store reports with
  | nil =>
    obtain ⟨rfl, rfl⟩ := runs_pure.mp h
    exact ⟨fun _ _ => rfl, .nil⟩
  | cons id rest ih =>
    obtain ⟨hid, hnodup⟩ := List.nodup_cons.mp hnodup
    rw [instrumentAll] at h
    simp only [runs_bind, runs_pure, Prod.exists, runs_instrumentFunction] at h
    obtain ⟨_, _, _, ⟨f, dominators, s, hf, P, -, rfl, rfl, rfl⟩, reports, _, hrest, rfl, hend⟩ := h
    rw [hend] at hrest
    have G : m.Grows t Any (m.setFunction id s.func) :=
      grows_setFunction hm hf (P.grows (hm.wellFormed hf).tidy)
    have hother : ∀ other, other ≠ id →
        (m.setFunction id s.func).function other = m.function other :=
      fun _ hne => by rw [function_setFunction hf, if_neg hne]
    have hown := hstore.vacant hm hf
    obtain ⟨hothers, hall⟩ := ih G.wellFormed hnodup (fresh_of_passes hm hf hid hstore P)
      (hnext f dominators store s (hm.wellFormed hf) hown P hI) hrest
    have hresult : m'.function id = .ok s.func := by
      rw [hothers id hid, function_setFunction_self hf]
    refine ⟨fun other hnot => ?_,
      .cons ⟨⟨f, dominators, store, s, hf, hown, P, hresult⟩, rfl, hI, fun other hother =>
        hstore other (List.mem_singleton.mp hother ▸ List.mem_cons_self ..)⟩ ?_⟩
    · grind
    · -- functions that come later are not touched before it is their turn
      rw [List.forall₂_iff_get] at hall ⊢
      refine ⟨hall.1, fun k hk hk' => ?_⟩
      obtain ⟨turn, hreport, hturn⟩ := hall.2 k hk hk'
      have hfunction := turn.function
      rw [hother _ (ne_of_mem_of_not_mem (List.get_mem ..) hid)] at hfunction
      exact ⟨{ turn with function := hfunction }, hreport, hturn⟩

theorem each_of_runs_instrumentAll (hm : m.WellFormed) (hnodup : ids.Nodup)
    (hstore : Fresh store ids) (h : (instrumentAll config i t store ids).Runs m reports m') :
    (∀ id, id ∉ ids → m'.function id = m.function id) ∧
      List.Forall₂ (fun id report => ∃ turn : Turn config i t m m' id, turn.s.report = report)
        ids reports := by
  have turns := turns_of_runs_instrumentAll (I := Any) hm hnodup hstore trivial
    (fun _ _ _ _ _ _ _ _ => trivial) h
  exact ⟨turns.1, turns.2.imp fun _ _ ⟨turn, hreport, _⟩ => ⟨turn, hreport⟩⟩

/-! ### Preparing and weaving -/

/-- What is known when a module has been prepared. -/
structure Prepared where
  /-- The functions to be woven. -/
  targets : List FuncId
  /-- The runtime. -/
  routines : RoutineTable
  /-- The number of uses of library routines that were redirected. -/
  wrapped : Nat
  /-- Was `main` renamed? -/
  renamed : Bool
  /-- The number of pointers in initializers. -/
  seeded : Nat

/-- Do what is left when the runtime has been declared. -/
def furnish (config : Config) (targets : List FuncId) (routines : RoutineTable) :
    Edit Module Prepared :=
  (if config.wrapLibraryCalls then wrapLibraryCalls targets else pure 0) >>= fun wrapped =>
  (if config.renameMain then renameMain else pure false) >>= fun renamed =>
  seedGlobals routines config >>= fun seeded =>
  pure ⟨targets, routines, wrapped, renamed, seeded⟩

/-- Do everything that comes before the first function is woven. -/
def prepare (config : Config) : Edit Module Prepared := do
  Edit.ofExcept config.validate
  let targets := (← get).targets
  let routines ← RoutineTable.declare
  furnish config targets routines

/-- Instrumenting a module is preparing it, then weaving all of its functions. -/
theorem instrument_eq : instrument config = do
    let prepared ← prepare config
    let m ← get
    let reports ← instrumentAll config m.interface prepared.routines ⟨m.width, []⟩ prepared.targets
    return ⟨reports, prepared.seeded, prepared.wrapped, prepared.renamed⟩ := by
  simp only [instrument, prepare, furnish]
  cases config.wrapLibraryCalls <;> cases config.renameMain <;> simp

theorem ordinary_validate : Outcome.Ordinary config.validate := by
  rw [Config.validate]
  split
  · exact Outcome.ordinary_ok
  · exact Outcome.ordinary_error rfl

theorem wrapIfAsked_endsIn (hm : m.WellFormed) (F : m.Furnishes m') :
    (if config.wrapLibraryCalls then wrapLibraryCalls m.targets else pure 0).EndsIn m'
      (fun u => m.Readies u ∧ m'.KeepsHeads u) (·.isOrdinary) := by
  split
  · exact wrapLibraryCalls_endsIn hm F
  · exact endsIn_pure ⟨F.readies, .refl⟩

theorem renameIfAsked_labelling :
    Labelling (if config.renameMain then renameMain else pure false) := by
  split
  · exact renameMain_labelling
  · exact labelling_pure

theorem furnish_endsIn (hm : m.WellFormed) (F : m.Furnishes m') :
    (furnish config m.targets t).EndsIn m' (fun u => m.Readies u ∧ m'.KeepsHeads u)
      (·.isOrdinary) := by
  have upheld : ∀ {α : Type} {edit : Edit Module α},
      (∀ {m}, m.WellFormed → edit.EndsIn m m.Furnishes (·.isOrdinary)) →
      edit.Upholds (fun u => m.Readies u ∧ m'.KeepsHeads u) (·.isOrdinary) := by
    rintro α edit h u ⟨hready, K⟩
    have hu : u.WellFormed := by
      obtain ⟨r?, P, -⟩ := hready
      exact P.wellFormed
    exact (h hu).mono (fun v F' => ⟨hready.furnish F', K.trans F'.keepsHeads⟩) fun _ h => h
  refine (wrapIfAsked_endsIn hm F).bind fun wrapped u _ hu => ?_
  exact ((upheld fun hm => renameIfAsked_labelling.furnishes (.refl hm)).bind fun renamed =>
    (upheld seedGlobals_endsIn).bind fun seeded => upholds_pure) u hu

/-- Whatever the outcome of preparing a module, its functions have only been furnished, and uses of
library routines have been redirected everywhere or nowhere. -/
theorem prepare_endsIn (hm : m.WellFormed) :
    (prepare config).EndsIn m m.Readies (·.isOrdinary) := by
  refine (endsIn_ofExcept (Furnishes.refl hm).readies ordinary_validate).bind fun _ u hrun _ => ?_
  obtain ⟨-, rfl⟩ := runs_ofExcept.mp hrun
  have hdeclare := RoutineTable.declare_labelling.furnishes (.refl hm)
  refine (hdeclare.mono (fun _ F => F.readies) fun _ h => h).bind fun t u hrun _ => ?_
  exact (furnish_endsIn hm (hdeclare.of_runs hrun)).mono (fun _ h => h.1) fun _ h => h

private theorem targets_of_runs_furnish (h : (furnish config ids t).Runs m prepared m') :
    prepared.targets = ids ∧ prepared.routines = t := by
  simp only [furnish, runs_bind] at h
  obtain ⟨wrapped, _, -, renamed, _, -, seeded, _, -, rfl, -⟩ := h
  exact ⟨rfl, rfl⟩

theorem of_runs_prepare (hm : m.WellFormed) (h : (prepare config).Runs m prepared m') :
    config.validate = .ok () ∧ prepared.targets = m.targets ∧ prepared.routines.Declared m' ∧
      ∃ r?, m.Prepares r? m' := by
  obtain ⟨r?, P, -⟩ := (prepare_endsIn hm).of_runs h
  rw [prepare, runs_bind] at h
  obtain ⟨_, _, hvalidate, h⟩ := h
  obtain ⟨hvalid, rfl⟩ := runs_ofExcept.mp hvalidate
  rw [runs_get_bind, runs_bind] at h
  obtain ⟨t, u, hdeclare, h⟩ := h
  have F := (RoutineTable.declare_labelling.furnishes (.refl hm)).of_runs hdeclare
  obtain ⟨htargets, hroutines⟩ := targets_of_runs_furnish h
  have K := ((furnish_endsIn hm F).of_runs h).2
  refine ⟨hvalid, htargets, ?_, r?, P⟩
  rw [hroutines]
  exact (RoutineTable.declared_declare hm hdeclare).of_keepsHeads K

/-- The stages that a module goes through while it is prepared. -/
structure Stages (config : Config) (m : Module) (prepared : Prepared) (u v w m' : Module) :
    Prop where
  declares : RoutineTable.declare.Runs m prepared.routines u
  wraps : (if config.wrapLibraryCalls then wrapLibraryCalls m.targets else pure 0).Runs u
    prepared.wrapped v
  renames : (if config.renameMain then renameMain else pure false).Runs v prepared.renamed w
  seeds : (seedGlobals prepared.routines config).Runs w prepared.seeded m'

theorem stages_of_runs_prepare (h : (prepare config).Runs m prepared m') :
    ∃ u v w, Stages config m prepared u v w m' := by
  rw [prepare, runs_bind] at h
  obtain ⟨_, _, hvalidate, h⟩ := h
  obtain ⟨-, rfl⟩ := runs_ofExcept.mp hvalidate
  rw [runs_get_bind, runs_bind] at h
  obtain ⟨t, u, hdeclare, h⟩ := h
  simp only [furnish, runs_bind] at h
  obtain ⟨wrapped, v, hwrap, renamed, w, hrename, seeded, _, hseed, rfl, rfl⟩ := h
  exact ⟨u, v, w, hdeclare, hwrap, hrename, hseed⟩

namespace Stages

variable {u v w : Module} (S : Stages config m prepared u v w m') (hm : m.WellFormed)

include S hm

theorem labels : m.Labels u := (RoutineTable.declare_labelling m hm).of_runs S.declares

theorem prepares : ∃ r?, m.Prepares r? v ∧ m.Prepares r? w := by
  obtain ⟨r?, P, -⟩ := ((wrapIfAsked_endsIn hm (S.labels hm).furnishes).of_runs S.wraps).1
  exact ⟨r?, P, P.furnish ((renameIfAsked_labelling v P.wellFormed).of_runs S.renames).furnishes⟩

end Stages

/-- A successful run on a module: it was prepared, and then all of its functions were woven. -/
theorem runs_instrument {report : Report} (h : (instrument config).Runs m report m') :
    ∃ prepared u, (prepare config).Runs m prepared u ∧
      (instrumentAll config u.interface prepared.routines ⟨u.width, []⟩ prepared.targets).Runs u
        report.functions m' ∧ report.seededGlobalFields = prepared.seeded ∧
      report.wrappedCalls = prepared.wrapped := by
  rw [instrument_eq, runs_bind] at h
  obtain ⟨prepared, u, hprepare, h⟩ := h
  rw [runs_get_bind, runs_bind] at h
  obtain ⟨reports, _, hall, h⟩ := h
  obtain ⟨rfl, rfl⟩ := runs_pure.mp h
  exact ⟨prepared, u, hprepare, hall, rfl, rfl⟩

end Module

end PointerGuard
