import PointerGuard.Instrument
import PointerGuard.Proofs.Checking
import PointerGuard.Proofs.Filling

/-!
# The pipeline

Two passes gather metadata, the third only looks whether any is missing, and the last one inserts
checks. A successful run is taken apart here, once, and what was shown of the single passes is put
together.
-/

namespace PointerGuard

namespace Env

/-- A function when all metadata has been gathered, and only checks are missing. -/
def beforeChecks (env : Env) (f : Function) (store : Store) : Weaving :=
  (([.create, .resolve, .audit].mapM (Weaving.runPass env)).apply (.start f store)).2

/-- The verdicts of the check pass when the pipeline runs on a function. -/
def decisions (env : Env) (f : Function) (store : Store) : Decisions :=
  if .check ∈ env.config.pipeline then (env.beforeChecks f store).decisions env else []

end Env

namespace Weaving

open Edit

variable {env : Env} {p : Routine → Prop} {f : Function} {store : Store} {s s' : Weaving}

/-- What a successful run of the pipeline consists of. -/
structure Piped (env : Env) (f : Function) (store : Store) (s : Weaving) : Prop where
  gather : ∃ t, (createMetadata env).Runs (.start f store) ⟨⟩ t ∧
    (resolveMetadata env).Runs t ⟨⟩ (env.beforeChecks f store)
  audit : (auditMetadata env).Runs (env.beforeChecks f store) ⟨⟩ (env.beforeChecks f store)
  check : .check ∈ env.config.pipeline →
    ∃ changed, (insertChecks env).Runs (env.beforeChecks f store) changed s
  done : .check ∉ env.config.pipeline → env.beforeChecks f store = s

theorem runs_auditMetadata (h : (auditMetadata env).Runs s ⟨⟩ s') : s = s' := by
  rw [auditMetadata, runs_get_bind] at h
  split at h
  · simp at h
  · exact (runs_pure.mp h).2

private theorem runs_runPass {pass : Pass} {edit : Edit Weaving Unit} {answer changed : Bool}
    (hpass : runPass env pass = do edit; return answer) (h : (runPass env pass).Runs s changed s') :
    edit.Runs s ⟨⟩ s' := by
  rw [hpass, runs_bind] at h
  obtain ⟨_, t, hedit, h⟩ := h
  obtain ⟨-, rfl⟩ := runs_pure.mp h
  exact hedit

theorem piped {changed : List Bool}
    (h : (env.config.pipeline.mapM (runPass env)).Runs (.start f store) changed s) :
    Piped env f store s := by
  have hpipeline : ∀ pass ∈ [Pass.create, .resolve, .audit], pass ≠ .check := by decide
  rw [Config.pipeline, List.mapM_append, runs_bind] at h
  obtain ⟨front, u, hfront, h⟩ := h
  have hbefore : env.beforeChecks f store = u := by
    rw [Env.beforeChecks, hfront]
  simp only [runs_mapM_cons] at hfront
  obtain ⟨_, t, _, hcreate, ⟨_, t', _, hresolve, ⟨_, t'', _, haudit, ⟨rfl, rfl⟩, rfl⟩, rfl⟩, rfl⟩ :=
    hfront
  have haudit := runs_runPass rfl haudit
  obtain rfl := runs_auditMetadata haudit
  simp only [runs_bind] at h
  obtain ⟨rest, _, hrest, -, rfl⟩ := h
  rw [← hbefore] at haudit hresolve hrest
  refine ⟨⟨t, runs_runPass rfl hcreate, runs_runPass rfl hresolve⟩, haudit, fun hcheck => ?_,
    fun hcheck => ?_⟩
  · have hasked := (List.mem_append.mp hcheck).resolve_left fun h => hpipeline _ h rfl
    split at hrest
    · obtain ⟨changed, _, _, hinsert, hnil, -⟩ := runs_mapM_cons.mp hrest
      obtain ⟨-, rfl⟩ := runs_mapM_nil.mp hnil
      exact ⟨changed, hinsert⟩
    · simp_all
  · split at hrest
    · exact absurd (List.mem_append_right _ (by simp_all)) hcheck
    · exact (runs_mapM_nil.mp hrest).2

section

variable (T : f.Tidy)

include T

section

variable (P : Piped env f store s) (hfirst : f.ParamsFirst) (hstore : store.Vacant f)

include P hfirst hstore

theorem Piped.gathered (hp : Lenient p) :
    Gathered env p f (.start f store) (env.beforeChecks f store) := by
  obtain ⟨t, hcreate, hresolve⟩ := P.gather
  exact Weaving.gathered T hfirst hstore hp hcreate hresolve

theorem Piped.woven (hp : Lenient p) : Woven env p f (env.beforeChecks f store) :=
  Steps.woven (P.gathered T hfirst hstore hp).steps ⟨T, .refl⟩

/-- The check pass visits all instructions of the program, block after block. -/
theorem Piped.visits (hcheck : .check ∈ env.config.pipeline) :
    ∃ order, (env.beforeChecks f store).func.checkOrder? = some order ∧
      ((order.flatMap f.programInsts).forM (checkInst env)).Runs
        { env.beforeChecks f store with covered := [] } ⟨⟩ s ∧
      env.decisions f store = verdictsOn env (order.flatMap f.programInsts)
        { env.beforeChecks f store with covered := [] } := by
  have W := P.woven (p := Any) T hfirst hstore fun _ _ => trivial
  obtain ⟨changed, hinsert⟩ := P.check hcheck
  obtain ⟨order, horder, hvisits⟩ := visits_of_insertChecks W (fun _ _ => trivial) hinsert
  refine ⟨order, horder, hvisits, ?_⟩
  have hprograms : (env.beforeChecks f store).func.programInsts = f.programInsts :=
    funext (W.grows.programInsts_eq T)
  rw [Env.decisions, if_pos hcheck, Weaving.decisions, horder, hprograms, Option.getD_some]

/-- When all metadata has been gathered, nothing more is recorded. -/
theorem Piped.steps_checks {g : Function} (W : Woven env p g (env.beforeChecks f store))
    (hp : ∀ r : Routine, r.onFrames = false → p r) (hsize : f.values.size ≤ g.values.size) :
    Steps env p g Never (env.beforeChecks f store) s ∧
      s.store = (env.beforeChecks f store).store := by
  by_cases hcheck : .check ∈ env.config.pipeline
  · obtain ⟨order, -, hvisits, -⟩ := P.visits T hfirst hstore hcheck
    have hids : ∀ id ∈ order.flatMap f.programInsts, id.index < g.values.size := by
      intro id hid
      obtain ⟨b, -, hid⟩ := List.mem_flatMap.mp hid
      exact (index_lt_of_mem_programInsts T hid).trans_le hsize
    have forget : Step env p g Never (env.beforeChecks f store)
        { env.beforeChecks f store with covered := [] } := .other rfl rfl rfl rfl (.inr rfl)
    obtain ⟨S, hsame⟩ := visits_steps (forget.woven W) hp hids hvisits
    exact ⟨.head forget S, hsame⟩
  · rw [← P.done hcheck]
    exact ⟨.refl, rfl⟩

end

end

end Weaving

end PointerGuard
