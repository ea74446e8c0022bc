import PointerGuard.Proofs.Samples
import PointerGuard.Proofs.Scripts

/-!
# Discipline of the store

Every record is put into the store once, for a parameter or an instruction of the program; it has
the halves that are asked for, its components have their types, and it is never changed. This holds
at every point of a run, also of one that fails.
-/

namespace PointerGuard

open Edit PointerMetadata Script

variable {env : Env} {config : Config} {cond : Operand} {f : Function}

/-! ### Records with all their halves -/

/-- A record has the halves that are asked for, and no others. -/
structure Config.Fits (config : Config) (md : PointerMetadata) : Prop where
  spatial : md.spatial.isSome = config.spatialSafety
  temporal : md.temporal.isSome = config.temporalSafety

theorem Env.complete_iff {md : PointerMetadata} :
    env.Complete md ↔ env.config.Fits md :=
  ⟨fun h => ⟨h.isSome_spatial, h.isSome_temporal⟩, fun h =>
    .of_halves h.spatial h.temporal (fun _ _ => ⟨trivial, trivial⟩) fun _ _ => ⟨trivial, trivial⟩⟩

namespace Config.Fits

variable {md onTrue onFalse : PointerMetadata}

theorem spatial_eq (h : config.Fits md) (hon : config.spatialSafety) :
    md.spatial = some ⟨md.baseOrNull, md.boundOrNull⟩ := by
  obtain ⟨bounds, hbounds⟩ := Option.isSome_iff_exists.mp (h.spatial.trans hon)
  simp [baseOrNull, boundOrNull, hbounds]

theorem temporal_eq (h : config.Fits md) (hon : config.temporalSafety) (w : PointerWidth) :
    md.temporal = some ⟨md.keyOrZero w, md.lockOrNull⟩ := by
  obtain ⟨keys, hkeys⟩ := Option.isSome_iff_exists.mp (h.temporal.trans hon)
  simp [keyOrZero, lockOrNull, hkeys]

theorem selectComponents {r r' : Splice} (htrue : config.Fits onTrue) (hfalse : config.Fits onFalse)
    (h : (Weaving.selectComponents cond onTrue onFalse).Runs r md r') : config.Fits md := by
  rw [Weaving.selectComponents_eq .bits64, htrue.spatial, htrue.temporal, hfalse.spatial,
    hfalse.temporal, Bool.and_self, Bool.and_self, runs_map] at h
  obtain ⟨results, h, rfl⟩ := h
  obtain ⟨hspatial, htemporal⟩ := Weaving.isSome_halves_recordOf (Splice.keys_of_runs_each h)
  exact ⟨hspatial, htemporal⟩

end Config.Fits

/-! ### Moves -/

namespace Weaving

/-- A move of the passes on a function: nothing is recorded, or a value of the program that has no
record is given one. -/
inductive Move (config : Config) (f : Function) (s : Weaving) : Weaving → Prop
  | quiet {t} : Retained s t → Move config f s t
  | record {v md store} : f.OfProgram v → s.store.lookup v = none → config.Fits md →
      (Store.associate s.func v md).Runs s.store ⟨⟩ store →
        Move config f s { s with store := store }

/-- Some moves, one after another. -/
abbrev Moves (config : Config) (f : Function) : Weaving → Weaving → Prop :=
  Relation.ReflTransGen (Move config f)

variable {p : Routine → Prop} {own : ValueId → Prop} {s t u : Weaving} {store : Store} {e : Error}
  {md : PointerMetadata} {operand : Operand} {v select : ValueId}

theorem Move.lookup_eq (h : Move config f s t) (hlookup : s.store.lookup v = some md) :
    t.store.lookup v = some md := by
  cases h with
  | quiet h => rw [h.store_eq, hlookup]
  | @record x _ _ _ hnone _ hassociate => grind [Store.associate_lookup_of_ne]

theorem Moves.lookup_eq (M : Moves config f s t) (hlookup : s.store.lookup v = some md) :
    t.store.lookup v = some md := by
  induction M with
  | refl => exact hlookup
  | tail _ move ih => exact move.lookup_eq ih

theorem Moves.quiet (M : Moves config f s t) (h : Retained t u) : Moves config f s u :=
  M.tail (.quiet h)

/-- Steps that give records to values of the program are moves. -/
theorem Steps.moves (S : Steps env p f own s t) (hown : ∀ v, own v → f.OfProgram v)
    (W : s.Woven env p f) (hstore : s.store.Complete env) : Moves env.config f s t := by
  induction S with
  | refl => exact .refl
  | @tail t u S step ih =>
    have W' := Steps.woven S W
    have hcomplete := Steps.complete S hstore
    have quiet : u.store = t.store → Moves env.config f s u := fun hsame =>
      ih.quiet ⟨hsame, (step.kept W').operandType⟩
    cases step with
    | associate hv hnone hproduced hassociate =>
      refine ih.tail (.record (hown _ hv) hnone (Env.complete_iff.mp ?_) hassociate)
      refine hproduced.complete fun _ _ _ hresolved => ?_
      exact complete_of_resolved? (fun v md _ => hcomplete v md) hresolved
    | @shadows phi incoming b i spatial temporal v store hv hnone _ hkind hlocate
      hplace hassociate =>
      -- the phis come first, then they are recorded
      have K : Kept own t { t with func := v.func } :=
        .of_grows (W'.grows.tidy W'.tidy) (Step.grows_of_placeholders (p := p) hkind hlocate hplace)
      have M : Moves env.config f s { t with func := v.func } := ih.quiet ⟨rfl, K.operandType⟩
      refine M.tail (.record (hown _ hv) hnone (Env.complete_iff.mp ?_) hassociate)
      exact Kept.consists (fun _ _ _ => trivial) (Splice.Adds.placeholderPhis hplace).2.1
    | other _ hsame => exact quiet hsame
    | splice => exact quiet rfl
    | edge => exact quiet rfl
    | lock => exact quiet rfl
    | frame => exact quiet rfl

/-! ### The passes in turns -/

/-- Every turn makes moves, and one that fails does so before anything is recorded or in
recording. -/
abbrev Plays {α : Type} (config : Config) (f : Function) :
    (α → Weaving → Prop) → Script Weaving α → Weaving → Prop :=
  Script.Upholds (Moves config f) Stops

theorem Quiet.plays {α : Type} {edit : Edit Weaving α} {post : α → Weaving → Prop} (h : Quiet edit)
    (hpost : ∀ a t, edit.Runs s a t → post a t) : Plays config f post (once edit) s :=
  ⟨fun a t hrun => ⟨.single (.quiet (h.of_runs hrun)), hpost a t hrun⟩, h.halts s⟩

/-- A turn that only looks. -/
theorem plays_look {α : Type} {edit : Edit Weaving α} (h : edit.EndsIn s (· = s) Any) :
    Plays config f (fun a t => t = s ∧ edit.Runs s a s) (once edit) s := by
  refine upholds_once (fun a t hrun => ?_) fun e t hfail => ?_
  · obtain rfl := h.of_runs hrun
    exact ⟨.refl, rfl, hrun⟩
  · exact ⟨s, .refl, .inl (h.of_fails hfail).1⟩

theorem plays_get : Plays config f (fun a t => a = s ∧ t = s) (once get) s :=
  upholds_once (fun _ _ hrun => by simp_all [Relation.ReflTransGen.refl])
    fun _ _ h => absurd h not_fails_get

theorem plays_modify {change : Weaving → Weaving} (h : ∀ s, Retained s (change s)) :
    Plays config f (fun _ t => t = change s) (once (modify change)) s :=
  Quiet.plays (fun s => endsIn_modify (h s)) fun _ _ hrun => (runs_modify.mp hrun).symm

theorem Quiet.plays_programTurns {blocks : List BlockId} {visit : ValueId → Edit Weaving Unit}
    (h : ∀ id, Quiet (visit id)) :
    Plays config f (fun _ _ => True) (programTurns blocks visit) s :=
  upholds_forM (fun _ _ => True) trivial fun _ _ _ _ => plays_get.bind fun _ _ _ =>
    upholds_forM (fun _ _ => True) trivial fun _ _ _ _ => (h _).plays fun _ _ _ => trivial

theorem bfsBlocks_quiet : Quiet bfsBlocks :=
  fun _ => endsIn_get_bind (endsIn_ofOption .refl fun _ => trivial)

theorem releaseFrameKey_quiet : Quiet (releaseFrameKey env) :=
  quiet_of_gives env fun _ => Regime.releaseFrameKey

theorem plays_check : Plays config f (fun _ _ => True) (passTurns env .check) s := by
  refine (plays_modify fun _ => by exact .of_same rfl rfl).bind fun _ _ _ => ?_
  refine plays_get.bind fun _ _ _ => ?_
  refine (Quiet.plays (fun _ => endsIn_get_bind (endsIn_ofOption .refl fun _ => trivial))
    fun _ _ _ => trivial).bind fun _ _ _ => ?_
  exact (Quiet.plays_programTurns fun _ => quiet_of_gives env fun _ =>
    Regime.checkInst trivial trivial).bind fun _ _ _ => plays_get.bind fun _ _ _ => trivial

section

variable (hf : f.WellFormed) (hcomplete : store.Complete env)

include hf hcomplete

/-- Steps that come after others are moves. -/
theorem Steps.moves_after (S : Steps env Any f own (.start f store) s)
    (S' : Steps env Any f f.OfProgram s t) : Moves env.config f s t :=
  S'.moves (fun _ h => h) (Steps.woven S ⟨hf.tidy, .refl⟩) (Steps.complete S hcomplete)

private theorem plays_loadTurns (hstore : store.Vacant f) : Plays env.config f
    (fun _ => Loading env Any f (.start f store) []) (loadTurns env) (.start f store) := by
  have W : Woven env Any f (.start f store) := ⟨hf.tidy, .refl⟩
  have hp : Lenient Any := fun _ _ => trivial
  refine plays_get.bind ?_
  rintro _ _ ⟨rfl, rfl⟩
  refine upholds_forM (Loading env Any f (.start f store))
    (.start fun v hv => hstore v (hf.paramsFirst.has hv)) fun ⟨⟨v, position⟩, n⟩ rest t L => ?_
  refine upholds_once (fun _ t' hrun => ⟨?_, L.step W hp hrun⟩) (recordParameter_halts t)
  have L' := Loading.step { L with steps := .refl, queues := rfl } (Steps.woven L.steps W) hp hrun
  exact L.steps.moves_after hf hcomplete (L'.steps.mono fun _ => .inl)

theorem plays_create (hstore : store.Vacant f) : Plays env.config f
    (fun _ t => Gathers env Any f (.start f store) t.deferred t) (passTurns env .create)
    (.start f store) := by
  have W : Woven env Any f (.start f store) := ⟨hf.tidy, .refl⟩
  have hp : Lenient Any := fun _ _ => trivial
  refine (plays_loadTurns hf hcomplete hstore).bind fun _ t L => ?_
  refine (bfsBlocks_quiet.plays fun _ _ => runs_bfsBlocks.mp).bind ?_
  rintro blocks _ ⟨hblocks, rfl⟩
  have G := loaded_gathers hf.tidy hf.paramsFirst hstore L.steps L.queues hblocks
  have loop : Plays env.config f
    (fun _ t => Gathers env Any f (.start f store) (t.deferred ++ []) t)
      (programTurns blocks (propagateOrDefer env)) t := by
    refine upholds_forM (fun rest t => Gathers env Any f (.start f store)
      (t.deferred ++ rest.flatMap f.programInsts) t) G fun b rest t G => plays_get.bind ?_
    rintro _ _ ⟨rfl, rfl⟩
    dsimp only
    rw [(Steps.woven G.steps W).grows.programInsts_eq hf.tidy b]
    refine upholds_forM (fun now t => Gathers env Any f (.start f store)
      (t.deferred ++ (now ++ rest.flatMap f.programInsts)) t) G fun id now t G => ?_
    refine upholds_once (fun _ t' hrun => ⟨?_, G.propagateOrDefer W hp hrun⟩)
      (propagateOrDefer_halts t)
    exact G.steps.moves_after hf hcomplete
      (G.anew.propagateOrDefer (Steps.woven G.steps W) hp hrun).steps
  refine loop.bind fun _ t G => ?_
  rw [List.append_nil] at G
  exact (releaseFrameKey_quiet.plays fun _ _ hrun => G.releaseFrameKey W hp hrun).bind
    fun _ _ h => h

private theorem plays_roundTurns {rounds : Nat} {waiting : List ValueId}
    (G : Gathers env Any f (.start f store) waiting s) :
    Plays env.config f (fun _ _ => True) (roundTurns env rounds waiting) s := by
  have W : Woven env Any f (.start f store) := ⟨hf.tidy, .refl⟩
  have hp : Lenient Any := fun _ _ => trivial
  induction rounds generalizing waiting s with
  | zero => trivial
  | succ rounds ih =>
    cases waiting with
    | nil => trivial
    | cons first rest =>
      refine (upholds_filterM (fun kept now t => Gathers env Any f (.start f store) (kept ++ now) t)
        G fun kept id now t G => ?_).bind fun waiting t G => ?_
      · refine upholds_once (fun waits t' hrun => ?_)
          (propagate_halts.bind_of_not_fails (fun _ _ _ _ => not_fails_pure) t)
        simp only [runs_bind] at hrun
        obtain ⟨done, _, hpropagate, rfl, rfl⟩ := hrun
        have G' := (G.anew.propagate (Steps.woven G.steps W) hp hpropagate).1
        refine ⟨G.steps.moves_after hf hcomplete G'.steps, ?_⟩
        have G' := (G.propagate W hp hpropagate).1
        cases done with
        | false => simpa using G'
        | true => simpa using G'
      · -- the turn at the end of the round
        rw [List.append_nil] at G
        refine (plays_look ?_).bind fun _ _ h => h.1 ▸ ih G
        split
        · exact endsIn_get_bind (endsIn_throw rfl trivial)
        · exact endsIn_pure rfl

private theorem plays_resolve (G : Gathers env Any f (.start f store) s.deferred s) :
    Plays env.config f (fun _ _ => True) (passTurns env .resolve) s := by
  refine plays_get.bind ?_
  rintro _ _ ⟨rfl, rfl⟩
  refine (plays_modify fun _ => by exact .of_same rfl rfl).bind ?_
  rintro _ _ rfl
  have G := G.steps_any ⟨hf.tidy, .refl⟩ steps_forget rfl
  refine (plays_roundTurns hf hcomplete G).bind fun _ _ _ => plays_get.bind fun _ _ _ => ?_
  refine (plays_modify fun _ => by exact .of_same rfl rfl).bind fun _ _ _ => ?_
  refine (upholds_forM (fun _ _ => True) trivial fun _ _ _ _ =>
    Quiet.plays (quiet_of_gives env fun _ => Regime.fillPlaceholder
      (fun _ _ _ => ⟨trivial, False.elim⟩) fun _ _ _ => trivial) fun _ _ _ => trivial).bind
    fun _ _ _ => ?_
  refine (bfsBlocks_quiet.plays fun _ _ _ => trivial).bind fun _ _ _ => ?_
  exact (Quiet.plays_programTurns fun _ => quiet_of_gives env fun _ =>
    Regime.recordStore trivial).bind fun _ _ h => h

theorem plays_turns (hstore : store.Vacant f) :
    Plays env.config f (fun _ _ => True) (turns env) (.start f store) := by
  rw [turns, Config.pipeline, List.cons_append, List.mapM_cons]
  refine (plays_create hf hcomplete hstore).bind fun _ t G => ?_
  rw [List.cons_append, List.mapM_cons]
  refine Upholds.bind (Upholds.bind (plays_resolve hf hcomplete G) fun _ t _ => ?_) fun _ _ h => h
  -- nothing is recorded by the passes that are left
  refine Upholds.bind (upholds_mapM fun pass hpass t => ?_) fun _ _ h => h
  have hrest : pass = .audit ∨ pass = .check := by grind
  rcases hrest with rfl | rfl
  · exact (Quiet.plays (quiet_of_gives env fun _ => Regime.auditMetadata) fun _ _ _ => trivial).bind
      fun _ _ h => h
  · exact plays_check

end

/-! ### What is taken from the store -/

theorem fits_materialize {folded : FoldedMetadata} (h : (materialize env folded).Runs s md t) :
    env.config.Fits md := by
  rw [materialize] at h
  split at h
  all_goals
    simp only [runs_bind] at h
    obtain ⟨lock, _, -, rfl, -⟩ := h
    exact Env.complete_iff.mp (env.complete_materialize folded lock)

section

variable (hstore : ∀ v md, s.store.lookup v = some md → env.config.Fits md)

include hstore

/-- The metadata of an operand has all halves that are asked for if the records of values have. -/
theorem fits_tryResolve (h : (tryResolve env operand).Runs s (some md) t) : env.config.Fits md := by
  cases operand with
  | const c =>
    simp only [tryResolve, runs_bind, runs_pure] at h
    obtain ⟨folded, _, -, _, _, hmd, h, -⟩ := h
    exact Option.some.inj h ▸ fits_materialize hmd
  | value v =>
    simp only [tryResolve, runs_get_bind, runs_pure] at h
    exact hstore v md h.1

/-- A choice between pointers that have metadata gets a record, with all halves that are asked
for. -/
theorem fits_propagateSelect {ifTrue ifFalse : Operand} (hconfig : env.config.validate = .ok ())
    (hnone : s.store.lookup select = none)
    (h : (propagateSelect env select cond ifTrue ifFalse).Runs s true t) :
    ∃ md, t.store.lookup select = some md ∧ env.config.Fits md := by
  simp only [propagateSelect, runs_bind] at h
  obtain ⟨onTrue, s₁, htrue, onFalse, s₂, hfalse, h⟩ := h
  have hsame := (tryResolve_quiet.of_runs htrue).store_eq
  split at h
  · simp only [runs_bind, runs_associate] at h
    obtain ⟨md, s₃, hsplice, _, _, ⟨store, hassociate, rfl⟩, -, rfl⟩ := h
    obtain ⟨b, i, v, -, hchoice, rfl⟩ := runs_splice.mp hsplice
    have hfits := (fits_tryResolve hstore htrue).selectComponents
      (fits_tryResolve (fun x md hx => hstore x md (hsame ▸ hx)) hfalse) hchoice
    have hnone : s₂.store.lookup select = none := by
      rw [(tryResolve_quiet.of_runs hfalse).store_eq, hsame, hnone]
    refine ⟨md, ?_, hfits⟩
    rw [Store.associate_lookup hassociate hnone,
      (Env.complete_iff.mpr hfits).not_isEmpty hconfig, if_neg Bool.false_ne_true]
  · simp at h

end

end Weaving

/-! ### Whole modules -/

namespace Module

variable {m m' u v : Module} {id : FuncId} {g : Function} {i : Interface} {t : RoutineTable}
  {store store' : Store} {x : ValueId} {md : PointerMetadata}

/-- What a store may hold when a module `u` that is being woven has become `m`: records of values
of the program, with the halves that are asked for, of the right types in the functions of the
values. -/
structure Disciplined (config : Config) (u m : Module) (store : Store) : Prop where
  width_eq : store.width = m.width
  entry : ∀ {x md}, store.lookup x = some md → config.Fits md ∧
    ∃ f g, u.function x.func = .ok f ∧ f.OfProgram x ∧ m.function x.func = .ok g ∧
      md.TypedIn m.width g

namespace Disciplined

theorem complete (h : Disciplined env.config u m store) : store.Complete env :=
  fun _ _ hlookup => Env.complete_iff.mpr (h.entry hlookup).1

theorem setFunction (h : Disciplined config u m store) (hf : m.function id = .ok f)
    (hkept : f.KeepsTypes g) : Disciplined config u (m.setFunction id g) store := by
  refine ⟨h.width_eq, fun {x md} hlookup => ?_⟩
  obtain ⟨hfits, f', g', hf', hx, hg', htyped⟩ := h.entry hlookup
  refine ⟨hfits, f', ?_⟩
  rw [function_setFunction hf]
  split
  · rename_i hid
    rw [hid, hf] at hg'
    cases hg'
    exact ⟨g, hf', hx, rfl, htyped.mono hkept⟩
  · exact ⟨g', hf', hx, hg', htyped⟩

theorem record (h : Disciplined config u m store) (hf : u.function x.func = .ok f)
    (hx : f.OfProgram x) (hg : m.function x.func = .ok g) (hnone : store.lookup x = none)
    (hfits : config.Fits md) (hassociate : (Store.associate g x md).Runs store ⟨⟩ store') :
    Disciplined config u m store' := by
  refine ⟨(Store.associate_width hassociate).trans h.width_eq, fun {y md'} hlookup => ?_⟩
  rcases Weaving.lookup_of_associate hassociate hnone hlookup with hold | ⟨rfl, rfl⟩
  · exact h.entry hold
  · refine ⟨hfits, f, g, hf, hx, hg, fun c operand hget => ?_⟩
    have htype := Store.associate_type hassociate hget
    rw [← h.width_eq]
    cases c <;> exact htype

end Disciplined

theorem Disciplined.moves {w : Weaving} (h : Disciplined config u v store) (hv : v.WellFormed)
    (hf : v.function id = .ok f) (hsame : u.function id = .ok f)
    (M : Weaving.Moves config f (.start f store) w) :
    Disciplined config u (v.setFunction id w.func) w.store := by
  have hset : ∀ {g g'}, (v.setFunction id g).setFunction id g' = v.setFunction id g' := by
    simp [Module.setFunction]
  induction M with
  | refl => exact h.setFunction hf (fun htype => htype)
  | tail _ move ih =>
    cases move with
    | quiet hretained =>
      rw [← hset, hretained.store_eq]
      exact ih.setFunction (function_setFunction_self hf) hretained.types
    | @record x _ _ hx hnone hfits hassociate =>
      have hid : x.func = id := by
        rw [(hx.has (hv.wellFormed hf).paramsFirst).func_eq, hv.id_eq hf]
      subst hid
      exact ih.record hsame hx (function_setFunction_self hf) hnone hfits hassociate

/-- Functions that are woven one after another keep the store disciplined, and free of records of
those that come later. -/
theorem Weaves.disciplined {before rest : List FuncId}
    (W : Weaves config i t store m before store' m')
    (hm : m.WellFormed) (hnodup : (before ++ rest).Nodup) (hfresh : Fresh store (before ++ rest))
    (hsame : ∀ id ∈ before, m.function id = u.function id) (h : Disciplined config u m store) :
    Disciplined config u m' store' ∧ Fresh store' rest := by
  induction W with
  | nil => exact ⟨h, hfresh⟩
  | @cons store _ _ m _ _ id ids _ hone _ ih =>
    obtain ⟨f, dominators, s, hf, P, -, rfl, -, rfl⟩ := runs_instrumentFunction.mp hone
    have hown := hfresh.vacant hm hf
    obtain ⟨hid, hnodup⟩ := List.nodup_cons.mp hnodup
    have hcomplete : store.Complete ⟨config, i, t, dominators⟩ := h.complete
    obtain ⟨changed, hrun⟩ := P.runs
    rw [← Weaving.run_turns, Script.runs_run] at hrun
    have M := ((Weaving.plays_turns (hm.wellFormed hf) hcomplete hown).of_reaches hrun).1
    refine ih (grows_setFunction hm hf (P.grows (hm.wellFormed hf).tidy)).wellFormed hnodup
      (fresh_of_passes hm hf hid hfresh P) (fun other hother => ?_)
      (h.moves hm hf (by rw [← hsame id (.head _), hf]) M)
    have hne : other ≠ id := ne_of_mem_of_not_mem (List.mem_append_left _ hother) hid
    rw [function_setFunction hf, if_neg hne, hsame other (.tail _ hother)]

/-- The passes are about to start on a function: a module `m` has been prepared and become `u`, then
the functions of the program before it have been woven and `u` has become `v`. -/
structure Opening (m u v : Module) (env : Env) (id : FuncId) (f : Function) (store : Store) :
    Prop where
  prepared : ∃ prepared, (prepare env.config).Runs m prepared u ∧ prepared.routines = env.routines
  interface : env.interface = u.interface
  woven : ∃ before after, m.targets = before ++ id :: after ∧
    Weaves env.config env.interface env.routines ⟨u.width, []⟩ u before store v
  function : v.function id = .ok f
  dominators : f.dominators? = some env.dominators

/-- When the passes start on a function, the store is disciplined and knows nothing of the function,
which is as it was when the module had been prepared. -/
theorem Opening.disciplined (O : Opening m u v env id f store) (hm : m.WellFormed) :
    v.WellFormed ∧ u.function id = .ok f ∧ Disciplined env.config u v store ∧
      ∀ x, f.Has x → store.lookup x = none := by
  obtain ⟨prepared, hprepare, -⟩ := O.prepared
  obtain ⟨before, after, htargets, W⟩ := O.woven
  obtain ⟨r?, P, -⟩ := (prepare_endsIn hm).of_runs hprepare
  have hnodup := htargets ▸ nodup_targets hm
  obtain ⟨hdisciplined, hfresh⟩ := W.disciplined P.wellFormed hnodup (fun _ _ _ _ => rfl)
    (fun _ _ => rfl) ⟨rfl, fun h => by cases h⟩
  have hv := W.wellFormed P.wellFormed
  have hid : id ∉ before := fun hid =>
    (List.nodup_append.mp hnodup).2.2 id hid id (.head _) rfl
  refine ⟨hv, ?_, hdisciplined, hfresh.vacant hv O.function⟩
  rw [← W.function_eq hid, O.function]

/-- The store of metadata is disciplined at every point of a run. The passes go over a function in
turns, and every turn makes some moves, or fails when nothing is recorded yet or in recording
itself. At every point between and within turns the records are those of values of the program, they
have the halves that are asked for and no others, and their components have their types; from there
on they never change. So nothing stands in for a component of a half that is asked for, and no
choice between pointers loses one. -/
theorem store_disciplined {env : Env} (hm : m.WellFormed) (O : Opening m u v env id f store) :
    (∀ changed s, (env.config.pipeline.mapM (Weaving.runPass env)).Runs (.start f store) changed s ↔
      (Weaving.turns env).Reaches (.start f store) (.done changed) s) ∧
    (∀ e s, (env.config.pipeline.mapM (Weaving.runPass env)).Fails (.start f store) e s ↔
      ∃ (β : Type) (edit : Edit Weaving β) (next : β → Script Weaving (List Bool)) (w : Weaving),
        (Weaving.turns env).Reaches (.start f store) (.turn edit next) w ∧ edit.Fails w e s) ∧
    (∀ rest w, (Weaving.turns env).Reaches (.start f store) rest w →
      Weaving.Moves env.config f (.start f store) w ∧
      (∀ rest' w', rest.Reaches w rest' w' → Weaving.Moves env.config f w w') ∧
      ∀ (β : Type) (edit : Edit Weaving β) (next : β → Script Weaving (List Bool)) (e : Error)
        (s : Weaving), rest = .turn edit next → edit.Fails w e s →
        ∃ w', Weaving.Moves env.config f w w' ∧
          (s = w' ∨ ∃ x md, (Weaving.associate x md).Fails w' e s)) ∧
    ∀ w, Weaving.Moves env.config f (.start f store) w →
      Disciplined env.config u (v.setFunction id w.func) w.store ∧
      (∀ w', Weaving.Moves env.config f w w' →
        ∀ x md, w.store.lookup x = some md → w'.store.lookup x = some md) ∧
      (∀ operand md w', (Weaving.tryResolve env operand).Runs w (some md) w' ∨
          (Weaving.resolve env operand).Runs w md w' →
        (env.config.spatialSafety → md.spatial = some ⟨md.baseOrNull, md.boundOrNull⟩) ∧
        (env.config.temporalSafety → md.temporal = some ⟨md.keyOrZero env.width, md.lockOrNull⟩)) ∧
      ∀ select cond ifTrue ifFalse w', w.store.lookup select = none →
        (Weaving.propagateSelect env select cond ifTrue ifFalse).Runs w true w' →
        ∃ md, w'.store.lookup select = some md ∧ env.config.Fits md := by
  obtain ⟨hv, hsame, hdisciplined, hown⟩ := O.disciplined hm
  have hf := hv.wellFormed O.function
  rw [← Weaving.run_turns]
  refine ⟨fun _ _ => Script.runs_run, fun _ _ => Script.fails_run, fun rest w R => ?_,
    fun w M => ?_⟩
  · obtain ⟨M, hrest⟩ := (Weaving.plays_turns hf hdisciplined.complete hown).of_reaches R
    refine ⟨M, fun rest' w' R' => (hrest.of_reaches R').1, ?_⟩
    rintro β edit next e s rfl hfail
    obtain ⟨w', hquiet, hcases⟩ := hrest.2 e s hfail
    exact ⟨w', .single (.quiet hquiet), hcases⟩
  have D := hdisciplined.moves hv O.function hsame M
  have hstore : ∀ x md, w.store.lookup x = some md → env.config.Fits md :=
    fun _ _ h => (D.entry h).1
  refine ⟨D, fun w' M' x md => M'.lookup_eq, fun operand md w' hrun => ?_,
    fun select cond ifTrue ifFalse w' hnone => ?_⟩
  · have hfits : env.config.Fits md := by
      rcases hrun with hrun | hrun
      · exact Weaving.fits_tryResolve hstore hrun
      · exact Weaving.fits_tryResolve hstore (Weaving.runs_resolve.mp hrun)
    exact ⟨hfits.spatial_eq, fun hon => hfits.temporal_eq hon env.width⟩
  · obtain ⟨prepared, hprepare, -⟩ := O.prepared
    exact Weaving.fits_propagateSelect hstore (of_runs_prepare hm hprepare).1 hnone

end Module

/-! ### Two functions that choose -/

/-- A function that returns its pointer or null. -/
def chooser (id : FuncId) (name : String) : Function :=
  .ofBlocks id name ⟨.voidPtr, [.int 1, .voidPtr], false⟩ [
  [(.voidPtr, .select (.value ⟨id, 0⟩) (.value ⟨id, 1⟩) (.const .nullVoidPtr)),
    (.void, .ret (some (.value ⟨id, 2⟩)))]]

def chooseModule : Module :=
  { name := "choose", width := .bits64, functions := #[chooser ⟨0⟩ "first", chooser ⟨1⟩ "second"] }

/-- When the passes come to the second function there are two records, in the end there are four. -/
theorem store_disciplined_chooseModule :
    chooseModule.WellFormed ∧ ∃ u v env f store changed s,
      Module.Opening chooseModule u v env ⟨1⟩ f store ∧
      (env.config.pipeline.mapM (Weaving.runPass env)).Runs (.start f store) changed s ∧
      store.size = 2 ∧ s.store.size = 4 ∧ Weaving.Moves env.config f (.start f store) s ∧
      Module.Disciplined env.config u (v.setFunction ⟨1⟩ s.func) s.store := by
  have hm : chooseModule.WellFormed := by decide +kernel
  obtain ⟨_, hrun⟩ : ∃ m', (do
      let prepared ← Module.prepare {}
      let u ← get
      let woven ← Module.instrumentFunction {} u.interface prepared.routines ⟨u.width, []⟩ ⟨0⟩
      let f ← Edit.ofExcept ((← get).function ⟨1⟩)
      let dominators ← Edit.ofOption .danglingEdge f.dominators?
      let result ← Module.weave ⟨1⟩ woven.1
        (Config.pipeline {} |>.mapM
          (Weaving.runPass ⟨{}, u.interface, prepared.routines, dominators⟩))
      return (woven.1.size, result.2.1.size) : Edit Module (Nat × Nat)).Runs
        chooseModule (2, 4) m' :=
    exists_runs_of_ok (by decide +kernel)
  simp only [runs_bind, runs_get, runs_ofExcept, runs_ofOption, runs_pure, Prod.exists,
    Prod.mk.injEq, Module.runs_weave] at hrun
  obtain ⟨prepared, _, hprepare, u, _, ⟨rfl, rfl⟩, store, report, _, hone, v, _, ⟨rfl, rfl⟩, f, _,
    ⟨hf, rfl⟩, dominators, _, ⟨hdominators, rfl⟩, changed, _, _, _,
    ⟨_, s, hf', hpasses, rfl, -, -⟩, ⟨hsize, hsize'⟩, -⟩ := hrun
  obtain rfl := Except.ok.inj (hf.symm.trans hf')
  have O : Module.Opening chooseModule u v ⟨{}, u.interface, prepared.routines, dominators⟩ ⟨1⟩ f
      store :=
    ⟨⟨prepared, hprepare, rfl⟩, rfl, ⟨[⟨0⟩], [], by decide +kernel, .cons hone .nil⟩,
      hf, hdominators⟩
  obtain ⟨hruns, -, hturns, hpoints⟩ := Module.store_disciplined hm O
  have M := (hturns _ s ((hruns changed s).mp hpasses)).1
  exact ⟨hm, u, v, _, f, store, changed, s, O, hpasses, hsize, hsize', M, (hpoints s M).1⟩

end PointerGuard
