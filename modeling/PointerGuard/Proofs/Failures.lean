import PointerGuard.Proofs.Instrumenting

/-!
# Runs that fail

A run that fails is taken apart into parts that succeed and one that fails. For a module, either its
preparation fails, or some of its functions are woven and then one cannot be. A visit of a pass that
fails has recorded nothing, unless it fails in recording itself.
-/

namespace PointerGuard

variable {e : Error}

/-! ### The parts of a failing run -/

namespace Edit

variable {σ α β : Type} {s s' : σ} {edit : Edit σ α} {items rest : List α}

/-- The edit fails in a state, with an error and a state it leaves. -/
def Fails (edit : Edit σ α) (s : σ) (e : Error) (s' : σ) : Prop := edit.apply s = (.error e, s')

theorem fails_iff : edit.Fails s e s' ↔ (edit.apply s).1 = .error e ∧ (edit.apply s).2 = s' := by
  rw [Fails, Prod.ext_iff]

theorem exists_runs_of_ok {a : α} (h : (edit.apply s).1 = .ok a) : ∃ s', edit.Runs s a s' :=
  ⟨_, Prod.ext h rfl⟩

theorem EndsIn.of_fails {I : σ → Prop} {E : Error → Prop} (h : edit.EndsIn s I E)
    (hfail : edit.Fails s e s') : I s' ∧ E e := by
  obtain ⟨houtcome, rfl⟩ := fails_iff.mp hfail
  exact ⟨h.1, h.2 e houtcome⟩

@[simp] theorem not_fails_pure {a : α} : ¬(pure a : Edit σ α).Fails s e s' :=
  fun h => nomatch (fails_iff.mp h).1

@[simp] theorem not_fails_get : ¬(get : Edit σ σ).Fails s e s' :=
  fun h => nomatch (fails_iff.mp h).1

@[simp] theorem not_fails_set {t : σ} : ¬(set t : Edit σ PUnit).Fails s e s' :=
  fun h => nomatch (fails_iff.mp h).1

@[simp] theorem not_fails_modify {change : σ → σ} : ¬(modify change : Edit σ PUnit).Fails s e s' :=
  fun h => nomatch (fails_iff.mp h).1

@[simp] theorem fails_bind {x : Edit σ α} {f : α → Edit σ β} :
    (x >>= f).Fails s e s' ↔
      x.Fails s e s' ∨ ∃ a t, x.Runs s a t ∧ (f a).Fails t e s' := by
  simp only [Fails, Runs, apply_bind]
  cases hx : x.apply s with
  | mk outcome t => grind

theorem fails_get_bind {f : σ → Edit σ β} : (get >>= f).Fails s e s' ↔ (f s).Fails s e s' := by
  simp

@[simp] theorem fails_throw {e' : Error} :
    (throw e' : Edit σ α).Fails s e s' ↔ e' = e ∧ s = s' := by
  have happly : (throw e' : Edit σ α).apply s = (.error e', s) := rfl
  simp [Fails, happly]

@[simp] theorem fails_ofExcept {outcome : Except Error α} :
    (ofExcept outcome : Edit σ α).Fails s e s' ↔ outcome = .error e ∧ s = s' := by
  cases outcome with
  | ok a => simp [ofExcept]
  | error e' => simp [ofExcept]

@[simp] theorem fails_ofOption {cause : Fault} {answer : Option α} :
    (ofOption cause answer : Edit σ α).Fails s e s' ↔ answer = none ∧
      .fault cause = e ∧ s = s' := by
  cases answer with
  | some a => simp [ofOption]
  | none => simp [ofOption]

end Edit

open Edit

namespace Module

variable {m m' : Module} {id : FuncId} {f : Function} {config : Config} {i : Interface}
  {t : RoutineTable} {store store' : Store} {ids : List FuncId}

/-! ### Weaving -/

theorem fails_weave {α : Type} {edit : Edit Weaving α} (h : (weave id store edit).Fails m e m') :
    (m.function id = .error e ∧ m' = m) ∨
      ∃ f s, m.function id = .ok f ∧ edit.Fails (.start f store) e s ∧
        m' = m.setFunction id s.func := by
  rw [weave, onFunction, fails_get_bind, fails_bind] at h
  rcases h with h | ⟨f, u, hrun, h⟩
  · obtain ⟨hf, rfl⟩ := fails_ofExcept.mp h
    exact .inl ⟨hf, rfl⟩
  · obtain ⟨hf, rfl⟩ := runs_ofExcept.mp hrun
    simp only [fails_bind, not_fails_set, false_or, runs_set, fails_ofExcept] at h
    obtain ⟨-, _, rfl, houtcome, rfl⟩ := h
    have hinner := fails_iff.mpr ⟨houtcome, rfl⟩
    simp only [fails_bind, not_fails_get, not_fails_set, not_fails_pure, false_or, or_false,
      runs_set, fails_ofExcept, and_false, exists_false] at hinner
    obtain ⟨_, _, ⟨rfl, rfl⟩, -, _, rfl, hedit, hfunc⟩ := hinner
    exact .inr ⟨_, _, hf, fails_iff.mpr ⟨hedit, rfl⟩, by rw [← hfunc]⟩

/-- What may stop the weaving of a function: it does not exist, its first block can be entered
again, control may move to a missing block, a pass fails, or the outcome breaks a rule. -/
inductive Stops (config : Config) (i : Interface) (t : RoutineTable) (store : Store) (m : Module)
    (id : FuncId) (e : Error) : Module → Prop
  | unknown : m.function id = .error e → Stops config i t store m id e m
  | entry {f : Function} : m.function id = .ok f → f.checkEntry = .error e →
      Stops config i t store m id e m
  | dominators {f : Function} : m.function id = .ok f → f.dominators? = none →
      .fault .danglingEdge = e → Stops config i t store m id e m
  | passes {f : Function} {dominators s} : m.function id = .ok f → f.dominators? = some dominators →
      (config.pipeline.mapM (Weaving.runPass ⟨config, i, t, dominators⟩)).Fails
        (.start f store) e s →
      Stops config i t store m id e (m.setFunction id s.func)
  | rules {f : Function} {dominators s} : m.function id = .ok f →
      (Env.mk config i t dominators).Passes f store s → s.func.verify = .error e →
      Stops config i t store m id e (m.setFunction id s.func)

theorem stops_of_fails (h : (instrumentFunction config i t store id).Fails m e m') :
    Stops config i t store m id e m' := by
  rw [instrumentFunction, fails_get_bind, fails_bind] at h
  rcases h with h | ⟨f, _, hrun, h⟩
  · obtain ⟨hf, rfl⟩ := fails_ofExcept.mp h
    exact .unknown hf
  obtain ⟨hf, rfl⟩ := runs_ofExcept.mp hrun
  rcases fails_bind.mp h with h | ⟨_, _, hrun, h⟩
  · obtain ⟨hentry, rfl⟩ := fails_ofExcept.mp h
    exact .entry hf hentry
  obtain ⟨hentry, rfl⟩ := runs_ofExcept.mp hrun
  rcases fails_bind.mp h with h | ⟨dominators, _, hrun, h⟩
  · obtain ⟨hnone, he, rfl⟩ := fails_ofOption.mp h
    exact .dominators hf hnone he
  obtain ⟨hdominators, rfl⟩ := runs_ofOption.mp hrun
  rcases fails_bind.mp h with h | ⟨⟨changed, store', report⟩, _, hrun, h⟩
  · rcases fails_weave h with ⟨hnone, -⟩ | ⟨f', s, hf', hfail, rfl⟩
    · rw [hf] at hnone
      cases hnone
    · cases hf.symm.trans hf'
      exact .passes hf hdominators hfail
  obtain ⟨f', s, hf', hpasses, -, -, rfl⟩ := runs_weave.mp hrun
  cases hf.symm.trans hf'
  dsimp only at h
  split at h
  · rw [fails_get_bind, function_setFunction_self hf] at h
    simp only [fails_bind, fails_ofExcept, not_fails_pure, and_false, exists_false, or_false] at h
    obtain ⟨hverify, rfl⟩ := h
    exact .rules hf ⟨hentry, hdominators, changed, hpasses⟩ hverify
  · exact absurd h not_fails_pure

/-- Functions are woven one after another. They share one store of metadata. -/
inductive Weaves (config : Config) (i : Interface) (t : RoutineTable) :
    Store → Module → List FuncId → Store → Module → Prop
  | nil {store : Store} {m : Module} : Weaves config i t store m [] store m
  | cons {store store' store'' : Store} {m u m' : Module} {id : FuncId} {ids report} :
      (instrumentFunction config i t store id).Runs m (store', report) u →
      Weaves config i t store' u ids store'' m' → Weaves config i t store m (id :: ids) store'' m'

theorem weaves_of_runs {reports : List FunctionReport}
    (h : (instrumentAll config i t store ids).Runs m reports m') :
    ∃ store', Weaves config i t store m ids store' m' := by
  induction ids generalizing m store reports with
  | nil =>
    obtain ⟨-, rfl⟩ := runs_pure.mp h
    exact ⟨store, .nil⟩
  | cons id rest ih =>
    rw [instrumentAll] at h
    simp only [runs_bind, Prod.exists] at h
    obtain ⟨store', report, u, hone, reports, _, hrest, -, rfl⟩ := h
    obtain ⟨store'', W⟩ := ih hrest
    exact ⟨store'', .cons hone W⟩

section

variable (W : Weaves config i t store m ids store' m')

include W

theorem Weaves.function_eq (hid : id ∉ ids) : m'.function id = m.function id := by
  induction W with
  | nil => rfl
  | cons hone _ ih =>
    obtain ⟨f, dominators, s, hf, -, -, -, -, rfl⟩ := runs_instrumentFunction.mp hone
    rw [List.mem_cons, not_or] at hid
    rw [ih hid.2, function_setFunction hf, if_neg hid.1]

theorem Weaves.grows (hm : m.WellFormed) : m.Grows t Any m' := by
  induction W with
  | nil => exact .refl hm
  | cons hone _ ih =>
    obtain ⟨f, dominators, s, hf, P, -, -, -, rfl⟩ := runs_instrumentFunction.mp hone
    have G := grows_setFunction hm hf (P.grows (hm.wellFormed hf).tidy)
    exact G.trans (ih G.wellFormed)

theorem Weaves.wellFormed (hm : m.WellFormed) : m'.WellFormed :=
  (W.grows hm).wellFormed

end

/-- If functions cannot all be woven, some are, and the next one is where it stops. -/
theorem fails_instrumentAll :
    (instrumentAll config i t store ids).Fails m e m' ↔
      ∃ before id after store' u, ids = before ++ id :: after ∧
        Weaves config i t store m before store' u ∧
        (instrumentFunction config i t store' id).Fails u e m' := by
  induction ids generalizing m store with
  | nil =>
    rw [instrumentAll]
    simp
  | cons first rest ih =>
    rw [instrumentAll, fails_bind]
    constructor
    · rintro (h | ⟨⟨store', report⟩, u, hone, h⟩)
      · exact ⟨[], first, rest, store, m, rfl, .nil, h⟩
      · simp only [fails_bind, not_fails_pure, and_false, exists_false, or_false] at h
        obtain ⟨before, id, after, store'', v, rfl, W, hfail⟩ := ih.mp h
        exact ⟨first :: before, id, after, store'', v, rfl, .cons hone W, hfail⟩
    · rintro ⟨before, id, after, store', u, hids, W, hfail⟩
      cases W with
      | nil =>
        cases hids
        exact .inl hfail
      | @cons _ store₁ _ _ v _ _ ids report hone W => grind [fails_bind]

/-- A run on a module fails while it is prepared or while its functions are woven. -/
theorem fails_instrument :
    (instrument config).Fails m e m' ↔ (prepare config).Fails m e m' ∨
      ∃ prepared u, (prepare config).Runs m prepared u ∧
        (instrumentAll config u.interface prepared.routines ⟨u.width, []⟩ prepared.targets).Fails
          u e m' := by
  simp only [instrument_eq, fails_bind, not_fails_get, runs_get, not_fails_pure,
    false_or, and_false, exists_false, or_false]
  refine or_congr_right (exists₂_congr fun prepared u => and_congr_right fun _ => ?_)
  constructor
  · rintro ⟨_, _, ⟨rfl, rfl⟩, h⟩
    exact h
  · exact fun h => ⟨u, u, ⟨rfl, rfl⟩, h⟩

end Module

/-! ### Visits that fail -/

namespace Weaving

open ShadowFrame

variable {env : Env} {s t u : Weaving} {id : ValueId} {α : Type} {edit : Edit Weaving α}

/-- Nothing has been recorded, and operands have kept their types. -/
structure Retained (s t : Weaving) : Prop where
  store_eq : t.store = s.store
  types : s.func.KeepsTypes t.func

theorem Retained.of_same (hstore : t.store = s.store) (hfunc : t.func = s.func) : Retained s t :=
  ⟨hstore, fun htype => hfunc ▸ htype⟩

theorem Retained.refl : Retained s s := .of_same rfl rfl

theorem Retained.trans (h : Retained s t) (h' : Retained t u) : Retained s u :=
  ⟨h'.store_eq.trans h.store_eq, fun h'' => h'.types (h.types h'')⟩

/-- As long as nothing is recorded, all that a pass does keeps the store. -/
def retainedRegime (env : Env) : Regime env where
  terms := .plain Any
  leads := Retained
  fails _ := True
  visits _ := True
  trans := Retained.trans
  arrive _ := .refl
  ordinary _ _ := trivial
  program _ _ := trivial
  deferred _ _ := trivial
  splice _ _ _ spins := ⟨rfl, spins.adds.extends.keepsTypes⟩
  edge {s phi operand _ block g} _ _ _ _ hadd := by
    obtain ⟨incoming, hphi, rfl⟩ := Function.addIncoming_eq_ok_iff.mp hadd
    have K : Kept Any s
      { s with func := s.func.withEdges phi (incoming ++ [(operand, block)]) } :=
      .of_edge trivial hphi
    exact ⟨rfl, K.operandType⟩
  lock _ _ := .of_same rfl rfl
  frame _ _ := .of_same rfl rfl
  count _ := .of_same rfl rfl
  cover _ := .of_same rfl rfl
  expect _ _ _ := .of_same rfl rfl
  defer _ _ := .of_same rfl rfl
  fill _ := .of_same rfl rfl
  retry _ := .of_same rfl rfl

/-! ### Edits that record nothing -/

/-- The edit records nothing, whatever its outcome. -/
def Quiet {α : Type} (edit : Edit Weaving α) : Prop :=
  ∀ s, edit.EndsIn s (Retained s) Any

theorem Quiet.of_runs {a : α} (h : Quiet edit) (hrun : edit.Runs s a t) : Retained s t :=
  (h s).of_runs hrun

theorem Quiet.of_fails (h : Quiet edit) (hfail : edit.Fails s e t) : Retained s t :=
  ((h s).of_fails hfail).1

theorem has_retained (env : Env) (s : Weaving) (md : PointerMetadata) :
    (retainedRegime env).Has s md :=
  ⟨fun _ _ _ => trivial, False.elim⟩

theorem quiet_of_gives (env : Env) {P : Weaving → α → Weaving → Prop}
    (h : ∀ s, edit.Gives (retainedRegime env).concern s (P s)) : Quiet edit :=
  fun s => (h s s .refl).endsIn

theorem count_quiet {change : FunctionReport → FunctionReport} : Quiet (count change) :=
  fun _ => endsIn_modify (.of_same rfl rfl)

/-! ### Edits that record at their end -/

/-- A failure when nothing has been recorded, or in recording itself. -/
def Stops (s : Weaving) (e : Error) (t : Weaving) : Prop :=
  ∃ u, Retained s u ∧ (t = u ∨ ∃ x md, (associate x md).Fails u e t)

/-- The edit stops so whenever it fails. -/
def Halts {α : Type} (edit : Edit Weaving α) : Prop :=
  ∀ s e t, edit.Fails s e t → Stops s e t

section

variable {α β : Type} {x y : Edit Weaving α} {rest : α → Edit Weaving β}

theorem Quiet.halts (h : Quiet x) : Halts x :=
  fun _ _ _ hfail => ⟨_, h.of_fails hfail, .inl rfl⟩

theorem halts_pure {a : α} : Halts (pure a) :=
  fun _ _ _ hfail => absurd hfail not_fails_pure

theorem halts_throw : Halts (throw e : Edit Weaving α) := by
  intro s e' t hfail
  obtain ⟨-, rfl⟩ := fails_throw.mp hfail
  exact ⟨s, .refl, .inl rfl⟩

theorem Quiet.bind (h : Quiet x) (hrest : ∀ a, Halts (rest a)) : Halts (x >>= rest) := by
  intro s e t hfail
  rcases fails_bind.mp hfail with hfail | ⟨a, u, hrun, hfail⟩
  · exact h.halts s e t hfail
  · obtain ⟨w, hw, hcases⟩ := hrest a u e t hfail
    exact ⟨w, (h.of_runs hrun).trans hw, hcases⟩

theorem halts_get_bind {rest : Weaving → Edit Weaving β} (h : ∀ s, Halts (rest s)) :
    Halts (get >>= rest) :=
  fun s e t hfail => h s s e t (fails_get_bind.mp hfail)

theorem halts_ite {c : Prop} [Decidable c] (hx : Halts x) (hy : Halts y) :
    Halts (if c then x else y) := by
  split
  · exact hx
  · exact hy

/-- An edit that does not fail once it has recorded something. -/
theorem halts_associate {md : PointerMetadata} {rest : Unit → Edit Weaving β}
    (hrest : ∀ s e t, ¬(rest ⟨⟩).Fails s e t) : Halts (associate id md >>= rest) := by
  intro s e t hfail
  rcases fails_bind.mp hfail with hfail | ⟨_, u, -, hfail⟩
  · exact ⟨s, .refl, .inr ⟨id, md, hfail⟩⟩
  · exact absurd hfail (hrest u e t)

/-- An edit that is not followed by anything that fails. -/
theorem Halts.bind_of_not_fails (h : Halts x) (hrest : ∀ a s e t, ¬(rest a).Fails s e t) :
    Halts (x >>= rest) := by
  intro s e t hfail
  rcases fails_bind.mp hfail with hfail | ⟨a, u, -, hfail⟩
  · exact h s e t hfail
  · exact absurd hfail (hrest a u e t)

end

/-! ### Propagation -/

section

variable {operand source ptr callee : Operand}

theorem tryResolve_quiet : Quiet (tryResolve env operand) :=
  quiet_of_gives env fun _ => Regime.tryResolve fun _ _ => trivial

theorem propagateAlloca_halts {ty : Ty} {copies : Option Operand} :
    Halts (propagateAlloca env id ty copies) := by
  rw [propagateAlloca_eq]
  refine Quiet.bind (quiet_of_gives env fun _ => Regime.stackKeys) fun temporal => ?_
  refine Quiet.bind (quiet_of_gives env fun _ => Regime.stackBounds trivial fun _ _ => trivial)
    fun spatial => ?_
  refine count_quiet.bind fun _ => ?_
  exact fun s _ _ hfail => ⟨s, .refl, .inr ⟨_, _, hfail⟩⟩

theorem propagateLoad_halts : Halts (propagateLoad env id ptr) := by
  refine Quiet.bind (quiet_of_gives env fun _ => Regime.loadedRecord trivial trivial) fun md => ?_
  refine count_quiet.bind fun _ => ?_
  exact fun s _ _ hfail => ⟨s, .refl, .inr ⟨_, _, hfail⟩⟩

theorem propagateDerived_halts : Halts (propagateDerived env id source) := by
  refine tryResolve_quiet.bind fun found => ?_
  split
  · exact halts_associate (by simp)
  · exact halts_pure

theorem propagateSelect_halts {cond ifTrue ifFalse : Operand} :
    Halts (propagateSelect env id cond ifTrue ifFalse) := by
  refine tryResolve_quiet.bind fun onTrue => tryResolve_quiet.bind fun onFalse => ?_
  split
  · refine Quiet.bind (quiet_of_gives env fun _ => Regime.selectedRecord trivial trivial
      (has_retained env _ _) (has_retained env _ _)) fun md => ?_
    exact halts_associate (by simp)
  · exact halts_pure

theorem propagatePhi_halts : Halts (propagatePhi env id) := by
  refine Quiet.bind (quiet_of_gives env fun _ => Regime.shadowPhis trivial) fun phis => ?_
  exact halts_associate (by simp [count])

private theorem marshalCall_halts {frame : ShadowFrame} {mds : List PointerMetadata} :
    Halts (marshalCall env id frame mds) := by
  refine halts_ite (Quiet.bind (quiet_of_gives env fun _ => Regime.openedFrame
    fun _ _ => has_retained env _ _) fun _ => ?_) halts_pure
  refine Quiet.bind (quiet_of_gives env fun _ => Regime.closedFrame trivial) fun result => ?_
  split
  · exact halts_associate (by simp [count])
  · exact count_quiet.halts

private theorem propagateCall_halts {ret : Ty} {args : List Operand} :
    Halts (propagateCall env id ret callee args) := by
  refine halts_ite (halts_get_bind fun s => ?_) (halts_ite ?_ halts_pure)
  · refine Quiet.bind (fun _ => endsIn_ofExcept .refl fun _ _ => trivial) fun frame => ?_
    refine Quiet.bind (quiet_of_gives env fun _ => Regime.tryResolveAll fun _ _ _ _ => trivial)
      fun found => ?_
    split
    · exact marshalCall_halts.bind_of_not_fails (by simp)
    · exact halts_pure
  · exact halts_associate (by simp)

/-- One case for each kind of instruction that is looked at, then the others. -/
theorem propagate_halts : Halts (propagate env id) := by
  refine halts_get_bind fun s => ?_
  dsimp only
  split
  · split
    · exact propagateAlloca_halts.bind_of_not_fails (by simp)
    · exact propagateCall_halts
    · exact Quiet.halts (quiet_of_gives env fun _ => Regime.propagateReturn fun _ _ => trivial)
    · exact halts_ite (propagateLoad_halts.bind_of_not_fails (by simp)) halts_pure
    · exact halts_ite propagateDerived_halts halts_pure
    · exact halts_ite propagateDerived_halts halts_pure
    · exact halts_ite propagateSelect_halts halts_pure
    · exact halts_ite (propagatePhi_halts.bind_of_not_fails (by simp)) halts_pure
    all_goals first | exact halts_ite (halts_associate (by simp)) halts_pure | exact halts_pure
  · exact halts_throw

theorem propagateOrDefer_halts : Halts (propagateOrDefer env id) := by
  refine propagate_halts.bind_of_not_fails fun done s e t => ?_
  split <;> simp [count]

theorem recordParameter_halts {byval : Bool} {slot : Nat} :
    Halts (parameterMetadata env id byval slot >>= associate id) := by
  refine Quiet.bind (quiet_of_gives env fun _ => Regime.parameterMetadata) fun md => ?_
  exact fun s _ _ hfail => ⟨s, .refl, .inr ⟨_, _, hfail⟩⟩

end

end Weaving

end PointerGuard
