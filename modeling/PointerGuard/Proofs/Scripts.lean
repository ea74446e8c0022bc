import PointerGuard.Proofs.Failures

/-!
# Edits in turns

An edit says what it does in all, but not which states it goes through. A *script* writes an edit
down as turns, each an edit of its own whose result decides how to go on, so that the points between
the turns of a run can be spoken of. What every turn does then holds from each point on to all later
ones.
-/

namespace PointerGuard

open Edit

/-- What is left to do: nothing, or a turn and whatever follows from its result. -/
inductive Script (σ α : Type) : Type 1
  | done (a : α)
  | turn {β : Type} (edit : Edit σ β) (next : β → Script σ α)

namespace Script

variable {σ α β : Type}

def andThen : Script σ α → (α → Script σ β) → Script σ β
  | .done a, rest => rest a
  | .turn edit next, rest => .turn edit fun b => (next b).andThen rest

instance : Monad (Script σ) where
  pure := .done
  bind := .andThen

instance : LawfulMonad (Script σ) := .mk' _
  (fun script => by
    induction script with
    | done a => rfl
    | turn edit next ih => exact congrArg (Script.turn edit) (funext ih))
  (fun _ _ => rfl)
  (fun script _ _ => by
    induction script with
    | done a => rfl
    | turn edit next ih => exact congrArg (Script.turn edit) (funext ih))

/-- An edit that is not looked into. -/
def once (edit : Edit σ α) : Script σ α := .turn edit .done

/-- The edit that takes all turns. -/
def run : Script σ α → Edit σ α
  | .done a => pure a
  | .turn edit next => edit >>= fun b => (next b).run

/-- One point of a run comes after another: some turns are taken, and `rest` is left. -/
inductive Reaches : Script σ α → σ → Script σ α → σ → Prop
  | refl {script s} : Reaches script s script s
  | turn {γ : Type} {edit : Edit σ γ} {next s c t rest u} :
      edit.Runs s c t → Reaches (next c) t rest u → Reaches (.turn edit next) s rest u

/-- Every turn that is taken goes one way, every turn that fails stops in another, and the result is
as asked for. -/
def Upholds (step : σ → σ → Prop) (stop : σ → Error → σ → Prop) (post : α → σ → Prop) :
    Script σ α → σ → Prop
  | .done a, s => post a s
  | .turn edit next, s =>
    (∀ b t, edit.Runs s b t → step s t ∧ (next b).Upholds step stop post t) ∧
      ∀ e t, edit.Fails s e t → stop s e t

/-! ### Runs -/

section

variable {edit : Edit σ α} {script : Script σ α} {rest : α → Script σ β} {s t : σ}
  {a : α} {e : Error}

@[simp] theorem run_pure : (pure a : Script σ α).run = pure a := rfl

@[simp] theorem run_once : (once edit).run = edit := bind_pure edit

@[simp] theorem run_bind : (script >>= rest).run = script.run >>= fun a => (rest a).run := by
  induction script with
  | done a => rfl
  | turn edit next ih =>
    show (edit >>= fun b => (next b >>= rest).run) = _
    simp only [ih, run, bind_assoc]

@[simp] theorem run_map {g : α → β} : (g <$> script).run = g <$> script.run := by
  simp only [map_eq_pure_bind, run_bind, run_pure]

@[simp] theorem run_forM {items : List α} {body : α → Script σ PUnit} :
    (forM items body).run = forM items fun a => (body a).run := by
  induction items with
  | nil => rfl
  | cons a items ih => simp [ih]

@[simp] theorem run_filterM {items : List α} {test : α → Script σ Bool} :
    (items.filterM test).run = items.filterM fun a => (test a).run := by
  have loop : ∀ acc, (items.filterAuxM test acc).run =
      items.filterAuxM (fun a => (test a).run) acc := by
    induction items with
    | nil => exact fun acc => rfl
    | cons a items ih => simp [List.filterAuxM, ih]
  simp [List.filterM, loop]

@[simp] theorem run_mapM {items : List α} {body : α → Script σ β} :
    (items.mapM body).run = items.mapM fun a => (body a).run := by
  induction items with
  | nil => rfl
  | cons a items ih => simp [ih]

theorem runs_run : script.run.Runs s a t ↔ script.Reaches s (.done a) t := by
  induction script generalizing s with
  | done b =>
    constructor
    · intro h
      obtain ⟨rfl, rfl⟩ := runs_pure.mp h
      exact .refl
    · rintro ⟨⟩
      exact runs_pure.mpr ⟨rfl, rfl⟩
  | turn edit next ih =>
    rw [run, runs_bind]
    constructor
    · rintro ⟨b, u, hedit, hnext⟩
      exact .turn hedit ((ih b).mp hnext)
    · rintro ⟨⟩
      rename_i hedit hnext
      exact ⟨_, _, hedit, (ih _).mpr hnext⟩

/-- A run that fails comes to a turn that does. -/
theorem fails_run : script.run.Fails s e t ↔ ∃ (β : Type) (edit : Edit σ β) (next : β → Script σ α)
    (u : σ), script.Reaches s (.turn edit next) u ∧ edit.Fails u e t := by
  induction script generalizing s with
  | done b =>
    constructor
    · exact fun h => absurd h not_fails_pure
    · rintro ⟨β, edit, next, u, ⟨⟩, -⟩
  | turn edit next ih =>
    rw [run, fails_bind]
    constructor
    · rintro (h | ⟨b, u, hedit, hnext⟩)
      · exact ⟨_, edit, next, s, .refl, h⟩
      · obtain ⟨β, edit', next', w, hreach, hfail⟩ := (ih b).mp hnext
        exact ⟨β, edit', next', w, .turn hedit hreach, hfail⟩
    · rintro ⟨β, edit', next', u, hreach, hfail⟩
      cases hreach with
      | refl => exact .inl hfail
      | turn hedit hreach =>
        exact .inr ⟨_, _, hedit, (ih _).mpr ⟨β, edit', next', u, hreach, hfail⟩⟩

end

/-! ### What all turns do -/

section

variable {step : σ → σ → Prop} {stop : σ → Error → σ → Prop} {post : α → σ → Prop}
  {script rest : Script σ α} {s t : σ}

/-- Later points are reached by steps, and what is left from there still behaves. -/
theorem Upholds.of_reaches [Std.Refl step] [IsTrans σ step] (h : script.Upholds step stop post s)
    (hreach : script.Reaches s rest t) : step s t ∧ rest.Upholds step stop post t := by
  induction hreach with
  | refl => exact ⟨refl _, h⟩
  | turn hedit _ ih =>
    obtain ⟨hstep, hnext⟩ := h.1 _ _ hedit
    exact (ih hnext).imp_left (IsTrans.trans _ _ _ hstep)

theorem upholds_once {edit : Edit σ α} (hrun : ∀ a t, edit.Runs s a t → step s t ∧ post a t)
    (hfail : ∀ e t, edit.Fails s e t → stop s e t) : (once edit).Upholds step stop post s :=
  ⟨hrun, hfail⟩

theorem Upholds.bind {next : α → Script σ β} {last : β → σ → Prop}
    (h : script.Upholds step stop post s)
    (hnext : ∀ a t, post a t → (next a).Upholds step stop last t) :
    (script >>= next).Upholds step stop last s := by
  induction script generalizing s with
  | done a => exact hnext a s h
  | turn edit rest ih => exact ⟨fun b t hrun => (h.1 b t hrun).imp_right (ih b), h.2⟩

/-- A loop keeps a condition that may speak of what is still to come. -/
theorem upholds_forM {items : List α} {body : α → Script σ PUnit} (I : List α → σ → Prop)
    (start : I items s) (hbody : ∀ a rest t, I (a :: rest) t →
      (body a).Upholds step stop (fun _ => I rest) t) :
    (items.forM body).Upholds step stop (fun _ => I []) s := by
  induction items generalizing s with
  | nil => exact start
  | cons a items ih => exact (hbody a items s start).bind fun _ _ => ih

/-- While elements are selected, a condition may speak of those selected so far and of those still
to come. -/
theorem upholds_filterM {items : List α} {test : α → Script σ Bool} (I : List α → List α → σ → Prop)
    (start : I [] items s) (htest : ∀ kept a rest t, I kept (a :: rest) t →
      (test a).Upholds step stop (fun keep => I (if keep then kept ++ [a] else kept) rest) t) :
    (items.filterM test).Upholds step stop (fun kept => I kept []) s := by
  -- the loop collects what it selects in reverse
  have loop : ∀ acc s, I acc.reverse items s →
      (items.filterAuxM test acc).Upholds step stop (fun kept => I kept.reverse []) s := by
    clear start
    induction items with
    | nil => exact fun acc s hacc => hacc
    | cons a items ih =>
      refine fun acc s hacc => (htest acc.reverse a items s hacc).bind fun keep t ht => ih _ t ?_
      cases keep with
      | false => exact ht
      | true => simpa using ht
  exact (loop [] s start).bind fun _ _ h => h

theorem upholds_mapM {items : List α} {body : α → Script σ β}
    (hbody : ∀ a ∈ items, ∀ t, (body a).Upholds step stop (fun _ _ => True) t) :
    (items.mapM body).Upholds step stop (fun _ _ => True) s := by
  induction items generalizing s with
  | nil => trivial
  | cons a items ih =>
    rw [List.mapM_cons]
    refine (hbody a (.head _) s).bind fun b t _ => ?_
    exact (ih fun a ha => hbody a (.tail _ ha)).bind fun _ _ h => h

end

end Script

/-! ### The passes -/

namespace Weaving

open Script

/-- Parameters get their records in a turn each. -/
def loadTurns (env : Env) : Script Weaving Unit := do
  let f := (← once get).func
  f.pointerParams.zipIdx.forM fun ((param, position), n) =>
    once (parameterMetadata env param (f.attrsAt position).byval (n + 1) >>= associate param)

/-- Instructions of the program are visited in a turn each. -/
def programTurns (blocks : List BlockId) (visit : ValueId → Edit Weaving Unit) :
    Script Weaving Unit :=
  blocks.forM fun block => do
    ((← once get).func.programInsts block).forM fun id => once (visit id)

/-- Deferred instructions are tried in a turn each. The round has one of its own at its end. -/
def roundTurns (env : Env) : Nat → List ValueId → Script Weaving Unit
  | 0, _ => return
  | _ + 1, [] => return
  | fuel + 1, first :: rest => do
    let waiting ← (first :: rest).filterM fun id => once do return !(← propagate env id)
    once do
      if waiting.length = rest.length + 1 then
        let s ← get
        throw (.missingMetadata s.func.name (firstUnresolved s first))
    roundTurns env fuel waiting

def passTurns (env : Env) : Pass → Script Weaving Bool
  | .create => do
    loadTurns env
    programTurns (← once bfsBlocks) (propagateOrDefer env)
    once (releaseFrameKey env)
    return true
  | .resolve => do
    let waiting := (← once get).deferred
    once (modify fun s => { s with deferred := [] })
    roundTurns env waiting.length waiting
    let placeholders := (← once get).placeholders
    once (modify fun s => { s with placeholders := [] })
    placeholders.forM fun placeholder => once (fillPlaceholder env placeholder)
    programTurns (← once bfsBlocks) (recordStore env)
    return true
  | .audit => do
    once (auditMetadata env)
    return false
  | .check => do
    once (modify fun s => { s with covered := [] })
    let before := (← once get).report.totalChecks
    let order ← once (do Edit.ofOption .danglingEdge (← get).func.checkOrder?)
    programTurns order (checkInst env)
    let report := (← once get).report
    return report.totalChecks != before || report.metadataCopies != 0

/-- All passes over a function, in turns. -/
def turns (env : Env) : Script Weaving (List Bool) := env.config.pipeline.mapM (passTurns env)

variable {env : Env}

theorem run_loadTurns : (loadTurns env).run = loadParameters env := by
  simp [loadTurns, loadParameters]

theorem run_programTurns {blocks : List BlockId} {visit : ValueId → Edit Weaving Unit} :
    (programTurns blocks visit).run = forProgramInsts blocks visit := by
  simp [programTurns, forProgramInsts]

private theorem run_roundTurns {rounds : Nat} {waiting : List ValueId} :
    (roundTurns env rounds waiting).run = resolveRounds env rounds waiting := by
  induction rounds generalizing waiting with
  | zero => rfl
  | succ rounds ih =>
    cases waiting with
    | nil => rfl
    | cons first rest =>
      simp only [roundTurns, resolveRounds, run_bind, run_filterM, run_once, ih]
      refine congrArg _ (funext fun waiting => ?_)
      split <;> simp

private theorem run_passTurns {pass : Pass} : (passTurns env pass).run = runPass env pass := by
  cases pass with
  | create => simp [passTurns, runPass, createMetadata, run_loadTurns, run_programTurns]
  | resolve =>
    simp [passTurns, runPass, resolveMetadata, resolveDeferred, fillPlaceholders, run_roundTurns,
      run_programTurns]
  | audit => simp [passTurns, runPass]
  | check => simp [passTurns, runPass, insertChecks, run_programTurns]

/-- The turns are those of the passes. -/
theorem run_turns : (turns env).run = env.config.pipeline.mapM (runPass env) := by
  simp only [turns, run_mapM, run_passTurns]

end Weaving

end PointerGuard
