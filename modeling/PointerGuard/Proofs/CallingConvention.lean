import PointerGuard.Proofs.Framing
import PointerGuard.Proofs.Mediation
import PointerGuard.Proofs.ValidGrowth
import PointerGuard.Proofs.VisitOrder

/-!
# The calling convention

Around every call of instrumented code that passes or returns pointers there is a frame, with the
records of the arguments in their slots, and the record of the result is taken from its own. A
function fetches the records of its parameters first, and leaves that of a pointer it returns. There
is no other code for frames.
-/

namespace PointerGuard

open Edit PointerGuard.Function

variable {all : List ValueId} {f : Function} {b : BlockId} {env : Env} {s : Weaving}
  {L : FrameLedger}

namespace Weaving

variable {p : Routine → Prop} {own : ValueId → Prop} {s' t t' : Weaving} {id : ValueId}
  {store : Store}

/-- Weaving opens no way to a block. -/
theorem Steps.reachable (S : Steps env p f own s t) (W : s.Woven env p f)
    (h : t.func.Reachable b) : s.func.Reachable b := by
  induction S with
  | refl => exact h
  | tail S step ih =>
    apply ih
    rcases step.grows with G | ⟨shadow, incoming, edges, -, -, hkind, hfunc⟩
    · exact G.reachable (Steps.woven S W).func_tidy h
    · exact .mono (fun a c hc => by rwa [hfunc, successors_withEdges hkind] at hc) h

/-! ### Parameters -/

/-- What has been fetched while some parameters are still to be recorded. -/
structure Fetches (env : Env) (f : Function) (L : FrameLedger)
    (done : List ((ValueId × Nat) × Nat)) (t : Weaving) : Prop where
  code : ∀ b, env.frameCode f t.func b = L.code f b
  bare : ∀ x, L.before x = [] ∧ L.after x = []
  top : List.Forall₂ (t.LoadsParam env f) done L.top

theorem Fetches.step {done : List ((ValueId × Nat) × Nat)} {position n : Nat}
    (F : Fetches env f L done t) (W : t.Woven env Any f) (hdistinct : env.Distinct)
    (hconfig : env.config.validate = .ok ()) (hget : f.pointerParams[n]? = some (id, position))
    (hnone : t.store.lookup id = none)
    (h : (parameterMetadata env id (f.attrsAt position).byval (n + 1) >>= associate id).Runs
      t ⟨⟩ t') : ∃ L', Fetches env f L' (done ++ [((id, position), n)]) t' := by
  obtain ⟨S, -⟩ := recordParameter_steps W (fun _ _ => trivial) hget hnone h
  have K := S.kept W
  have htop := F.top.imp fun _ _ => K.loadsParam
  simp only [runs_bind, runs_associate] at h
  obtain ⟨md, u, hmd, store, hassociate, rfl⟩ := h
  rw [parameterMetadata] at hmd
  by_cases hbyval : (f.attrsAt position).byval
  · rw [if_pos hbyval] at hmd
    have W' : t.Woven env (fun r => r.onFrames = false) t.func := ⟨W.func_tidy, .refl⟩
    have hcode :=
      frameCode_eq_of_steps (f := f) hdistinct W.func_tidy (materialize_steps W' rfl hmd).1
    refine ⟨{ L with top := L.top ++ [[]] }, fun b => ?_, F.bare,
      List.rel_append htop (.cons ?_ .nil)⟩
    · rw [hcode, F.code, FrameLedger.code, FrameLedger.code]
      simp
    · rw [LoadsParam, if_pos hbyval]
  · rw [if_neg hbyval, runs_splice] at hmd
    obtain ⟨b, i, v, hlocate, hload, rfl⟩ := hmd
    obtain ⟨ids, kinds, loads, I, hloads, hkinds, hnames⟩ :=
      Splice.frames_loadParameter hdistinct hload
    have hcode := FrameLedger.code_top W.func_tidy F.code (W.grows.programInsts_eq W.tidy) I
      W.grows.size_le F.bare hlocate
    rw [hloads] at hcode
    have hlookup := Store.associate_lookup hassociate hnone
    rw [hnames.not_isEmpty hconfig] at hlookup
    refine ⟨{ L with top := L.top ++ [loads] }, hcode, F.bare, List.rel_append htop (.cons ?_ .nil)⟩
    rw [LoadsParam, if_neg hbyval]
    exact ⟨hkinds, md, hlookup, hnames⟩

theorem loadParameters_fetches (T : f.Tidy) (hdistinct : env.Distinct)
    (hconfig : env.config.validate = .ok ()) (hfunc : s.func = f)
    (hnone : ∀ v ∈ f.params, s.store.lookup v = none) (h : (loadParameters env).Runs s ⟨⟩ s') :
    ∃ L, Fetches env f L f.pointerParams.zipIdx s' := by
  have W : s.Woven env Any f := ⟨T, hfunc ▸ .refl⟩
  rw [loadParameters, runs_get_bind, hfunc] at h
  have loop := h.forM_induction (fun rest t => Loading env Any f s rest t ∧
    ∃ done L, f.pointerParams.zipIdx = done ++ rest ∧ Fetches env f L done t) ?_ ?_
  · grind
  · refine ⟨.start hnone, [], .empty, rfl, fun b => ?_, fun x => ⟨rfl, rfl⟩, .nil⟩
    rw [hfunc, Env.frameCode_self T, FrameLedger.code_empty]
  · rintro ⟨⟨id, position⟩, n⟩ rest t t' ⟨loading, done, L, hdone, F⟩ hbody
    obtain ⟨hget, -, hnone⟩ := loading.todo _ (.head _)
    obtain ⟨L', F'⟩ := F.step (Steps.woven loading.steps W) hdistinct hconfig hget hnone hbody
    refine ⟨loading.step W (fun _ _ => trivial) hbody, _, L', ?_, F'⟩
    rw [hdone, List.append_assoc]
    rfl

/-! ### Instructions -/

/-- What holds while some of the instructions that are visited have been given no code. -/
structure Marshals (env : Env) (f : Function) (all todo : List ValueId) (t : Weaving) : Prop where
  framed : ∃ L, Framed env f all todo L t
  complete : t.store.Complete env
  among : ∀ x ∈ todo, x ∈ all
  visited : ∀ {b x}, x ∈ f.programInsts b → t.func.Reachable b → x ∈ all

namespace Marshals

variable {todo front rest : List ValueId}

/-- Steps that do not show do not matter. -/
theorem steps_any (M : Marshals env f all todo t) (W : t.Woven env Any f)
    (S : Steps env Any f Never t t')
    (hcode : ∀ b, env.frameCode f t'.func b = env.frameCode f t.func b) :
    Marshals env f all todo t' := by
  obtain ⟨L, F⟩ := M.framed
  exact ⟨⟨L, F.of_kept (S.kept W) hcode⟩, S.complete M.complete, M.among,
    fun hx hb => M.visited hx (S.reachable W hb)⟩

theorem propagate {done : Bool} (T : f.Tidy) (hdistinct : env.Distinct)
    (hconfig : env.config.validate = .ok ()) (hall : ∀ x ∈ all, ∃ b, x ∈ f.programInsts b)
    (G : Gathers env Any f (.start f store) (front ++ id :: rest) t)
    (h : (Weaving.propagate env id).Runs t done t')
    (M : Marshals env f all (front ++ id :: rest) t) :
    Marshals env f all (front ++ if done then rest else id :: rest) t' := by
  have W : t.Woven env Any f := Steps.woven G.steps ⟨T, .refl⟩
  have hid := M.among id (by simp)
  obtain ⟨b, hb⟩ := hall id hid
  obtain ⟨⟨kind, hkind⟩, hnone, hfresh⟩ := G.todo id (by simp)
  obtain ⟨S, -⟩ := propagate_pending W (fun _ _ => trivial) (has_of_kind? hkind).index_lt
    hnone hkind G.pending hfresh h
  obtain ⟨L, F⟩ := M.framed
  have F' := F.propagate G.nodup hid hb W M.complete hdistinct hconfig hnone (S.kept W) h
  refine ⟨F', S.complete M.complete, fun x hx => M.among x ?_,
    fun hx hb => M.visited hx (S.reachable W hb)⟩
  cases done with
  | false => exact hx
  | true => grind

end Marshals

section

variable (T : f.Tidy) (hdistinct : env.Distinct)

include T hdistinct

/-- The first pass gives code to all instructions it visits, or defers them. -/
theorem createMetadata_marshals (hfirst : f.ParamsFirst) (hconfig : env.config.validate = .ok ())
    (hstore : store.Vacant f) (hcomplete : store.Complete env)
    (h : (createMetadata env).Runs (.start f store) ⟨⟩ s') :
    ∃ all, (∀ x ∈ all, ∃ b, x ∈ f.programInsts b) ∧
      Gathers env Any f (.start f store) s'.deferred s' ∧ Marshals env f all s'.deferred s' := by
  have W : Woven env Any f (.start f store) := ⟨T, .refl⟩
  obtain ⟨t, blocks, u, hparams, ⟨S, hqueues⟩, hblocks, G, hinsts, hrelease⟩ :=
    runs_createMetadata T hfirst hstore (fun _ _ => trivial) h
  have hall : ∀ x ∈ blocks.flatMap f.programInsts, ∃ b, x ∈ f.programInsts b := fun x hx => by grind
  have Wt := S.woven W
  obtain ⟨L, F⟩ := loadParameters_fetches T hdistinct hconfig rfl
    (fun v hv => hstore v (hfirst.has hv)) hparams
  have hdeferred : t.deferred = [] := congrArg (fun q => q.2.1) hqueues
  have M : Marshals env f (blocks.flatMap f.programInsts)
      (t.deferred ++ blocks.flatMap f.programInsts) t := by
    refine ⟨⟨L, F.code, F.top, fun x hx hnot => ?_, fun x _ => F.bare x⟩, S.complete hcomplete,
      by simp [hdeferred], fun {b x} hx hb => ?_⟩
    · exact absurd (List.mem_append_right _ hx) hnot
    · have hsize : 0 < t.func.blocks.size := by
        have hlt := index_lt_of_mem_instsOf (List.mem_of_mem_filter hx)
        rw [Wt.grows.size_blocks]
        omega
      exact List.mem_flatMap.mpr ⟨b, (mem_bfsBlocks_iff hsize hblocks).mpr hb, hx⟩
  obtain ⟨G, M⟩ := forProgramInsts_keeps W (fun _ _ => trivial)
    (fun G => Marshals.propagate T hdistinct hconfig hall G)
    (fun G S hfunc _ M => M.steps_any (Steps.woven G.steps W) S fun _ => by rw [hfunc]) hinsts G M
  have Wu := Steps.woven G.steps W
  obtain ⟨S, hqueues⟩ := releaseFrameKey_steps Wu trivial hrelease
  have W' : u.Woven env (fun r => r.onFrames = false) u.func := ⟨Wu.func_tidy, .refl⟩
  refine ⟨_, hall, G.releaseFrameKey W (fun _ _ => trivial) hrelease, ?_⟩
  rw [show s'.deferred = u.deferred from congrArg (fun q => q.2.1) hqueues]
  exact M.steps_any Wu S (frameCode_eq_of_steps hdistinct Wu.func_tidy
    (releaseFrameKey_steps W' rfl hrelease).1)

omit T in
theorem frameCode_fillPlaceholders (Ts : s.func.Tidy) (h : (fillPlaceholders env).Runs s ⟨⟩ s')
    (b : BlockId) : env.frameCode f s'.func b = env.frameCode f s.func b := by
  rw [fillPlaceholders, runs_get_bind] at h
  simp only [runs_bind, runs_modify] at h
  obtain ⟨_, _, rfl, h⟩ := h
  -- what is looked at between any two edges: the function is tidy, and its code is the same
  let I (t : Weaving) : Prop := t.func.Tidy ∧
    ∀ b, env.frameCode f t.func b = env.frameCode f s.func b
  have loop := h.forM_induction (fun _ t => I t) ⟨Ts, fun _ => rfl⟩ fun ph _ t t' ht hbody => ?_
  · exact loop.2 b
  obtain ⟨incoming, -, hedges⟩ := runs_fillPlaceholder hbody
  refine hedges.forM_induction (fun _ t => I t) ht fun entry _ t t' ht hbody => ?_
  obtain ⟨md, u, hmd, hadds⟩ := runs_bind.mp hbody
  have W : t.Woven env (fun r => r.onFrames = false) t.func := ⟨ht.1, .refl⟩
  obtain ⟨S, -⟩ := edgeMetadata_steps W rfl hmd
  have hu : I u := ⟨(S.woven W).func_tidy, fun b =>
    (frameCode_eq_of_steps hdistinct ht.1 S b).trans (ht.2 b)⟩
  refine hadds.forM_induction (fun _ t => I t) hu fun shadow _ t t' ht hadd => ?_
  obtain ⟨edges, hkind, rfl⟩ := runs_addIncoming.mp hadd
  exact ⟨ht.1.withEdges hkind, fun b => (Env.frameCode_withEdges hkind b).trans (ht.2 b)⟩

theorem frameCode_recordStores {blocks : List BlockId} (W : s.Woven env Any f)
    (h : (forProgramInsts blocks (recordStore env)).Runs s ⟨⟩ s') :
    Steps env Any f Never s s' ∧ ∀ b, env.frameCode f s'.func b = env.frameCode f s.func b := by
  have loop := forProgramInsts_induction h T (fun todo t =>
    (∀ v ∈ todo, ∃ b, v ∈ f.programInsts b) ∧ Steps env Any f Never s t ∧
      ∀ b, env.frameCode f t.func b = env.frameCode f s.func b)
    (fun I => (Steps.woven I.2.1 W).grows) ?_ ?_
  · exact loop.2
  · grind
  · rintro id rest t t' ⟨hids, S, hcode⟩ hvisit
    have Wt := Steps.woven S W
    obtain ⟨b, hid⟩ := hids id (.head _)
    have hindex := index_lt_of_mem_programInsts T hid
    have W' : t.Woven env (fun r => r.onFrames = false) t.func := ⟨Wt.func_tidy, .refl⟩
    refine ⟨fun v hv => hids v (.tail _ hv),
      S.trans (recordStore_steps Wt trivial trivial hindex hvisit), fun b => ?_⟩
    rw [frameCode_eq_of_steps hdistinct Wt.func_tidy (recordStore_steps W' rfl rfl
      (hindex.trans_le Wt.grows.size_le) hvisit) b, hcode b]

end

/-! ### Both sides of a call -/

/-- The code for frames that was inserted when a function was woven out of `f`, as it has been
entered in a ledger. Parameters that are pointers are fetched at the top; around a call of
instrumented code that passes or returns pointers there is a frame; the record of a pointer is
stored before the pointer is returned; and no other such code was inserted. Calls and returns have
to stay reachable. -/
structure Conveys (env : Env) (f : Function) (s : Weaving) (L : FrameLedger) : Prop where
  code : ∀ b, env.frameCode f s.func b = L.code f b
  params : List.Forall₂ (s.LoadsParam env s.func) s.func.pointerParams.zipIdx L.top
  call : ∀ {b x callee args sig}, x ∈ f.programInsts b → f.StaysReachable s.func b →
    s.func.kind? x = some (.call callee args sig) → env.interface.isInstrumentedCall callee →
    if s.PassesPointers x args then s.Bracketed env x args (L.before x) (L.after x)
    else L.before x = [] ∧ L.after x = []
  ret : ∀ {b x operand}, x ∈ f.programInsts b → f.StaysReachable s.func b →
    s.func.kind? x = some (.ret (some operand)) → s.func.isPointerOperand operand →
    L.after x = [] ∧ ∃ md, s.resolved? env operand = some md ∧
      (L.before x).map s.func.kind? = (env.slotStores md 0).map some
  other : ∀ {b x kind}, x ∈ f.programInsts b → s.func.kind? x = some kind →
    (∀ callee args sig, kind = .call callee args sig → ¬env.interface.isInstrumentedCall callee) →
    (∀ operand, kind = .ret (some operand) → ¬s.func.isPointerOperand operand) →
    L.before x = [] ∧ L.after x = []

/-- When nothing is left to do, the ledger says what was asked for. -/
theorem Framed.conveys (F : Framed env f all [] L s) (W : s.Woven env p f) (hfirst : f.ParamsFirst)
    (hvisited : ∀ {b x}, x ∈ f.programInsts b → s.func.Reachable b → x ∈ all) :
    s.Conveys env f L where
  code := F.code
  params := by
    have hattrs : ∀ position, s.func.attrsAt position = f.attrsAt position := by
      intro position
      rw [W.grows.header]
      rfl
    have hparams : s.func.pointerParams = f.pointerParams := by
      rw [pointerParams, W.params_eq]
      refine List.filter_congr fun entry hentry => ?_
      have hlt := (hfirst.has (List.fst_mem_of_mem_zipIdx hentry)).index_lt
      simp only [isPointerValue, valueType?_congr (W.grows.value?_eq hlt)]
    rw [hparams]
    refine F.top.imp fun entry ids h => ?_
    rwa [LoadsParam, hattrs]
  call {b x callee args sig} hx hb hkind hcallee := by
    have haround := F.around x (hvisited hx (W.grows.reachable_of_stays W.tidy hb hx)) (by simp)
    generalize L.before x = before at haround
    generalize L.after x = after at haround
    cases haround with
    | framed hkind' _ _ hpasses hframe => grind
    | plain hkind' hplain => grind
    | returned hkind' => cases hkind.symm.trans hkind'
    | left hkind' => cases hkind.symm.trans hkind'
    | other hkind' hother =>
      cases hkind.symm.trans hkind'
      rcases hother with h | h <;> cases h
  ret {b x operand} hx hb hkind hpointer := by
    have haround := F.around x (hvisited hx (W.grows.reachable_of_stays W.tidy hb hx)) (by simp)
    generalize L.before x = before at haround ⊢
    generalize L.after x = after at haround ⊢
    cases haround with
    | framed hkind' => cases hkind.symm.trans hkind'
    | plain hkind' => cases hkind.symm.trans hkind'
    | returned hkind' _ hmd hstores => grind
    | left hkind' htype hnot => grind [isPointerOperand_eq]
    | other hkind' hother =>
      cases hkind.symm.trans hkind'
      rcases hother with h | h <;> cases h
  other {b x kind} hx hkind hcall hret := by
    by_cases hall : x ∈ all
    · have haround := F.around x hall (by simp)
      generalize L.before x = before at haround ⊢
      generalize L.after x = after at haround ⊢
      cases haround with
      | framed hkind' hcallee => grind
      | returned hkind' hpointer => grind
      | plain | left | other => exact ⟨rfl, rfl⟩
    · exact F.bare x (.inl hall)

/-- The passes give every instruction its code, and leave complete records. -/
theorem Piped.conveys (P : Piped env f store s) (T : f.Tidy) (hfirst : f.ParamsFirst)
    (hstore : store.Vacant f) (hcomplete : store.Complete env) (hdistinct : env.Distinct)
    (hconfig : env.config.validate = .ok ()) : (∃ L, s.Conveys env f L) ∧ s.store.Complete env := by
  obtain ⟨t, hcreate, hresolve⟩ := P.gather
  obtain ⟨all, hall, G, M⟩ :=
    createMetadata_marshals T hdistinct hfirst hconfig hstore hcomplete hcreate
  simp only [resolveMetadata, runs_bind, runs_bfsBlocks] at hresolve
  obtain ⟨_, u, hdeferred, _, w, hfill, blocks, _, ⟨-, rfl⟩, hstores⟩ := hresolve
  have W : Woven env Any f (.start f store) := ⟨T, .refl⟩
  obtain ⟨G, M⟩ := resolveDeferred_keeps W (fun _ _ => trivial)
    (fun G => Marshals.propagate T hdistinct hconfig hall G)
    (fun G S hfunc _ M => M.steps_any (Steps.woven G.steps W) S fun _ => by rw [hfunc])
    hdeferred G M
  obtain ⟨L, F⟩ := M.framed
  -- the rest of the second pass
  have Wu := Steps.woven G.steps W
  obtain ⟨S, -⟩ := fillPlaceholders_mirrors Wu (fun _ _ => trivial) G.pending hfill
  have F := F.of_kept (S.kept Wu) (frameCode_fillPlaceholders hdistinct Wu.func_tidy hfill)
  have Ww := S.woven Wu
  obtain ⟨S', hcode⟩ := frameCode_recordStores T hdistinct Ww hstores
  have F := F.of_kept (S'.kept Ww) hcode
  have Wg := S'.woven Ww
  -- the checks
  obtain ⟨S'', -⟩ := P.steps_checks T hfirst hstore Wg (fun _ _ => trivial) le_rfl
  obtain ⟨C, -⟩ := P.steps_checks (p := (·.onFrames = false)) T hfirst hstore
    ⟨Wg.func_tidy, .refl⟩ (fun _ h => h) Wg.grows.size_le
  have F := F.of_kept (S''.kept Wg) (frameCode_eq_of_steps hdistinct Wg.func_tidy C)
  refine ⟨⟨L, F.conveys (S''.woven Wg) hfirst fun hx hb => M.visited hx ?_⟩,
    S''.complete (S'.complete (S.complete M.complete))⟩
  exact S.reachable Wu (S'.reachable Ww (S''.reachable Wg hb))

end Weaving

/-- For the code of a function it does not matter what its operands were. -/
theorem Weaving.Conveys.congr {f' : Function} (C : s.Conveys env f' L)
    (hsize : f'.values.size = f.values.size) (hprogram : ∀ b, f'.programInsts b = f.programInsts b)
    (hstays : ∀ b, f.StaysReachable s.func b → f'.StaysReachable s.func b) : s.Conveys env f L where
  code b := by
    have hframing : env.framing f = env.framing f' := by
      funext g x
      rw [Env.framing, Env.framing, hsize]
    rw [Env.frameCode, hframing, FrameLedger.code, ← hprogram b]
    exact C.code b
  params := C.params
  call {b x callee args sig} hx hb := C.call (hprogram b ▸ hx) (hstays b hb)
  ret {b x operand} hx hb := C.ret (hprogram b ▸ hx) (hstays b hb)
  other {b x kind} hx := C.other (hprogram b ▸ hx)

namespace Module

variable {m m' : Module} {config : Config} {r? : Option Redirection}

/-- Metadata is handed over in the same way by callers and callees, in all functions of the
program. -/
theorem instrument_conveys {report : Report} (hm : m.WellFormed)
    (h : (instrument config).Runs m report m') :
    ∃ prepared u, (prepare config).Runs m prepared u ∧
      List.Forall₂ (fun id r => ∃ f, m.function id = .ok f ∧
        ∃ turn : Turn config u.interface prepared.routines u m' id, turn.s.report = r ∧
          ∃ L, Weaving.Conveys turn.env f turn.s L) m.targets report.functions := by
  -- records of functions that were woven before are complete
  obtain ⟨prepared, u, hprepare, hturns⟩ := exists_turns_keeping
    (I := fun i t store => ∀ tree, store.Complete ⟨config, i, t, tree⟩) hm
    (fun _ _ _ _ _ h => by cases h) (fun _ _ f tree store s hconfig hdistinct hf hstore passes
      hcomplete _ => (passes.piped.conveys hf.tidy hf.paramsFirst hstore (hcomplete tree) hdistinct
        hconfig).2) h
  obtain ⟨hconfig, -⟩ := of_runs_prepare hm hprepare
  refine ⟨prepared, u, hprepare, hturns.imp ?_⟩
  rintro id r ⟨f, hf, turn, hreport, S, hcomplete⟩
  obtain ⟨change, -, R⟩ := S.readdresses
  obtain ⟨⟨L, C⟩, -⟩ :=
    turn.passes.piped.conveys S.wellFormed.tidy S.wellFormed.paramsFirst turn.fresh
    (hcomplete turn.dominators) S.distinct hconfig
  refine ⟨f, hf, turn, hreport, L, C.congr R.size_eq (fun b => R.programInsts_eq S.tidy)
    fun b hb => ?_⟩
  rwa [Function.StaysReachable, Function.reachable_congr (R.flowGraph_eq S.tidy),
    R.successors_eq S.tidy, R.programInsts_eq S.tidy]

end Module

/-! ### Calls whose results are passed on

A function that is given two pointers, one of them to a private copy, and returns the other; and a
function that calls it twice, the second time with what came back from the first. -/

/-- Return the first argument. -/
def picker : Function :=
  { Function.ofBlocks ⟨0⟩ "pick" ⟨.voidPtr, [.voidPtr, .voidPtr], false⟩
      [[(.void, .ret (some (val 0)))]] with attrs := [{}, { byval := true }] }

def pick (id : FuncId) (first second : Nat) : InstKind :=
  .call (.const (.func ⟨0⟩ picker.pointerType)) [.value ⟨id, first⟩, .value ⟨id, second⟩]
    picker.signature

/-- Pick, and pick again. -/
def pickTwice : Function := .ofBlocks ⟨1⟩ "again" ⟨.voidPtr, [.voidPtr, .voidPtr], false⟩ [
  [(.voidPtr, pick ⟨1⟩ 0 1), (.voidPtr, pick ⟨1⟩ 2 0), (.void, .ret (some (.value ⟨⟨1⟩, 3⟩)))]]

def pickModule : Module := { name := "pick", width := .bits64, functions := #[picker, pickTwice] }

/-- Both calls get a frame, one after the other. -/
theorem instrument_conveys_pickModule :
    pickModule.WellFormed ∧
      ∃ report m', (Module.instrument {}).Runs pickModule report m' ∧
        report.functions.map FunctionReport.shadowStackFrames = [0, 2] ∧
        ∃ prepared u, (Module.prepare {}).Runs pickModule prepared u ∧
          List.Forall₂ (fun id r => ∃ f, pickModule.function id = .ok f ∧
            ∃ turn : Module.Turn {} u.interface prepared.routines u m' id, turn.s.report = r ∧
              ∃ L, Weaving.Conveys turn.env f turn.s L) pickModule.targets report.functions := by
  have hm : pickModule.WellFormed := by decide +kernel
  obtain ⟨report, hrun, hframes⟩ : ∃ report, (Module.instrument {}).Runs pickModule report _ ∧
      report.functions.map FunctionReport.shadowStackFrames = [0, 2] :=
    Edit.exists_runs_of_map (by decide +kernel)
  exact ⟨hm, report, _, hrun, hframes, Module.instrument_conveys hm hrun⟩

/-! ### A call that is not seen -/

def sink : Function := .ofBlocks ⟨0⟩ "sink" ⟨.void, [.voidPtr], false⟩ [[(.void, .ret none)]]

/-- Pass a pointer on, in a block that is entered by a jump which is not an instruction of the
program. -/
def relayFunction : Function :=
  (Function.ofBlocks ⟨1⟩ "relay" ⟨.void, [.voidPtr], false⟩ [
    [(.void, .jump ⟨1⟩)],
    [(.void, .call (.const (.func ⟨0⟩ sink.pointerType)) [.value ⟨⟨1⟩, 0⟩] sink.signature),
      (.void, .ret none)]]).withInserted 1

def relayModule : Module :=
  { name := "relay", width := .bits64, functions := #[sink, relayFunction] }

/-- The loads of the parameter's metadata cut the jump off, and the call gets no frame: no call has
the signature of the routine that would open one. -/
theorem instrument_not_framed_relayModule :
    relayModule.WellFormed ∧ relayFunction.verify = .ok () ∧ relayFunction.Reachable ⟨1⟩ ∧
      ⟨⟨1⟩, 2⟩ ∈ relayFunction.programInsts ⟨1⟩ ∧
      relayFunction.kind? ⟨⟨1⟩, 2⟩ = some (.call (.const (.func ⟨0⟩ sink.pointerType))
        [.value ⟨⟨1⟩, 0⟩] sink.signature) ∧
      relayModule.interface.isInstrumentedCall (.const (.func ⟨0⟩ sink.pointerType)) ∧
      ∃ report m' g, (Module.instrument { verifyOutput := false }).Runs relayModule report m' ∧
        m'.function ⟨1⟩ = .ok g ∧ Routine.allocateFrame.signature .bits64 ∉ g.calledSignatures := by
  have hblocks : relayFunction.bfsBlocks? = some [⟨0⟩, ⟨1⟩] := by decide +kernel
  have hreach : relayFunction.Reachable ⟨1⟩ :=
    (Function.mem_bfsBlocks_iff (by decide) hblocks).mp (by decide)
  exact ⟨by decide +kernel, by decide +kernel, hreach, by decide, rfl, by decide +kernel,
    Module.exists_runs_instrument (by decide +kernel) (by decide +kernel)⟩

end PointerGuard
