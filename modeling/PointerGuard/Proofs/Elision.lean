import PointerGuard.Proofs.Emission

/-!
# Elision of key checks

A key check that was left out was not needed. Either the object lives as long as the function runs;
or on every way to the access another key check of the same object was executed before, and since
then nothing could have freed it. Every mark on an access is traced back to the check that made it.
-/

namespace PointerGuard

open PointerGuard.Function

variable {g f : Function} {p : Routine → Prop} {a c : ValueId} {b o : BlockId} {m : MemoryAccess}
  {source : Operand} {tier : Tier} {env : Env} {s s' : Weaving} {ids : List ValueId}

/-- The source of a pointer is an allocation on the stack, or a global. -/
def Function.IsStackOrGlobal (f : Function) (source : Operand) : Prop :=
  (∃ x allocated copies, source = .value x ∧ f.kind? x = some (.alloca allocated copies)) ∨
    ∃ id ty, source = .const (.global id ty)

/-- On every way from the first block to an access, another access to the same object is executed
before. It has a key check in the instrumented function `g`, and vouches for the object from then
on. -/
def Env.VouchedFor (env : Env) (f g : Function) (b : BlockId) (a : ValueId) (source : Operand) :
    Prop :=
  ∀ nodes, f.flowGraph.Walk 0 nodes b.index → ∃ c o m, c ∈ f.programInsts o ∧
    f.access? c = some m ∧ f.source? m.ptr = some source ∧
    (∃ x args, x ∈ g.gapBefore o c ∧ f.values.size ≤ x.index ∧
      g.kind? x = some (env.callOf m.kind.temporalRoutine args)) ∧
    f.Vouches source c (f.executedBefore nodes b a)

/-! ### Sources of accesses -/

namespace Function

variable {t : RoutineTable}

theorem Grows.access?_eq (G : f.Grows t p g) (V : f.Valid) (ha : a ∈ f.instsOf b) :
    g.access? a = f.access? a := by
  refine G.access?_eq_of_stored (V.tidy.index_lt ha) fun x ptr hkind => ?_
  have hgives := (V.fits ha hkind).gives (.value x) (.head _)
  obtain ⟨ty, hty, -⟩ := hgives x rfl
  exact ⟨ty, operandType_value_eq_ok.mpr hty⟩

/-- What is known of the source of an access in what a function has grown to was already known in
the function, where moreover the source is defined before the access. -/
theorem Grows.source_of_access (G : f.Grows t p g) (V : f.Valid) (hb : f.Reachable b)
    (ha : a ∈ f.instsOf b) (hm : g.access? a = some m) (hsource : g.source? m.ptr = some source) :
    f.access? a = some m ∧ f.source? m.ptr = some source ∧
      ∀ x, source = .value x → f.Before x a := by
  rw [G.access?_eq V ha] at hm
  obtain ⟨kind, hkind, hphi, -, hptr⟩ := mem_operands_of_access? hm
  have huse : ∀ x, m.ptr = .value x → f.Before x a ∧ f.Available (.value x) :=
    fun x e => V.use hb ha hkind hphi (e ▸ hptr)
  have havailable : f.Available m.ptr := fun x e => (huse x e).2 x rfl
  rw [G.source?_eq_some_iff V havailable] at hsource
  refine ⟨hm, hsource, fun x e => ?_⟩
  obtain ⟨chain, D⟩ := Function.source?_eq_some_iff.mp hsource
  exact Derives.before V ha hb (e ▸ D) fun y hy => (huse y hy).1

theorem Grows.accessesSource_of_grown (G : f.Grows t p g) (V : f.Valid) (hb : f.Reachable b)
    (ha : a ∈ f.instsOf b) (h : g.accessesSource source a) : f.accessesSource source a := by
  obtain ⟨m, hm⟩ := access?_of_accessesSource h
  obtain ⟨hnull, hsource⟩ := (accessesSource_iff hm).mp h
  obtain ⟨hm, hsource, -⟩ := G.source_of_access V hb ha hm hsource
  exact (accessesSource_iff hm).mpr ⟨hnull, hsource⟩

/-- A check that covers a reachable access is reachable. -/
theorem Covers.reachable {opaqueCalls : Bool} (h : f.Covers opaqueCalls o c a tier) (T : f.Tidy)
    (hb : f.Reachable b) (ha : a ∈ f.instsOf b) : f.Reachable o := by
  cases h with
  | block hsplit =>
    have hao : a ∈ f.programInsts o := by simp [hsplit]
    exact T.block_eq (List.mem_of_mem_filter hao) ha ▸ hb
  | function hdom => exact hdom.2.1

end Function

namespace Weaving

open Edit

variable {bounds : Verdict Unit}

/-- A key check is left out because of a mark, or because the object is trivially alive. -/
theorem elided_of_keyVerdict (h : s.keyVerdict env a m = .elided tier) :
    ∃ source, s.func.source? m.ptr = some source ∧
      ((a, tier) ∈ s.covered ∨ tier = .trivial ∧ s.func.isTriviallyLive env.config source) := by
  rw [keyVerdict] at h
  split at h
  · cases h
  · split at h
    · rename_i tier' helision
      obtain ⟨source, hsource, helision⟩ := Option.bind_eq_some_iff.mp helision
      refine ⟨source, hsource, ?_⟩
      rw [elision?] at helision
      split at helision
      · grind [List.lookup_eq_some_iff]
      · grind
    · cases h

/-! ### One visit after another -/

section

variable (W : s.Woven env p f) (hp : ∀ r : Routine, r.onFrames = false → p r)

include W hp

/-- A key check that is to be inserted stands in front of the access afterwards. -/
theorem Checked.key_check (hc : c ∈ f.instsOf o) (hm : s.func.access? c = some m)
    (C : Checked env c m s s') (hkey : s.keyVerdict env c m = .inserted) :
    ∃ x args, x ∈ s'.func.gapBefore o c ∧ f.values.size ≤ x.index ∧
      s'.func.kind? x = some (env.callOf m.kind.temporalRoutine args) := by
  cases C with
  | nothing _ hnot =>
    rw [hkey] at hnot
    cases hnot
  | @inserted source report report' md u b i v marks hsome hnull hsource hresolve hlocate hchecks =>
    obtain ⟨S, -, -, -, A⟩ := insertion_adds W hp (W.tidy.index_lt hc) hm hresolve hchecks
    have Wu := S.woven W
    have T := Wu.grows.tidy W.tidy
    obtain ⟨before, after, hsplit, hposition⟩ := locate?_before hlocate
    obtain rfl := T.block_eq ((Wu.grows.instsOf_sublist W.tidy o).subset hc)
      (show c ∈ u.func.instsOf b by simp [hsplit])
    -- the call is the last of what was spliced in
    obtain ⟨ids, casts, raw, size, I, -⟩ := accessChecks_inserts hchecks
    have hkinds := I.map_kind?
    rw [hkey] at hkinds
    obtain ⟨x, hx, hkind⟩ : ∃ x ∈ ids, v.func.kind? x = some (env.callOf m.kind.temporalRoutine
        [md.lockOrNull, md.keyOrZero env.width, md.baseOrNull, md.boundOrNull]) := by
      refine List.mem_map.mp ?_
      rw [hkinds]
      simp [checkKinds, Verdict.isInserted]
    obtain ⟨inst, ty, -, hvalue⟩ := value?_of_kind? hkind
    refine ⟨x, _, ?_, Wu.grows.size_le.trans (I.size_le_of_mem hx), hkind⟩
    exact A.mem_gapBefore (fun _ h => h.1) T hlocate (I.size_le_of_mem hx) hvalue

/-- Where the verdict was to insert a key check, there is one in the end. -/
theorem key_check_of_mem_verdictsOn (hids : ∀ c ∈ ids, c.index < f.values.size)
    (hc : c ∈ f.instsOf o) (h : (ids.forM (checkInst env)).Runs s ⟨⟩ s')
    (hv : (c, bounds, .inserted) ∈ verdictsOn env ids s) :
    ∃ g m x args, f.Grows env.routines p g ∧ g.access? c = some m ∧ x ∈ s'.func.gapBefore o c ∧
      f.values.size ≤ x.index ∧
      s'.func.kind? x = some (env.callOf m.kind.temporalRoutine args) := by
  obtain ⟨front, rest, t, t', rfl, hfront, hvisit, hrest, hverdicts, -⟩ :=
    visit_of_mem_verdictsOn h hv
  -- the visits before it, the visit itself and those behind it
  have Wt := (visits_steps W hp (fun c hc => hids c (by simp [hc])) hfront).1.woven W
  have St := (checkInst_steps Wt hp (hids c (by simp)) hvisit).1
  have Wt' := St.woven Wt
  have S := (visits_steps Wt' hp (fun c hc => hids c (by simp [hc])) hrest).1
  rcases checkInst_cases hvisit with ⟨m, hm, C⟩ | ⟨hnone, -⟩
  · rw [verdicts, hm] at hverdicts
    obtain ⟨x, args, hx, hle, hkind⟩ := C.key_check Wt hp hc hm (Prod.mk.inj hverdicts).2
    have hc' := (Wt'.grows.instsOf_sublist W.tidy o).subset hc
    exact ⟨t.func, m, x, args, Wt.grows, hm,
      S.grows.mem_gapBefore (Wt'.grows.tidy W.tidy) hc' hx, hle,
      (S.kept Wt').kind? hkind (by simp)⟩
  · rw [verdicts, hnone] at hverdicts
    cases (Prod.mk.inj hverdicts).2

end

end Weaving

/-! ### Why a key check may be left out -/

namespace Weaving

open Edit

variable {past : Decisions}

/-- The marks on reachable accesses go back to key checks that were inserted before. -/
def Backed (env : Env) (f : Function) (past : Decisions) (s : Weaving) : Prop :=
  ∀ a b tier, a ∈ f.instsOf b → f.Reachable b → (a, tier) ∈ s.covered →
    ∃ c, KeyInserted past c ∧ env.RelievesBy f c a tier

theorem Backed.visit (B : Backed env f past s) (V : f.Valid)
    (htree : f.dominators? = some env.dominators) (W : s.Woven env Any f)
    (hc : c ∈ f.programInsts o)
    (h : (checkInst env c).Runs s ⟨⟩ s') : Backed env f (past ++ [(c, s.verdicts env c)]) s' := by
  intro a b tier ha hb hmark
  have hold : (a, tier) ∈ s.covered → ∃ c', KeyInserted (past ++ [(c, s.verdicts env c)]) c' ∧
      env.RelievesBy f c' a tier := fun hmark => by
    obtain ⟨c', ⟨bounds, hmem⟩, R⟩ := B a b tier ha hb hmark
    exact ⟨c', ⟨bounds, List.mem_append_left _ hmem⟩, R⟩
  have hindex := index_lt_of_mem_programInsts W.tidy hc
  rcases checkInst_cases h with ⟨m, hm, C⟩ | ⟨hnone, -⟩
  · have W' := (C.steps W (fun _ _ => trivial) hindex hm).1.woven W
    cases C with
    | nothing => exact hold hmark
    | @inserted source report report' md u b i v marks hsome hnull hsource hresolve hlocate hchecks
        hmarks =>
      obtain ⟨S, hsteady, -⟩ := insertion_adds W (fun _ _ => trivial) hindex hm hresolve hchecks
      -- the checks themselves leave the marks alone; new ones are added only with a key check
      rcases List.mem_append.mp hmark with hmark | hmark
      · exact hold (hsteady.aside.covered ▸ hmark)
      · cases hkey : s.keyVerdict env c m with
        | inserted =>
          rw [hkey] at hmarks
          obtain ⟨inst, hinst, hblock⟩ := exists_inst_of_located W.tidy (S.woven W).grows hc hlocate
          obtain ⟨hused, haccess, hcovers⟩ :=
            (mem_marks_iff W.tidy W'.grows htree hc hinst hblock hmarks).mp hmark
          obtain ⟨hmf, hsource, -⟩ := W.grows.source_of_access V (hcovers.reachable W.tidy hb ha)
            (List.mem_of_mem_filter hc) hm hsource
          exact ⟨c, ⟨s.boundsVerdict env m, by simp [verdicts, hm, hkey]⟩, hused,
            ⟨source, (accessesSource_iff hmf).mpr ⟨hnull, hsource⟩,
              W'.grows.accessesSource_of_grown V hb ha haccess⟩, o, hc, hcovers⟩
        | _ =>
          rw [hkey] at hmarks
          obtain rfl : marks = [] := hmarks
          cases hmark
  · rw [(checkInst_aside W hindex trivial trivial trivial hnone h).2.covered] at hmark
    exact hold hmark

theorem isStackOrGlobal_of_isTriviallyLive {config : Config} (G : f.Grows env.routines Any g)
    (hindex : ∀ x, source = .value x → x.index < f.values.size)
    (h : g.isTriviallyLive config source) : f.IsStackOrGlobal source := by
  unfold isTriviallyLive at h
  split at h
  · rename_i x
    rw [kind?_congr (G.value?_eq (hindex x rfl))] at h
    split at h
    · exact .inl ⟨x, _, _, rfl, ‹_›⟩
    · cases h
  · exact .inr ⟨_, _, rfl⟩
  · cases h

end Weaving

/-- If calls matter, a check that makes that of a reachable access unnecessary vouches for its
object on every way to it. -/
theorem Env.RelievesBy.vouches (R : env.RelievesBy f c a tier) (V : f.Valid)
    (hcalls : env.config.opaqueCalls = true) (hb : f.Reachable b) (ha : a ∈ f.instsOf b)
    (hm : f.access? a = some m) (hsource : f.source? m.ptr = some source) :
    ∃ o m', c ∈ f.programInsts o ∧ f.access? c = some m' ∧ f.source? m'.ptr = some source ∧
      ∀ nodes, f.flowGraph.Walk 0 nodes b.index →
        f.Vouches source c (f.executedBefore nodes b a) := by
  obtain ⟨-, ⟨source', hsc, hsa⟩, o, hc, hcovers⟩ := R
  obtain rfl : source' = source :=
    Option.some.inj (((accessesSource_iff hm).mp hsa).2.symm.trans hsource)
  obtain ⟨m', hcm⟩ := access?_of_accessesSource hsc
  have grown : f.Grows env.routines Any f := .refl
  obtain ⟨-, hcs, hbefore⟩ := grown.source_of_access V (hcovers.reachable V.tidy hb ha)
    (List.mem_of_mem_filter hc) hcm ((accessesSource_iff hcm).mp hsc).2
  exact ⟨o, m', hc, hcm, hcs, fun _ walk => (hcalls ▸ hcovers).vouches V hc hbefore ha walk⟩

/-- A key check that is left out was not needed: the object is on the stack or global, or on every
way from the first block to the access an earlier access to the object was executed whose key check
is there, and since then neither a call of the program nor the definition of the object was. -/
theorem Env.elided_key_check_sound {env : Env} {f : Function} {store : Store} {changed : List Bool}
    {s : Weaving} {a : ValueId} {b : BlockId} {bounds : Verdict Unit} {tier : Tier}
    (hverify : f.verify = .ok ()) (hfirst : f.ParamsFirst)
    (hstore : ∀ v, f.Has v → store.lookup v = none)
    (htree : f.dominators? = some env.dominators) (hcalls : env.config.opaqueCalls = true)
    (hrun : (env.config.pipeline.mapM (Weaving.runPass env)).Runs (.start f store) changed s)
    (ha : a ∈ f.programInsts b) (hb : f.Reachable b)
    (helided : (a, bounds, .elided tier) ∈ env.decisions f store) :
    ∃ m source, f.access? a = some m ∧ f.source? m.ptr = some source ∧
      match tier with
      | .trivial => f.IsStackOrGlobal source
      | .block | .function => env.VouchedFor f s.func b a source := by
  have hab := List.mem_of_mem_filter ha
  have hblocks := Function.index_lt_of_mem_instsOf hab
  obtain ⟨-, V⟩ := (Function.verify_eq_ok_iff (by omega)).mp hverify
  have P := Weaving.piped hrun
  have hcheck : .check ∈ env.config.pipeline := by
    by_contra hnot
    simp [Env.decisions, hnot] at helided
  obtain ⟨order, -, hvisits, hdecisions⟩ := P.visits V.tidy hfirst hstore hcheck
  have W := P.woven (p := Any) V.tidy hfirst hstore fun _ _ => trivial
  have W : Weaving.Woven env Any f { env.beforeChecks f store with covered := [] } :=
    ⟨W.tidy, W.grows⟩
  have hids : ∀ c ∈ order.flatMap f.programInsts, ∃ o, c ∈ f.programInsts o := by
    intro c hc
    obtain ⟨o, -, hc⟩ := List.mem_flatMap.mp hc
    exact ⟨o, hc⟩
  have hindex : ∀ c ∈ order.flatMap f.programInsts, c.index < f.values.size := fun c hc =>
    Weaving.index_lt_of_mem_programInsts V.tidy (hids c hc).choose_spec
  rw [hdecisions] at helided
  obtain ⟨front, rest, t, t', hsplit, hfront, -, -, hverdicts, hall⟩ :=
    Weaving.visit_of_mem_verdictsOn hvisits helided
  have hfront' : ∀ c ∈ front, ∃ o, c ∈ f.programInsts o := fun c hc => hids c (by simp [hsplit, hc])
  have Wt := (Weaving.visits_steps W (fun _ _ => trivial)
    (fun c hc => hindex c (by simp [hsplit, hc])) hfront).1.woven W
  -- the marks that the visit finds have all been made on the way to it
  have B :=
    Weaving.visits_induction (I := Weaving.Backed env f) W (fun _ _ => trivial) hfront' hfront
    (fun _ _ _ _ _ hmark => by cases hmark)
    fun _ hc Wt _ hvisit B => B.visit V htree Wt hc hvisit
  rw [Weaving.verdicts] at hverdicts
  split at hverdicts
  case h_2 => cases (Prod.mk.inj hverdicts).2
  rename_i m hm
  obtain ⟨source, hsource, hwhy⟩ := Weaving.elided_of_keyVerdict (Prod.mk.inj hverdicts).2
  obtain ⟨hm, hsource, hbefore⟩ := Wt.grows.source_of_access V hb hab hm hsource
  refine ⟨m, source, hm, hsource, ?_⟩
  have vouched : (a, tier) ∈ t.covered → env.VouchedFor f s.func b a source := by
    intro hmark nodes walk
    obtain ⟨c, ⟨bounds', hinserted⟩, R⟩ := B a b tier hab hb hmark
    obtain ⟨o, m', hc, hcm, hcs, hvouches⟩ := R.vouches V hcalls hb hab hm hsource
    have hco := List.mem_of_mem_filter hc
    obtain ⟨g, m'', x, args, G, hm'', hcheck⟩ := Weaving.key_check_of_mem_verdictsOn W
      (fun _ _ => trivial) hindex hco hvisits (hall ▸ List.mem_append_left _ hinserted)
    obtain rfl : m'' = m' := by
      rw [G.access?_eq V hco, hcm] at hm''
      exact (Option.some.inj hm'').symm
    exact ⟨c, o, m'', hc, hcm, hcs, ⟨x, args, hcheck⟩, hvouches nodes walk⟩
  cases tier with
  | trivial =>
    have hlive : t.func.isTriviallyLive env.config source := by
      refine (hwhy.resolve_left fun hmark => ?_).2
      obtain ⟨c, -, hused, -⟩ := B a b .trivial hab hb hmark
      cases hused
    refine Weaving.isStackOrGlobal_of_isTriviallyLive Wt.grows (fun x e => ?_) hlive
    exact Function.Available.index_lt V fun y e' => by
      obtain rfl := Operand.value.inj e'
      exact (hbefore _ e).cases hab hb V.tidy
  | block => exact vouched (hwhy.resolve_right (by simp))
  | function => exact vouched (hwhy.resolve_right (by simp))

/-! ### A loop

A function that reads through its parameter, and then again in every round of a loop. The second
check is left out. -/

/-- Read through a pointer, and again until a flag is off. -/
def pollLoop : Function := .ofBlocks ⟨0⟩ "poll" ⟨.void, [.ptr (.int 32), .int 1], false⟩ [
  [(.int 32, .load (val 0)), (.void, .jump ⟨1⟩)],
  [(.int 32, .load (val 0)), (.void, .branch (val 1) ⟨1⟩ ⟨2⟩)],
  [(.void, .ret none)]]

/-- The check in the loop is covered by the one in front of it, however often the loop is run. -/
theorem elided_key_check_sound_pollLoop :
    let env := gatherEnv pollLoop
    (⟨⟨0⟩, 4⟩, .inserted, .elided .function) ∈ env.decisions pollLoop ⟨.bits64, []⟩ ∧
      ∃ m source, pollLoop.access? ⟨⟨0⟩, 4⟩ = some m ∧ pollLoop.source? m.ptr = some source ∧
        env.VouchedFor pollLoop ((env.config.pipeline.mapM (Weaving.runPass env)).apply
          (.start pollLoop ⟨.bits64, []⟩)).2.func ⟨1⟩ ⟨⟨0⟩, 4⟩ source := by
  intro env
  have helided : (⟨⟨0⟩, 4⟩, .inserted, .elided .function) ∈ env.decisions pollLoop
      ⟨.bits64, []⟩ := by
    decide +kernel
  obtain ⟨changed, hrun⟩ : ∃ changed, (env.config.pipeline.mapM (Weaving.runPass env)).Runs
      (.start pollLoop ⟨.bits64, []⟩) changed _ := Edit.exists_runs (by decide +kernel)
  exact ⟨helided, Env.elided_key_check_sound (by decide +kernel) (by decide +kernel)
    (fun _ _ => rfl) (dominators_gatherEnv (by decide +kernel)) rfl hrun (by decide +kernel)
    (.step (.refl _ _) (by decide +kernel)) helided⟩

end PointerGuard
