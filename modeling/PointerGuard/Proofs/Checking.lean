import PointerGuard.Checks
import PointerGuard.Proofs.Gathering
import PointerGuard.Proofs.NaturalLayout

/-!
# The check pass

For a load or a store the check pass decides whether a bounds check and a key check are wanted and
needed. The decisions are named here as verdicts, and what the pass does to a weaving is described
in terms of them.
-/

namespace PointerGuard

variable {w : Splice} {f g : Function} {p : Routine → Prop} {ptr : Operand} {id check : ValueId}
  {access : Access} {args : List Operand} {bounds key : Bool}

/-! ### Verdicts -/

/-- A load or a store: through which pointer, and of what type. -/
structure MemoryAccess where
  /-- Whether memory is read or written. -/
  kind : Access
  /-- The pointer. -/
  ptr : Operand
  /-- The type of what is read or written. -/
  ty : Ty
  deriving DecidableEq, Repr

/-- The memory access that a load or a store makes. -/
def Function.access? (f : Function) (id : ValueId) : Option MemoryAccess :=
  match f.kind? id with
  | some (.load ptr) => some ⟨.load, ptr, (f.valueType? id).getD .void⟩
  | some (.store value ptr) => some ⟨.store, ptr, (f.operandType value).toOption.getD .void⟩
  | _ => none

theorem Function.mem_operands_of_access? {m : MemoryAccess} (h : f.access? id = some m) :
    ∃ kind, f.kind? id = some kind ∧ kind.isPhi = false ∧ kind.accessedPointer? = some m.ptr ∧
      m.ptr ∈ kind.operands := by
  rw [access?] at h
  split at h
  · rename_i hkind
    cases h
    exact ⟨_, hkind, rfl, rfl, by simp [InstKind.operands]⟩
  · rename_i hkind
    cases h
    exact ⟨_, hkind, rfl, rfl, by simp [InstKind.operands]⟩
  · cases h

/-- The memory access of an instruction stays what it is, if what is stored exists. -/
theorem Function.Grows.access?_eq_of_stored {t : RoutineTable} (G : f.Grows t p g)
    (hid : id.index < f.values.size)
    (hstored : ∀ x ptr, f.kind? id = some (.store (.value x) ptr) →
      ∃ ty, f.operandType (.value x) = .ok ty) :
    g.access? id = f.access? id := by
  have hvalue := G.value?_eq hid
  rw [access?, access?, kind?_congr hvalue, valueType?, hvalue]
  cases hkind : f.kind? id with
  | none => rfl
  | some kind =>
    cases kind with
    | store value ptr =>
      cases value with
      | const c => rfl
      | value x => grind [Function.Grows.operandType_eq]
    | _ => rfl

/-- What becomes of a check. -/
inductive Verdict (α : Type) where
  /-- Nothing asks for it. -/
  | unwanted
  /-- It is left out, for a reason. -/
  | elided (why : α)
  /-- It is inserted. -/
  | inserted
  deriving DecidableEq, Repr

def Verdict.isInserted {α : Type} : Verdict α → Bool
  | .inserted => true
  | _ => false

/-- Count what becomes of a bounds check. -/
def FunctionReport.noteBounds (r : FunctionReport) : Verdict Unit → FunctionReport
  | .unwanted => r
  | .elided _ =>
    { r with spatialEliminatedConstantIndex := r.spatialEliminatedConstantIndex + 1 }
  | .inserted => { r with spatialChecks := r.spatialChecks + 1 }

/-- Count what becomes of a key check. -/
def FunctionReport.noteKey (r : FunctionReport) : Verdict Tier → FunctionReport
  | .unwanted => r
  | .elided tier => r.countEliminated tier
  | .inserted => { r with temporalChecks := r.temporalChecks + 1 }

/-- What was decided about the checks of instructions, in the order of the visits. -/
abbrev Decisions := List (ValueId × Verdict Unit × Verdict Tier)

namespace Weaving

/-- What becomes of the bounds check of an access. -/
def boundsVerdict (env : Env) (s : Weaving) (m : MemoryAccess) : Verdict Unit :=
  if m.ptr.isNull || !m.kind.wantsSpatial env.config then .unwanted
  else if env.config.eliminateConstantIndexSpatial &&
    s.func.provenInBounds env.interface m.ptr (Layout.size env.width m.ty) then .elided ()
  else .inserted

def keyVerdict (env : Env) (s : Weaving) (id : ValueId) (m : MemoryAccess) : Verdict Tier :=
  if m.ptr.isNull || !m.kind.wantsTemporal env.config then .unwanted
  else match (s.func.source? m.ptr).bind (s.elision? env.config id) with
    | some tier => .elided tier
    | none => .inserted

/-- What becomes of the checks of an instruction. -/
def verdicts (env : Env) (s : Weaving) (id : ValueId) : Verdict Unit × Verdict Tier :=
  match s.func.access? id with
  | some m => (s.boundsVerdict env m, s.keyVerdict env id m)
  | none => (.unwanted, .unwanted)

/-- The verdicts on instructions that are visited one after another. -/
def verdictsOn (env : Env) : List ValueId → Weaving → Decisions
  | [], _ => []
  | id :: rest, s => (id, s.verdicts env id) :: verdictsOn env rest ((checkInst env id).apply s).2

/-- All verdicts of the check pass. -/
def decisions (env : Env) (s : Weaving) : Decisions :=
  verdictsOn env ((s.func.checkOrder?.getD []).flatMap s.func.programInsts) { s with covered := [] }

/-- Insert the checks of an access that are needed. -/
def accessChecks (env : Env) (m : MemoryAccess) (bounds key : Bool) (md : PointerMetadata) :
    Edit Splice Unit := do
  if bounds then
    spatialCheck env m.kind m.ptr (Layout.size env.width m.ty) md
  if key then
    temporalCheck env m.kind md

/-- The accesses that an inserted key check covers. There is no answer if control may move to a
missing block, or if the derivation of a pointer does not end. -/
def marks? (env : Env) (g : Function) (check : ValueId) (source : Operand) :
    Option (List (ValueId × Tier)) :=
  let inBlock := if env.config.eliminateBlockTemporal then
    g.searchedInBlock env.config.opaqueCalls check else []
  let dominated? := if env.config.eliminateFunctionTemporal then
    g.searchedInDominated? env.dominators env.config.opaqueCalls check else some []
  dominated?.bind fun dominated =>
    if g.endless? (inBlock ++ dominated) = none then
      some ((inBlock.filter (g.accessesSource source)).map (·, .block) ++
        (dominated.filter (g.accessesSource source)).map (·, .function))
    else none

/-! ### One visit -/

open Edit

variable {env : Env} {s s' u : Weaving} {id : ValueId} {m : MemoryAccess} {md : PointerMetadata}
  {source callee : Operand} {v : Splice} {ids rest : List ValueId} {sig : Signature}
  {needed changed : Bool} {bytes : Nat} {b : BlockId}

theorem endless?_append_eq_none {ids' : List ValueId} :
    g.endless? (ids ++ ids') = none ↔ g.endless? ids = none ∧ g.endless? ids' = none := by
  simp [Function.endless?, List.findSome?_append]

theorem runs_coverFrom :
    (coverFrom env id source).Runs s ⟨⟩ s' ↔ ∃ marks, marks? env s.func id source = some marks ∧
      { s with covered := s.covered ++ marks } = s' := by
  have hnil : s.func.endless? [] = none := rfl
  rw [coverFrom, marks?]
  by_cases hblock : env.config.eliminateBlockTemporal <;>
    by_cases hfunction : env.config.eliminateFunctionTemporal
  all_goals
    simp [cover, hblock, hfunction, endless?_append_eq_none, hnil, Option.bind_eq_some_iff]
  all_goals grind

/-- Which marks a check makes. -/
theorem mem_marks {marks : List (ValueId × Tier)} {a : ValueId} {tier : Tier}
    (h : marks? env g check source = some marks) : (a, tier) ∈ marks ↔ g.accessesSource source a ∧
      (tier = .block ∧ env.config.eliminateBlockTemporal ∧
        a ∈ g.searchedInBlock env.config.opaqueCalls check ∨
      tier = .function ∧ env.config.eliminateFunctionTemporal ∧ ∃ insts,
        g.searchedInDominated? env.dominators env.config.opaqueCalls check = some insts ∧
          a ∈ insts) := by
  rw [marks?] at h
  simp only [Option.bind_eq_some_iff, Option.ite_none_right_eq_some, Option.some.injEq] at h
  obtain ⟨insts, hinsts, -, rfl⟩ := h
  simp only [List.mem_append, List.mem_map, List.mem_filter, Prod.mk.injEq]
  grind

theorem searched_of_marks {marks : List (ValueId × Tier)}
    (h : marks? env g check source = some marks) (hused : env.config.eliminateFunctionTemporal) :
    ∃ insts, g.searchedInDominated? env.dominators env.config.opaqueCalls check = some insts := by
  obtain ⟨insts, hinsts, -⟩ := Option.bind_eq_some_iff.mp h
  exact ⟨insts, by rwa [if_pos hused] at hinsts⟩

private theorem runs_isProven {proven : Bool} (h : (isProven env ptr bytes).Runs s proven s') :
    proven = (env.config.eliminateConstantIndexSpatial &&
      s.func.provenInBounds env.interface ptr bytes) ∧ s = s' := by
  rcases runs_ite.mp h with ⟨hused, h⟩ | ⟨hunused, h⟩
  · obtain ⟨_, _, hrefuse, h⟩ := runs_bind.mp (runs_get_bind.mp h)
    obtain ⟨-, rfl⟩ := runs_refuse.mp hrefuse
    obtain ⟨rfl, rfl⟩ := runs_pure.mp h
    exact ⟨by rw [hused, Bool.true_and], rfl⟩
  · obtain ⟨rfl, rfl⟩ := runs_pure.mp h
    exact ⟨by simp [hunused], rfl⟩

theorem runs_needsSpatial (hnull : m.ptr.isNull = false)
    (h : (needsSpatial env m.kind m.ptr (Layout.size env.width m.ty)).Runs s needed s') :
    needed = (s.boundsVerdict env m).isInserted ∧
      { s with report :=
        if needed then s.report else s.report.noteBounds (s.boundsVerdict env m) } = s' := by
  rw [boundsVerdict, hnull]
  rcases runs_ite.mp h with ⟨hwanted, h⟩ | ⟨hunwanted, h⟩
  · obtain ⟨proven, _, hproven, h⟩ := runs_bind.mp h
    obtain ⟨hverdict, rfl⟩ := runs_isProven hproven
    rw [← hverdict, hwanted]
    rcases runs_ite.mp h with ⟨rfl, h⟩ | ⟨hnot, h⟩
    · obtain ⟨_, _, hcount, h⟩ := runs_bind.mp h
      obtain ⟨rfl, rfl⟩ := runs_pure.mp h
      exact ⟨rfl, runs_count.mp hcount⟩
    · obtain ⟨rfl, rfl⟩ := runs_pure.mp h
      obtain rfl := Bool.eq_false_iff.mpr hnot
      exact ⟨rfl, rfl⟩
  · obtain ⟨rfl, rfl⟩ := runs_pure.mp h
    simp [hunwanted, Verdict.isInserted, FunctionReport.noteBounds]

theorem runs_needsTemporal (hnull : m.ptr.isNull = false)
    (hsource : s.func.source? m.ptr = some source) :
    (needsTemporal env m.kind id source).Runs s needed s' ↔
      needed = (s.keyVerdict env id m).isInserted ∧
        { s with report :=
          if needed then s.report else s.report.noteKey (s.keyVerdict env id m) } = s' := by
  rw [needsTemporal, keyVerdict, hnull, hsource, Option.bind_some]
  cases m.kind.wantsTemporal env.config with
  | false => cases needed <;> simp [FunctionReport.noteKey, Verdict.isInserted]
  | true =>
    simp only [if_true, runs_get_bind]
    cases s.elision? env.config id source <;> cases needed <;>
      simp [FunctionReport.noteKey, Verdict.isInserted, runs_count]

@[simp] theorem keyVerdict_report {report : FunctionReport} :
    ({ s with report := report } : Weaving).keyVerdict env id m = s.keyVerdict env id m := rfl

/-- What a visit to a load or a store does. Without anything to insert, at most counters change.
Else the metadata of the pointer is resolved, the checks are spliced in, and the accesses that a key
check covers are marked. -/
inductive Checked (env : Env) (id : ValueId) (m : MemoryAccess) (s : Weaving) : Weaving → Prop
  | nothing : (s.boundsVerdict env m).isInserted = false →
      (s.keyVerdict env id m).isInserted = false →
      Checked env id m s { s with report :=
        (s.report.noteBounds (s.boundsVerdict env m)).noteKey (s.keyVerdict env id m) }
  | inserted {source report report' md u b i v marks} :
      (s.boundsVerdict env m).isInserted ∨ (s.keyVerdict env id m).isInserted →
      m.ptr.isNull = false → s.func.source? m.ptr = some source →
      (resolve env m.ptr).Runs { s with report := report } md u →
      u.func.locate? (.before id) = some (b, i) →
      (accessChecks env m (s.boundsVerdict env m).isInserted (s.keyVerdict env id m).isInserted
        md).Runs ⟨u.func, b, i⟩ ⟨⟩ v →
      (if (s.keyVerdict env id m).isInserted then marks? env v.func id source = some marks
        else marks = []) →
      (u.report = report → report' =
        (s.report.noteBounds (s.boundsVerdict env m)).noteKey (s.keyVerdict env id m)) →
      Checked env id m s { u with
        func := v.func
        report := report'
        covered := u.covered ++ marks }

/-- Inserting the checks that are needed, counting them, and marking what a key check covers. -/
def insertion (env : Env) (id : ValueId) (m : MemoryAccess) (bounds key : Bool)
    (source : Operand) : Edit Weaving Unit := do
  let md ← resolve env m.ptr
  splice (.before id) (accessChecks env m bounds key md)
  if bounds then
    count (·.noteBounds .inserted)
  if key then
    count (·.noteKey .inserted)
    coverFrom env id source

private theorem runs_insertion (h : (insertion env id m bounds key source).Runs s ⟨⟩ s') :
    ∃ md u b i v marks, (resolve env m.ptr).Runs s md u ∧
      u.func.locate? (.before id) = some (b, i) ∧
      (accessChecks env m bounds key md).Runs ⟨u.func, b, i⟩ ⟨⟩ v ∧
      (if key then marks? env v.func id source = some marks else marks = []) ∧
      s' = { u with
        func := v.func
        report := (u.report.noteBounds (if bounds then .inserted else .unwanted)).noteKey
          (if key then .inserted else .unwanted)
        covered := u.covered ++ marks } := by
  -- which of the two checks are inserted decides what is run
  cases bounds <;> cases key <;>
    simp only [insertion, if_true, Bool.false_eq_true, if_false, runs_bind, runs_splice, runs_count,
      runs_coverFrom] at h
  · obtain ⟨md, u, hresolve, _, _, ⟨b, i, v, hlocate, hchecks, rfl⟩, -, rfl⟩ := h
    exact ⟨md, u, b, i, v, [], hresolve, hlocate, hchecks, rfl,
      by simp [FunctionReport.noteBounds, FunctionReport.noteKey]⟩
  · obtain ⟨md, u, hresolve, _, _, ⟨b, i, v, hlocate, hchecks, rfl⟩, _, _, rfl, marks, hmarks,
      rfl⟩ := h
    exact ⟨md, u, b, i, v, marks, hresolve, hlocate, hchecks, hmarks, rfl⟩
  · obtain ⟨md, u, hresolve, _, _, ⟨b, i, v, hlocate, hchecks, rfl⟩, _, _, rfl, -, rfl⟩ := h
    exact ⟨md, u, b, i, v, [], hresolve, hlocate, hchecks, rfl, by simp [FunctionReport.noteKey]⟩
  · grind

private theorem checkAccess_cases (h : (checkAccess env m.kind id m.ptr m.ty).Runs s ⟨⟩ s') :
    Checked env id m s s' := by
  by_cases hskip : m.ptr.isNull ||
      !(m.kind.wantsSpatial env.config || m.kind.wantsTemporal env.config)
  · simp only [checkAccess, hskip] at h
    obtain ⟨-, rfl⟩ := h
    have hbounds : s.boundsVerdict env m = .unwanted := by
      rw [boundsVerdict, if_pos (by simp_all; tauto)]
    have hkey : s.keyVerdict env id m = .unwanted := by
      rw [keyVerdict, if_pos (by simp_all; tauto)]
    have C : Checked env id m s _ := .nothing (by rw [hbounds]; rfl) (by rw [hkey]; rfl)
    rwa [hbounds, hkey] at C
  · simp only [checkAccess, hskip, Bool.false_eq_true, if_false, runs_bind,
      runs_ofOption] at h
    obtain ⟨bytes, _, ⟨hbytes, rfl⟩, bounds, t, hbounds, _, _, ⟨rfl, rfl⟩, source, _,
      ⟨hsource, rfl⟩, key, t', hkey, h⟩ := h
    obtain ⟨-, rfl⟩ := Layout.wordSize?_eq_some_iff.mp hbytes
    have hnull : m.ptr.isNull = false := by simp_all
    obtain ⟨hverdict, rfl⟩ := runs_needsSpatial hnull hbounds
    obtain ⟨hverdict', rfl⟩ := (runs_needsTemporal hnull hsource).mp hkey
    simp only [keyVerdict_report] at hverdict' h
    rcases runs_ite.mp h with ⟨hneeded, h⟩ | ⟨hneeded, h⟩
    · obtain ⟨md, u, b, i, v, marks, hresolve, hlocate, hchecks, hmarks, rfl⟩ := runs_insertion h
      subst hverdict hverdict'
      refine .inserted (by simpa using hneeded) hnull hsource hresolve hlocate hchecks
        hmarks fun hreport => ?_
      rw [hreport]
      -- what was not counted before the insertion is counted after it
      rcases s.boundsVerdict env m with _ | _ | _ <;>
        rcases s.keyVerdict env id m with _ | (_ | _ | _) | _ <;> rfl
    · obtain ⟨-, rfl⟩ := runs_pure.mp h
      obtain ⟨rfl, rfl⟩ : bounds = false ∧ key = false := by simpa using hneeded
      exact .nothing hverdict.symm hverdict'.symm

theorem checkInst_cases (h : (checkInst env id).Runs s ⟨⟩ s') :
    (∃ m, s.func.access? id = some m ∧ Checked env id m s s') ∨
      s.func.access? id = none ∧ ((∃ callee args sig,
        s.func.kind? id = some (.call callee args sig) ∧
        (checkCallTarget env id callee >>= fun _ => copyMetadata env id callee args).Runs s ⟨⟩ s') ∨
        s = s') := by
  rw [checkInst, runs_get_bind] at h
  dsimp only at h
  rw [Function.access?]
  split at h
  · grind [checkAccess_cases]
  · -- the type that a store accesses is looked up, and `access?` does the same
    rename_i value ptr hkind
    simp only [runs_bind, runs_operandType] at h
    obtain ⟨ty, _, ⟨htype, rfl⟩, h⟩ := h
    rw [hkind]
    refine .inl ⟨⟨.store, ptr, ty⟩, ?_, checkAccess_cases h⟩
    simp [htype, Except.toOption]
  · grind
  · -- what is neither of the three is no access either
    rename_i hload hstore hcall
    obtain ⟨-, rfl⟩ := runs_pure.mp h
    refine .inr ⟨?_, .inr rfl⟩
    split
    · exact absurd ‹_› (hload _)
    · exact absurd ‹_› (hstore _ _)
    · rfl

/-! ### Visits consist of steps -/

/-- Calls are visited without touching what is known of loads and stores. -/
structure Aside (s s' : Weaving) : Prop where
  store : s'.store = s.store
  covered : s'.covered = s.covered
  tally : s'.report.tally = s.report.tally

theorem Aside.trans (h : Aside s u) (h' : Aside u s') : Aside s s' :=
  ⟨h'.store.trans h.store, h'.covered.trans h.covered, h'.tally.trans h.tally⟩

theorem Steady.aside (h : Steady s s') : Aside s s' :=
  ⟨h.store, congrArg (fun q => q.2.2) h.queues, by rw [h.report]⟩

section

variable (W : s.Woven env p f) (hid : id.index < f.values.size)

include W hid

theorem checkCallTarget_steps (hlock : p .globalLock) (hcheck : p .spatialCallCheck)
    (hkind : s.func.kind? id = some (.call callee args sig))
    (h : (checkCallTarget env id callee).Runs s ⟨⟩ s') : Steps env p f Never s s' ∧ Aside s s' := by
  rcases runs_ite.mp h with ⟨-, h⟩ | ⟨-, h⟩
  · simp only [runs_bind, runs_splice, runs_count] at h
    obtain ⟨md, t, hresolve, _, _, ⟨b, i, v, hlocate, ⟨target, _, htarget, _, _, hcall, -, rfl⟩,
      rfl⟩, rfl⟩ := h
    obtain ⟨S, hresolved, hsteady⟩ := resolve_steps W hlock hresolve
    have hkind := (S.kept W).nonphi hkind rfl
    have hcallee : callee ∈ (InstKind.call callee args sig).operands := by simp [InstKind.operands]
    -- the check stands right in front of the call, where the callee can be used
    have anchored : InsertPoint.Anchored f t.func (.before id) := ⟨hid, _, hkind, rfl⟩
    have start : env.Adds p (t.Given env (.before id)) ⟨t.func, b, i⟩ ⟨t.func, b, i⟩ := .refl
    obtain ⟨A, E, -, huse⟩ := start.toVoidPtr htarget (.inl (.of_operand hkind hcallee))
    have hcomponent : ∀ c, Splice.Usable (t.Given env (.before id)) ⟨t.func, b, i⟩ ⟨t.func, b, i⟩
        (md.component env.width c) := fun c =>
      (serves_component hkind hcallee hresolved c).imp_right .inl
    obtain ⟨B, -⟩ := A.call hcall hcheck (by
      simpa using ⟨(hcomponent .base).mono E, (hcomponent .bound).mono E, huse⟩)
    refine ⟨(S.tail (.splice anchored hlocate B)).tail (.other rfl rfl rfl rfl (.inr rfl)),
      hsteady.aside.trans ⟨rfl, rfl, rfl⟩⟩
  · obtain ⟨-, rfl⟩ := runs_pure.mp h
    exact ⟨.refl, rfl, rfl, rfl⟩

omit W in
private theorem copyMetadata_steps (hp : p .copyMetadata)
    (hkind : s.func.kind? id = some (.call callee args sig))
    (h : (copyMetadata env id callee args).Runs s ⟨⟩ s') :
    Steps env p f Never s s' ∧ Aside s s' := by
  have unchanged : Steps env p f Never s s ∧ Aside s s := ⟨.refl, rfl, rfl, rfl⟩
  rcases runs_ite.mp h with ⟨-, h⟩ | ⟨-, h⟩
  · split at h
    · rename_i target source size rest _
      simp only [runs_bind, runs_operandType] at h
      obtain ⟨ty, _, ⟨-, rfl⟩, h⟩ := h
      rcases runs_ite.mp h with ⟨-, h⟩ | ⟨-, h⟩
      · simp only [runs_bind, runs_operandType] at h
        obtain ⟨ty', _, ⟨-, rfl⟩, h⟩ := h
        rcases runs_ite.mp h with ⟨-, h⟩ | ⟨-, h⟩
        · simp only [runs_bind, runs_splice, runs_count] at h
          obtain ⟨_, _, ⟨b, i, v, hlocate, ⟨into, _, hinto, out, _, hout, _, _, hcall, -, rfl⟩,
            rfl⟩, rfl⟩ := h
          have anchored : InsertPoint.Anchored f s.func (.after id) := ⟨hid, _, hkind, rfl, rfl⟩
          -- all that is passed on is used by the call itself
          have hgiven : ∀ operand ∈ [target, source, size], s.Given env (.after id) operand := by
            intro operand hoperand
            refine .inl (.of_operand hkind ?_)
            simp only [List.mem_cons] at hoperand
            simp only [InstKind.operands, List.mem_cons]
            tauto
          have start : env.Adds p (s.Given env (.after id)) ⟨s.func, b, i⟩ ⟨s.func, b, i⟩ := .refl
          obtain ⟨A, E, -, huse⟩ := start.toVoidPtr hinto (.inl (hgiven _ (by simp)))
          obtain ⟨B, E', -, huse'⟩ := A.toVoidPtr hout (.inl (hgiven _ (by simp)))
          obtain ⟨C, -⟩ := B.call hcall hp (by
            simpa using ⟨huse.mono E', huse', .inl (hgiven size (by simp))⟩)
          have S : Steps env p f Never s _ := .single (.splice anchored hlocate C)
          exact ⟨S.tail (.other rfl rfl rfl rfl (.inr rfl)), rfl, rfl, rfl⟩
        · obtain ⟨-, rfl⟩ := runs_pure.mp h
          exact unchanged
      · obtain ⟨-, rfl⟩ := runs_pure.mp h
        exact unchanged
    · obtain ⟨-, rfl⟩ := runs_pure.mp h
      exact unchanged
  · obtain ⟨-, rfl⟩ := runs_pure.mp h
    exact unchanged

/-- A visit to what is no access checks and copies for calls only. -/
theorem checkInst_aside (hlock : p .globalLock) (hcheck : p .spatialCallCheck)
    (hcopies : p .copyMetadata) (hnone : s.func.access? id = none)
    (h : (checkInst env id).Runs s ⟨⟩ s') : Steps env p f Never s s' ∧ Aside s s' := by
  rcases checkInst_cases h with ⟨m, hm, -⟩ | ⟨-, ⟨callee, args, sig, hkind, h⟩ | rfl⟩
  · cases hnone.symm.trans hm
  · obtain ⟨_, t, htarget, hcopy⟩ := runs_bind.mp h
    obtain ⟨S, haside⟩ := checkCallTarget_steps W hid hlock hcheck hkind htarget
    obtain ⟨S', haside'⟩ := copyMetadata_steps hid hcopies ((S.kept W).nonphi hkind rfl) hcopy
    exact ⟨S.trans S', haside.trans haside'⟩
  · exact ⟨.refl, rfl, rfl, rfl⟩

end

section

variable {given : Operand → Prop} {u v : Splice} {md : PointerMetadata}
  (hp : ∀ r : Routine, r.onFrames = false → p r)
  (hmd : ∀ c, given (md.component env.width c) ∨ (md.component env.width c).value? = none)

include hp hmd

theorem spatialCheck_adds (hptr : given ptr) (A : env.Adds p given w u)
    (h : (spatialCheck env access ptr bytes md).Runs u ⟨⟩ v) : env.Adds p given w v := by
  simp only [spatialCheck, runs_bind] at h
  obtain ⟨raw, _, hraw, h⟩ := h
  obtain ⟨B, -, -, huse⟩ := A.toVoidPtr hraw (.inl hptr)
  split at h
  · simp only [runs_bind] at h
    obtain ⟨_, _, hcall, -, rfl⟩ := h
    refine (B.call hcall (hp _ (by cases access <;> rfl)) ?_).1
    simpa using ⟨(hmd .base).imp_right .inl, (hmd .bound).imp_right .inl, huse, .inr (.inl rfl)⟩
  · simp at h

private theorem temporalCheck_adds (A : env.Adds p given w u)
    (h : (temporalCheck env access md).Runs u ⟨⟩ v) : env.Adds p given w v := by
  simp only [temporalCheck, runs_bind] at h
  obtain ⟨_, _, hcall, -, rfl⟩ := h
  refine (A.call hcall (hp _ (by cases access <;> rfl)) ?_).1
  simpa using ⟨(hmd .lock).imp_right .inl, (hmd .key).imp_right .inl, (hmd .base).imp_right .inl,
    (hmd .bound).imp_right .inl⟩

theorem accessChecks_adds (hptr : given m.ptr)
    (h : (accessChecks env m bounds key md).Runs w ⟨⟩ v) : env.Adds p given w v := by
  cases bounds <;> cases key <;>
    simp only [accessChecks, if_true, Bool.false_eq_true, if_false, runs_bind, runs_pure] at h
  · exact h.2 ▸ .refl
  · exact temporalCheck_adds hp hmd .refl h
  · obtain ⟨_, _, hspatial, -, rfl⟩ := h
    exact spatialCheck_adds hp hmd hptr .refl hspatial
  · obtain ⟨_, _, hspatial, htemporal⟩ := h
    exact temporalCheck_adds hp hmd (spatialCheck_adds hp hmd hptr .refl hspatial) htemporal

end

/-- The calls that check an access: one for its bounds, one for its key. -/
def checkKinds (env : Env) (m : MemoryAccess) (md : PointerMetadata) (raw : Operand) (size : Int)
    (bounds key : Bool) : List InstKind :=
  (if bounds then
    [env.callOf m.kind.spatialRoutine
      [md.baseOrNull, md.boundOrNull, raw, .const (.int env.width.bits size)]] else []) ++
  if key then
    [env.callOf m.kind.temporalRoutine
      [md.lockOrNull, md.keyOrZero env.width, md.baseOrNull, md.boundOrNull]] else []

private theorem spatialCheck_inserts (h : (spatialCheck env access ptr bytes md).Runs w ⟨⟩ v) :
    ∃ ids casts raw size, w.Inserts ids (casts ++ [env.callOf access.spatialRoutine
        [md.baseOrNull, md.boundOrNull, raw, .const (.int env.width.bits size)]]) v ∧
      (∀ kind ∈ casts, kind = .cast .bitcast ptr) ∧ signedWord? bytes = some size ∧
      v.func.AsVoidPtr (Splice.Fresh w) ptr raw := by
  simp only [spatialCheck, runs_bind] at h
  obtain ⟨raw, u, hraw, h⟩ := h
  -- the pointer is cast at most once, by the first instruction
  obtain ⟨ids, casts, I, hcasts⟩ :
      ∃ ids casts, w.Inserts ids casts u ∧ ∀ kind ∈ casts, kind = .cast .bitcast ptr := by
    obtain ⟨ty, -, -, ⟨rfl, -⟩ | ⟨x, -, hinsert⟩⟩ := Splice.toVoidPtr_cases hraw
    · exact ⟨[], [], .refl, by simp⟩
    · exact ⟨[_], [_], Splice.inserts_insert hinsert, by simp⟩
  have start : env.Adds Any Any w w := .refl
  obtain ⟨A, -, hvoid, -⟩ := start.toVoidPtr hraw (.inl trivial)
  split at h
  · rename_i size hsize
    simp only [runs_bind] at h
    obtain ⟨_, _, hcall, -, rfl⟩ := h
    obtain ⟨-, E, -⟩ := A.call hcall trivial fun _ _ => .inl trivial
    exact ⟨_, casts, raw, size, I.trans (Splice.inserts_insert hcall), hcasts, hsize,
      E.asVoidPtr hvoid⟩
  · simp at h

theorem accessChecks_inserts (h : (accessChecks env m bounds key md).Runs w ⟨⟩ v) :
    ∃ ids casts raw size, w.Inserts ids (casts ++ checkKinds env m md raw size bounds key) v ∧
      (∀ kind ∈ casts, kind = .cast .bitcast m.ptr) ∧
      (bounds → signedWord? (Layout.size env.width m.ty) = some size ∧
        v.func.AsVoidPtr (Splice.Fresh w) m.ptr raw) := by
  cases bounds <;> cases key <;>
    simp only [accessChecks, if_true, Bool.false_eq_true, if_false, runs_bind] at h
  · obtain ⟨-, rfl⟩ := h
    exact ⟨[], [], m.ptr, 0, .refl, by simp, by simp⟩
  · simp only [temporalCheck, runs_bind] at h
    obtain ⟨_, _, hcall, -, rfl⟩ := h
    exact ⟨_, [], m.ptr, 0, Splice.inserts_insert hcall, by simp, by simp⟩
  · obtain ⟨_, _, hspatial, -, rfl⟩ := h
    obtain ⟨ids, casts, raw, size, I, hcasts, hraw⟩ := spatialCheck_inserts hspatial
    exact ⟨ids, casts, raw, size, I, hcasts, fun _ => hraw⟩
  · obtain ⟨_, u, hspatial, htemporal⟩ := h
    obtain ⟨ids, casts, raw, size, I, hcasts, hsize, hraw⟩ := spatialCheck_inserts hspatial
    simp only [temporalCheck, runs_bind] at htemporal
    obtain ⟨_, _, hcall, -, rfl⟩ := htemporal
    -- the key check comes behind the bounds check, whose operands stay what they are
    have start : env.Adds Any Any u u := .refl
    obtain ⟨-, E, -⟩ := start.call hcall trivial fun _ _ => .inl trivial
    have I' := I.trans (Splice.inserts_insert hcall)
    rw [List.append_assoc] at I'
    exact ⟨_, casts, raw, size, I', hcasts, fun _ => ⟨hsize, E.asVoidPtr hraw⟩⟩

section

variable (W : s.Woven env p f) (hp : ∀ r : Routine, r.onFrames = false → p r)
  (hid : id.index < f.values.size)

include W hp hid

/-- Resolving the pointer and splicing the checks in, as steps and insertions. -/
theorem insertion_adds {report : FunctionReport} {i : Nat} (hm : s.func.access? id = some m)
    (hresolve : (resolve env m.ptr).Runs { s with report := report } md u)
    (hchecks : (accessChecks env m bounds key md).Runs ⟨u.func, b, i⟩ ⟨⟩ v) :
    Steps env p f Never s u ∧ Steady { s with report := report } u ∧
      u.resolved? env m.ptr = some md ∧ InsertPoint.Anchored f u.func (.before id) ∧
      env.Adds p (u.Given env (.before id)) ⟨u.func, b, i⟩ v := by
  have step : Step env p f Never s { s with report := report } :=
    .other rfl rfl rfl rfl (.inl ⟨.spatialLoadCheck, rfl, hp _ rfl⟩)
  obtain ⟨S, hresolved, hsteady⟩ := resolve_steps (step.woven W) (hp _ rfl) hresolve
  obtain ⟨kind, hkind, hphi, -, hptr⟩ := Function.mem_operands_of_access? hm
  have hkind := (S.kept (step.woven W)).kind? hkind (by simp)
  exact ⟨Relation.ReflTransGen.head step S, hsteady, hresolved, ⟨hid, kind, hkind, hphi⟩,
    accessChecks_adds hp (serves_component hkind hptr hresolved) (.of_operand hkind hptr) hchecks⟩

theorem Checked.steps (hm : s.func.access? id = some m) (C : Checked env id m s s') :
    Steps env p f Never s s' ∧ s'.store = s.store := by
  cases C with
  | nothing =>
    exact ⟨.single (.other rfl rfl rfl rfl (.inl ⟨.spatialLoadCheck, rfl, hp _ rfl⟩)), rfl⟩
  | @inserted source report report' md u b i v marks hsome hnull hsource hresolve hlocate hchecks =>
    obtain ⟨S, hsteady, -, anchored, A⟩ := insertion_adds W hp hid hm hresolve hchecks
    have S : Steps env p f Never s _ := S.tail (.splice anchored hlocate A)
    exact ⟨S.tail (.other rfl rfl rfl rfl (.inl ⟨.spatialLoadCheck, rfl, hp _ rfl⟩)), hsteady.store⟩

theorem checkInst_steps (h : (checkInst env id).Runs s ⟨⟩ s') :
    Steps env p f Never s s' ∧ s'.store = s.store := by
  rcases checkInst_cases h with ⟨m, hm, C⟩ | ⟨hnone, -⟩
  · exact C.steps W hp hid hm
  · exact (checkInst_aside W hid (hp _ rfl) (hp _ rfl) (hp _ rfl) hnone h).imp_right Aside.store

end

/-! ### The whole pass -/

/-- A loop over blocks is a loop over their instructions, if these stay the same. -/
theorem visits_of_forProgramInsts {blocks : List BlockId} {visit : ValueId → Edit Weaving Unit}
    (T : f.Tidy) (hgrows : f.Grows env.routines p s.func)
    (hvisit : ∀ {b id t t'}, id ∈ f.programInsts b → f.Grows env.routines p t.func →
      (visit id).Runs t ⟨⟩ t' → f.Grows env.routines p t'.func)
    (h : (forProgramInsts blocks visit).Runs s ⟨⟩ s') :
    ((blocks.flatMap f.programInsts).forM visit).Runs s ⟨⟩ s' := by
  induction blocks generalizing s with
  | nil => exact h
  | cons b blocks ih =>
    obtain ⟨t, hblock, hrest⟩ := runs_forM_cons.mp h
    rw [runs_get_bind, hgrows.programInsts_eq T b] at hblock
    rw [List.flatMap_cons, runs_forM_append]
    refine ⟨t, hblock, ih ?_ hrest⟩
    have loop := hblock.forM_induction
      (fun rest t => f.Grows env.routines p t.func ∧ ∀ id ∈ rest, id ∈ f.programInsts b)
      ⟨hgrows, fun _ h => h⟩ ?_
    · exact loop.1
    · grind

theorem index_lt_of_mem_programInsts (T : f.Tidy) (h : id ∈ f.programInsts b) :
    id.index < f.values.size := by
  exact T.index_lt (List.mem_of_mem_filter h)

/-- The pass forgets old marks and then visits the instructions of the program in order. -/
theorem visits_of_insertChecks (W : s.Woven env p f) (hp : ∀ r : Routine, r.onFrames = false → p r)
    (h : (insertChecks env).Runs s changed s') :
    ∃ order, s.func.checkOrder? = some order ∧
      ((order.flatMap f.programInsts).forM (checkInst env)).Runs
        { s with covered := [] } ⟨⟩ s' := by
  simp only [insertChecks, runs_bind, runs_modify, runs_ofOption] at h
  obtain ⟨_, _, rfl, _, _, ⟨rfl, rfl⟩, _, _, ⟨rfl, rfl⟩, order, _, ⟨horder, rfl⟩, _, _, h, _, _,
    ⟨rfl, rfl⟩, -, rfl⟩ := h
  refine ⟨order, horder, visits_of_forProgramInsts W.tidy W.grows (fun hid hgrows hbody => ?_) h⟩
  have Wt : Woven env p f _ := ⟨W.tidy, hgrows⟩
  obtain ⟨S, -⟩ := checkInst_steps Wt hp (index_lt_of_mem_programInsts W.tidy hid) hbody
  exact (S.woven Wt).grows

theorem verdictsOn_cons (h : (checkInst env id).Runs s ⟨⟩ s') :
    verdictsOn env (id :: rest) s = (id, s.verdicts env id) :: verdictsOn env rest s' := by
  rw [verdictsOn, h]

theorem visit_of_mem_verdictsOn {v : Verdict Unit × Verdict Tier}
    (h : (ids.forM (checkInst env)).Runs s ⟨⟩ s') (hv : (id, v) ∈ verdictsOn env ids s) :
    ∃ front rest t t', ids = front ++ id :: rest ∧ (front.forM (checkInst env)).Runs s ⟨⟩ t ∧
      (checkInst env id).Runs t ⟨⟩ t' ∧ (rest.forM (checkInst env)).Runs t' ⟨⟩ s' ∧
      t.verdicts env id = v ∧
      verdictsOn env ids s = verdictsOn env front s ++ (id, v) :: verdictsOn env rest t' := by
  induction ids generalizing s with
  | nil => cases hv
  | cons first ids ih =>
    obtain ⟨u, hvisit, hids⟩ := runs_forM_cons.mp h
    rw [verdictsOn_cons hvisit] at hv
    rcases List.mem_cons.mp hv with heq | hv
    · cases heq
      exact ⟨[], ids, s, u, rfl, runs_forM_nil.mpr rfl, hvisit, hids, rfl, verdictsOn_cons hvisit⟩
    · obtain ⟨front, rest, t, t', rfl, hfront, hid, hrest, hverdicts, hall⟩ := ih hids hv
      refine ⟨first :: front, rest, t, t', rfl, runs_forM_cons.mpr ⟨u, hvisit, hfront⟩, hid, hrest,
        hverdicts, ?_⟩
      rw [verdictsOn_cons hvisit, verdictsOn_cons hvisit, hall, List.cons_append]

/-- Visits to instructions of the function consist of steps, and record nothing. -/
theorem visits_steps (W : s.Woven env p f) (hp : ∀ r : Routine, r.onFrames = false → p r)
    (hids : ∀ id ∈ ids, id.index < f.values.size) (h : (ids.forM (checkInst env)).Runs s ⟨⟩ s') :
    Steps env p f Never s s' ∧ s'.store = s.store := by
  induction ids generalizing s with
  | nil =>
    obtain rfl := runs_forM_nil.mp h
    exact ⟨.refl, rfl⟩
  | cons first ids ih =>
    obtain ⟨u, hvisit, hids'⟩ := runs_forM_cons.mp h
    obtain ⟨S, hstore⟩ := checkInst_steps W hp (hids first (.head _)) hvisit
    obtain ⟨S', hstore'⟩ :=
      ih (S.woven W) (fun id hid => hids id (.tail _ hid)) hids'
    exact ⟨S.trans S', hstore'.trans hstore⟩

/-- What each visit preserves, a run of visits preserves. It may speak of what was decided so
far. -/
theorem visits_induction {I : Decisions → Weaving → Prop} (W : s.Woven env p f)
    (hp : ∀ r : Routine, r.onFrames = false → p r) (hids : ∀ c ∈ ids, ∃ o, c ∈ f.programInsts o)
    (h : (ids.forM (checkInst env)).Runs s ⟨⟩ s') (start : I [] s)
    (step : ∀ {c o past t t'}, c ∈ ids → c ∈ f.programInsts o → t.Woven env p f →
      t.store = s.store → (checkInst env c).Runs t ⟨⟩ t' → I past t →
      I (past ++ [(c, t.verdicts env c)]) t') : I (verdictsOn env ids s) s' := by
  suffices loop : ∀ past, I past s → I (past ++ verdictsOn env ids s) s' from loop [] start
  clear start
  induction ids generalizing s with
  | nil =>
    obtain rfl := runs_forM_nil.mp h
    simp [verdictsOn]
  | cons c rest ih =>
    intro past start
    obtain ⟨u, hvisit, hrest⟩ := runs_forM_cons.mp h
    obtain ⟨o, hc⟩ := hids c (.head _)
    obtain ⟨S, hstore⟩ := checkInst_steps W hp (index_lt_of_mem_programInsts W.tidy hc) hvisit
    have hrest := ih (S.woven W) (fun c hc => hids c (.tail _ hc)) hrest
      (fun hc ho Wt hsame => step (.tail _ hc) ho Wt (hsame.trans hstore)) _
      (step (.head _) hc W rfl hvisit start)
    rwa [List.append_assoc, List.singleton_append, ← verdictsOn_cons hvisit] at hrest

end Weaving

end PointerGuard
