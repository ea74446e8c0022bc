import PointerGuard.Proofs.Grounding
import PointerGuard.Proofs.Mediation

/-!
# Which key checks are inserted

An access is marked if and only if a key check that was inserted before covers it. What it would
cover itself is covered by that check as well. So the key checks that are inserted can be described
from the order of the visits alone. Marks on pointers that are not grounded are left out of account:
such pointers get no checks.
-/

namespace PointerGuard

open PointerGuard.Function

variable {f g : Function} {o b : BlockId} {c a : ValueId} {tier : Tier} {front rest : List ValueId}
  {p : Routine → Prop} {m : MemoryAccess} {source : Operand}

/-! ### Coverage is transitive -/

namespace Function

variable {opaqueCalls : Bool} {d : BlockId} {z : ValueId} {tier' : Tier}

/-- A way from `o` to a block that `b` strictly dominates comes through `b`, if `o` strictly
dominates `b`. -/
theorem StrictlyDominates.mem_of_walk (hob : f.StrictlyDominates o b)
    (hbd : f.StrictlyDominates b d) {after : List Nat} {q : Nat}
    (walk : f.flowGraph.Walk o.index (o.index :: after) q)
    (edge : d.index ∈ f.flowGraph.succ q) : b.index ∈ after := by
  obtain ⟨hob', -, hb, hdomo⟩ := hob
  obtain ⟨hbd', -, -, hdomb⟩ := hbd
  have hne : o.index ≠ b.index := fun h => hob' (BlockId.ext h)
  -- the first part of the walk is chosen to avoid `b`
  obtain ⟨nodes, hnodes, havoid⟩ := hdomo.exists_walk_avoiding hne hb
  have hmem := hdomb _ ((hnodes.append walk).step edge)
  have hend : b.index ≠ d.index := fun h => hbd' (BlockId.ext h)
  simpa [havoid, hend] using hmem

/-- If no call that matters lies on the ways from a check to a block, nor before an access there,
nor on the ways from the access to a further block, then none lies on the ways from the check to the
further block. -/
theorem ClearTo.trans (T : f.Tidy) (hob : f.StrictlyDominates o b) (hbd : f.StrictlyDominates b d)
    (hclear : f.ClearTo opaqueCalls o c b) (hsplit : f.programInsts b = front ++ a :: rest)
    (hfront : ∀ x ∈ front, f.mayFree opaqueCalls x = false) (ha : f.mayFree opaqueCalls a = false)
    (hclear' : f.ClearTo opaqueCalls b a d) : f.ClearTo opaqueCalls o c d := by
  intro after q walk edge hnot
  have hb := hob.mem_of_walk hbd walk edge
  obtain ⟨before, rest', hcut, hlast, hleft, hright⟩ := walk.split_last (.tail _ hb)
  -- the walk goes from `o` to `b`, and from there on without coming back to it
  have hne : o.index ≠ b.index := fun h => hob.1 (BlockId.ext h)
  obtain ⟨before, rfl⟩ : ∃ before', before = o.index :: before' := by
    cases before with
    | nil => exact absurd (List.cons.inj hcut).1 hne
    | cons first before' => exact ⟨before', by rw [(List.cons.inj hcut).1]⟩
  obtain rfl : after = before ++ b.index :: rest' := by simpa using hcut
  obtain ⟨_, q', hsame, hwalk, hedge⟩ := hleft.cons_cases hne
  obtain rfl := List.append_cancel_right hsame
  obtain ⟨horigin, hbefore⟩ := hclear before q' hwalk hedge fun h => hnot (by simp [h])
  obtain ⟨hrest, hafter⟩ := hclear' rest' q hright edge hlast
  rw [programInstsAfter_eq T hsplit] at hrest
  refine ⟨horigin, fun n hn x hx => ?_⟩
  rcases List.mem_append.mp hn with hn | hn
  · exact hbefore n hn x hx
  rcases List.mem_cons.mp hn with rfl | hn
  · -- `b` itself: before the access, the access, and after it
    have hx : x ∈ front ++ a :: rest := hsplit ▸ hx
    rcases List.mem_append.mp hx with hx | hx
    · exact hfront x hx
    rcases List.mem_cons.mp hx with rfl | hx
    · exact ha
    · exact hrest x hx
  · exact hafter n hn x hx

/-- What a covered access would cover is covered, by one of the two kinds of coverage involved. -/
theorem Covers.trans (T : f.Tidy) (ha : a ∈ f.programInsts b)
    (hcall : f.mayFree opaqueCalls a = false) (h : f.Covers opaqueCalls o c a tier)
    (h' : f.Covers opaqueCalls b a z tier') :
    f.Covers opaqueCalls o c z tier ∨ f.Covers opaqueCalls o c z tier' := by
  have hblock : ∀ {d}, a ∈ f.programInsts d → b = d := fun h =>
    T.block_eq (List.mem_of_mem_filter ha) (List.mem_of_mem_filter h)
  -- what is executed in between is cut at `a`, which is no call
  have hjoin : ∀ {l l' : List ValueId}, (∀ x ∈ l, f.mayFree opaqueCalls x = false) →
      (∀ x ∈ l', f.mayFree opaqueCalls x = false) →
      ∀ x ∈ l ++ a :: l', f.mayFree opaqueCalls x = false := by grind
  cases h with
  | @block front mid rest hsplit hmid =>
    obtain rfl := hblock (by rw [hsplit]; simp)
    have hsplit' : f.programInsts b = (front ++ c :: mid) ++ a :: rest := by simp [hsplit]
    cases h' with
    | @block front' mid' rest' hsplit'' hmid' =>
      obtain rfl := (programInstsAfter_eq T hsplit').symm.trans (programInstsAfter_eq T hsplit'')
      have hall : f.programInsts b = front ++ c :: ((mid ++ a :: mid') ++ z :: rest') := by
        simp [hsplit]
      exact .inl (.block hall (hjoin hmid hmid'))
    | function hdom hclear hsplit'' hfront =>
      -- the check and `a` share a block, from which all the rest is covered
      refine .inr (.function hdom (fun after q walk edge hnot => ?_) hsplit'' hfront)
      obtain ⟨hrest, hafter⟩ := hclear after q walk edge hnot
      rw [programInstsAfter_eq T hsplit'] at hrest
      rw [programInstsAfter_eq T hsplit]
      exact ⟨hjoin hmid hrest, hafter⟩
  | @function d front rest hdom hclear hsplit hfront =>
    obtain rfl := hblock (by rw [hsplit]; simp)
    cases h' with
    | @block front' mid rest' hsplit' hmid =>
      obtain rfl := (programInstsAfter_eq T hsplit).symm.trans (programInstsAfter_eq T hsplit')
      have hall : f.programInsts b = (front ++ a :: mid) ++ z :: rest' := by simp [hsplit]
      exact .inl (.function hdom hclear hall (hjoin hfront hmid))
    | function hdom' hclear' hsplit' hfront' =>
      exact .inl (.function (hdom.trans hdom')
        (hclear.trans T hdom hdom' hsplit hfront hcall hclear') hsplit' hfront')

end Function

variable {ids : List ValueId}

/-- Does the configuration leave key checks out for a reason that one check gives to another? -/
def Config.usesTier (config : Config) : Tier → Bool
  | .trivial => false
  | .block => config.eliminateBlockTemporal
  | .function => config.eliminateFunctionTemporal

/-- One check covers an access to the same object, in a way that the configuration makes use of. -/
structure Env.RelievesBy (env : Env) (f : Function) (c a : ValueId) (tier : Tier) : Prop where
  used : env.config.usesTier tier
  source : ∃ source, f.accessesSource source c ∧ f.accessesSource source a
  covers : ∃ o, c ∈ f.programInsts o ∧ f.Covers env.config.opaqueCalls o c a tier

/-- The key check of one access makes that of another unnecessary. -/
def Env.Relieves (env : Env) (f : Function) (c a : ValueId) : Prop :=
  ∃ tier, env.RelievesBy f c a tier

/-- An access through a grounded pointer whose key is to be checked. -/
def Env.NeedsKey (env : Env) (f : Function) (a : ValueId) : Prop :=
  ∃ m source, f.access? a = some m ∧ f.Grounded m.ptr ∧ m.ptr.isNull = false ∧
    m.kind.wantsTemporal env.config ∧ f.source? m.ptr = some source ∧
    f.isTriviallyLive env.config source = false

/-- An access through a grounded pointer whose bounds are to be checked, and not known to be
kept. -/
def Env.NeedsBounds (env : Env) (f : Function) (a : ValueId) : Prop :=
  ∃ m, f.access? a = some m ∧ f.Grounded m.ptr ∧ m.ptr.isNull = false ∧
    m.kind.wantsSpatial env.config ∧ (env.config.eliminateConstantIndexSpatial &&
      f.provenInBounds env.interface m.ptr (Layout.size env.width m.ty)) = false

namespace Function

variable {t : RoutineTable}

theorem accessesSource_iff (hm : f.access? a = some m) :
    f.accessesSource source a ↔ m.ptr.isNull = false ∧ f.source? m.ptr = some source := by
  obtain ⟨kind, hkind, -, hptr, -⟩ := mem_operands_of_access? hm
  rw [accessesSource, hkind, Option.bind_some, hptr]
  simp

theorem access?_of_accessesSource (h : f.accessesSource source a) : ∃ m, f.access? a = some m := by
  rw [accessesSource] at h
  rw [access?]
  cases hkind : f.kind? a with
  | none => simp [hkind] at h
  | some kind => cases kind <;> simp_all [InstKind.accessedPointer?]

/-- An access stays one of the same kind through the same pointer; only the type of what a store
stores may become another, where it stored nothing that existed. -/
theorem Grows.access?_some (G : f.Grows t p g) (hm : f.access? a = some m) :
    ∃ ty, g.access? a = some ⟨m.kind, m.ptr, ty⟩ := by
  obtain ⟨kind, hkind, -⟩ := mem_operands_of_access? hm
  have hvalue := G.value?_eq (index_lt_of_kind? hkind).2
  rw [access?, hkind] at hm
  rw [access?, kind?_congr hvalue, hkind]
  cases kind with
  | load ptr =>
    cases hm
    exact ⟨_, rfl⟩
  | store value ptr =>
    cases hm
    exact ⟨_, rfl⟩
  | _ => cases hm

theorem Grows.access?_of_grown (G : f.Grows t p g) (ha : a.index < f.values.size)
    (hm : g.access? a = some m) : ∃ ty, f.access? a = some ⟨m.kind, m.ptr, ty⟩ := by
  rw [access?, kind?_congr (G.value?_eq ha)] at hm
  rw [access?]
  split at hm
  · cases hm
    exact ⟨_, rfl⟩
  · cases hm
    exact ⟨_, rfl⟩
  · cases hm

/-- Growth does not change the source of an access through a grounded pointer. -/
theorem Grounded.accessesSource_iff (hground : f.Grounded m.ptr) (hm : f.access? a = some m)
    (G : f.Grows t p g) : g.accessesSource source a ↔ f.accessesSource source a := by
  obtain ⟨ty, hm'⟩ := G.access?_some hm
  obtain ⟨σ, hσ, -, hgrown⟩ := hground.source?_eq
  rw [Function.accessesSource_iff hm, Function.accessesSource_iff hm', hσ, hgrown G]

/-- Nor whether its object is trivially alive. -/
theorem Grounded.isTriviallyLive_eq (h : f.Grounded source) (G : f.Grows t p g) (config : Config) :
    g.isTriviallyLive config source = f.isTriviallyLive config source := by
  cases source with
  | const c => cases c <;> rfl
  | value x => rw [isTriviallyLive, isTriviallyLive, h.kind?_eq G]

end Function

namespace Weaving

open Edit

variable {env : Env} {s s' u t : Weaving} {past : Decisions} {v : Verdict Unit × Verdict Tier}
  {i : Nat}

def KeyInserted (past : Decisions) (a : ValueId) : Prop := ∃ bounds, (a, bounds, .inserted) ∈ past

def BoundsInserted (past : Decisions) (a : ValueId) : Prop := ∃ key, (a, .inserted, key) ∈ past

/-- An instruction in front of which there is a place stands in the block that it names. -/
theorem exists_inst_of_located {t : RoutineTable} (T : f.Tidy) (G : f.Grows t p g)
    (hc : c ∈ f.programInsts o) (hlocate : g.locate? (.before c) = some (b, i)) :
    ∃ inst, f.inst? c = some inst ∧ inst.block = o := by
  obtain ⟨before, after, hsplit, -⟩ := locate?_before hlocate
  have hcb : c ∈ g.instsOf b := by simp [hsplit]
  have hco := (G.instsOf_sublist T o).subset (List.mem_of_mem_filter hc)
  obtain rfl := (G.tidy T).block_eq hco hcb
  simp only [locate?, Option.bind_eq_bind, Option.bind_eq_some_iff, Option.pure_def,
    Option.some.injEq, Prod.mk.injEq] at hlocate
  obtain ⟨inst, hinst, position, -, hblock, -⟩ := hlocate
  exact ⟨inst, inst?_grown T G hc ▸ hinst, hblock⟩

theorem mem_marks_iff {inst : Instruction} {marks : List (ValueId × Tier)} (T : f.Tidy)
    (G : f.Grows env.routines p g) (htree : f.dominators? = some env.dominators)
    (hc : c ∈ f.programInsts o) (hinst : f.inst? c = some inst) (hhome : inst.block = o)
    (hmarks : marks? env g c source = some marks) :
    (a, tier) ∈ marks ↔ env.config.usesTier tier ∧ g.accessesSource source a ∧
      f.Covers env.config.opaqueCalls o c a tier := by
  rw [mem_marks hmarks]
  constructor
  · rintro ⟨haccess, ⟨rfl, hused, hmem⟩ | ⟨rfl, hused, insts, hinsts, hmem⟩⟩
    · exact ⟨hused, haccess, (mem_searchedInBlock_iff T G hc hinst hhome haccess).mp hmem⟩
    · exact ⟨hused, haccess,
        (mem_searchedInDominated_iff T G hc htree hinst hhome hinsts haccess).mp hmem⟩
  · rintro ⟨hused, haccess, hcovers⟩
    refine ⟨haccess, ?_⟩
    cases tier with
    | trivial => cases hcovers
    | block =>
      exact .inl ⟨rfl, hused, (mem_searchedInBlock_iff T G hc hinst hhome haccess).mpr hcovers⟩
    | function =>
      obtain ⟨insts, hinsts⟩ := searched_of_marks hmarks hused
      exact .inr ⟨rfl, hused, insts, hinsts,
        (mem_searchedInDominated_iff T G hc htree hinst hhome hinsts haccess).mpr hcovers⟩

/-- What is marked as covered, as far as it is accessed through grounded pointers, is covered by the
key checks that were inserted. -/
def MarksExactly (env : Env) (f : Function) (past : Decisions) (s : Weaving) : Prop :=
  ∀ a m tier, f.access? a = some m → f.Grounded m.ptr →
    ((a, tier) ∈ s.covered ↔ ∃ c, KeyInserted past c ∧ env.RelievesBy f c a tier)

theorem MarksExactly.skip (M : MarksExactly env f past s) (hcovered : s'.covered = s.covered)
    (hv : v.2.isInserted = false) : MarksExactly env f (past ++ [(c, v)]) s' := by
  intro a m tier hm hground
  rw [hcovered, M a m tier hm hground]
  refine exists_congr fun c' => and_congr_left fun _ => exists_congr fun bounds => ?_
  rw [List.mem_append, List.mem_singleton]
  refine ⟨.inl, fun h => h.resolve_right ?_⟩
  rintro ⟨⟩
  cases hv

section

variable (htree : f.dominators? = some env.dominators) (W : s.Woven env Any f)
  (hrecords : ∀ v md, s.store.lookup v = some md → f.Grounded (.value v))

include W hrecords in
/-- What is known when the metadata of an access has been resolved: its pointer is grounded. -/
theorem grounded_of_inserted {report : FunctionReport} {md : PointerMetadata} {v : Splice}
    {bounds key : Bool} (hc : c.index < f.values.size) (hm : s.func.access? c = some m)
    (hresolve : (resolve env m.ptr).Runs { s with report := report } md u)
    (hchecks : (accessChecks env m bounds key md).Runs ⟨u.func, b, i⟩ ⟨⟩ v) : f.Grounded m.ptr := by
  obtain ⟨-, hsteady, hresolved, -⟩ :=
    insertion_adds W (fun _ _ => trivial) hc hm hresolve hchecks
  cases hptr : m.ptr with
  | const c => exact .const
  | value v =>
    rw [hptr, resolved?, hsteady.store] at hresolved
    exact hrecords v md hresolved

include htree W hrecords in
/-- A visit that inserts checks marks what its key check covers. -/
theorem MarksExactly.checked (M : MarksExactly env f past s) (hc : c ∈ f.programInsts o)
    (hm : s.func.access? c = some m) (C : Checked env c m s s') :
    MarksExactly env f (past ++ [(c, s.verdicts env c)]) s' := by
  have hindex := index_lt_of_mem_programInsts W.tidy hc
  have hverdict : (s.verdicts env c).2 = s.keyVerdict env c m := by rw [verdicts, hm]
  have W' := (C.steps W (fun _ _ => trivial) hindex hm).1.woven W
  cases C with
  | nothing _ hkey => exact M.skip rfl (by rwa [hverdict])
  | @inserted source report report' md u b i v marks hsome hnull hsource hresolve hlocate hchecks
      hmarks =>
    obtain ⟨S, hsteady, -⟩ := insertion_adds W (fun _ _ => trivial) hindex hm hresolve hchecks
    have hcovered : u.covered = s.covered := hsteady.aside.covered
    by_cases hkey : (s.keyVerdict env c m).isInserted
    swap
    · rw [if_neg hkey] at hmarks
      exact M.skip (by simp [hmarks, hcovered]) (by rw [hverdict]; simpa using hkey)
    rw [if_pos hkey] at hmarks
    have hinserted : (s.verdicts env c).2 = .inserted := by
      cases hv : s.keyVerdict env c m <;> simp_all [Verdict.isInserted]
    obtain ⟨inst, hinst, hblock⟩ := exists_inst_of_located W.tidy (S.woven W).grows hc hlocate
    have hground := grounded_of_inserted W hrecords hindex hm hresolve hchecks
    obtain ⟨ty, hmf⟩ := W.grows.access?_of_grown hindex hm
    have hchecked : f.accessesSource source c := by
      obtain ⟨σ, hσ, -, hgrown⟩ := hground.source?_eq
      rw [hgrown W.grows] at hsource
      exact (accessesSource_iff hmf).mpr ⟨hnull, by rw [hσ, hsource]⟩
    intro a ma tier hma hgrounda
    rw [List.mem_append, hcovered, M a ma tier hma hgrounda,
      mem_marks_iff W.tidy W'.grows htree hc hinst hblock hmarks,
      hgrounda.accessesSource_iff hma W'.grows]
    constructor
    · rintro (⟨c', ⟨bounds, hmem⟩, R⟩ | ⟨hused, haccess, hcovers⟩)
      · exact ⟨c', ⟨bounds, List.mem_append_left _ hmem⟩, R⟩
      · refine ⟨c, ⟨(s.verdicts env c).1, ?_⟩, hused, ⟨source, hchecked, haccess⟩, o, hc, hcovers⟩
        rw [← hinserted]
        simp
    · rintro ⟨c', ⟨bounds, hmem⟩, R⟩
      rcases List.mem_append.mp hmem with hmem | hmem
      · exact .inl ⟨c', ⟨bounds, hmem⟩, R⟩
      · obtain ⟨rfl, -⟩ := Prod.mk.inj (List.mem_singleton.mp hmem)
        obtain ⟨o', hc', hcovers⟩ := R.covers
        obtain ⟨σ, hσc, hσa⟩ := R.source
        obtain rfl := W.tidy.block_eq (List.mem_of_mem_filter hc) (List.mem_of_mem_filter hc')
        -- a pointer has one source
        obtain rfl : σ = source := Option.some.inj
          (((accessesSource_iff hmf).mp hσc).2.symm.trans
            ((accessesSource_iff hmf).mp hchecked).2)
        exact .inr ⟨R.used, hσa, hcovers⟩

include htree W hrecords in
theorem MarksExactly.visit (M : MarksExactly env f past s) (hc : c ∈ f.programInsts o)
    (h : (checkInst env c).Runs s ⟨⟩ s') :
    MarksExactly env f (past ++ [(c, s.verdicts env c)]) s' := by
  have hindex := index_lt_of_mem_programInsts W.tidy hc
  rcases checkInst_cases h with ⟨m, hm, C⟩ | ⟨hnone, -⟩
  · exact M.checked htree W hrecords hc hm C
  · have hverdicts : (s.verdicts env c).2.isInserted = false := by
      rw [verdicts, hnone]
      rfl
    exact M.skip (checkInst_aside W hindex trivial trivial trivial hnone h).2.covered hverdicts

include htree W hrecords in
/-- All through a run of visits, what is marked is what the inserted key checks cover. -/
theorem MarksExactly.visits (M : MarksExactly env f [] s)
    (hids : ∀ c ∈ ids, ∃ o, c ∈ f.programInsts o) (h : (ids.forM (checkInst env)).Runs s ⟨⟩ s') :
    MarksExactly env f (verdictsOn env ids s) s' :=
  visits_induction W (fun _ _ => trivial) hids h M fun _ hc Wt hstore hvisit M =>
    M.visit htree Wt (by rwa [hstore]) hc hvisit

theorem grounded_of_verdicts (W : s.Woven env Any f)
    (hrecords : ∀ v md, s.store.lookup v = some md → f.Grounded (.value v))
    (hc : c.index < f.values.size) (hm : s.func.access? c = some m)
    (h : (checkInst env c).Runs s ⟨⟩ s')
    (hinserted : (s.boundsVerdict env m).isInserted ∨ (s.keyVerdict env c m).isInserted) :
    f.Grounded m.ptr := by
  rcases checkInst_cases h with ⟨m', hm', C⟩ | ⟨hnone, -⟩
  · cases hm.symm.trans hm'
    cases C with
    | nothing hbounds hkey => simp_all
    | inserted _ _ _ hresolve _ hchecks =>
      exact grounded_of_inserted W hrecords hc hm hresolve hchecks
  · rw [hnone] at hm
    cases hm

theorem boundsVerdict_eq_inserted_iff : s.boundsVerdict env m = .inserted ↔
    m.ptr.isNull = false ∧ m.kind.wantsSpatial env.config ∧
      (env.config.eliminateConstantIndexSpatial &&
        s.func.provenInBounds env.interface m.ptr (Layout.size env.width m.ty)) = false := by
  rw [boundsVerdict]
  generalize (env.config.eliminateConstantIndexSpatial &&
    s.func.provenInBounds env.interface m.ptr (Layout.size env.width m.ty)) = proven
  cases m.ptr.isNull <;> cases m.kind.wantsSpatial env.config <;> cases proven <;> simp

theorem keyVerdict_eq_inserted_iff (W : s.Woven env Any f)
    (M : MarksExactly env f past s) (hm : f.access? a = some m) (hground : f.Grounded m.ptr)
    (ty : Ty) : s.keyVerdict env a ⟨m.kind, m.ptr, ty⟩ = .inserted ↔
      env.NeedsKey f a ∧ ∀ c, KeyInserted past c → ¬env.Relieves f c a := by
  obtain ⟨source, hsource, hsource', hgrown⟩ := hground.source?_eq
  have hlive := hsource'.isTriviallyLive_eq W.grows env.config
  have hneeds : env.NeedsKey f a ↔ m.ptr.isNull = false ∧ m.kind.wantsTemporal env.config ∧
      f.isTriviallyLive env.config source = false := by
    constructor
    · rintro ⟨m', source', hm', -, hnull, hwants, hs, hlive⟩
      cases hm.symm.trans hm'
      cases hsource.symm.trans hs
      exact ⟨hnull, hwants, hlive⟩
    · rintro ⟨hnull, hwants, hlive⟩
      exact ⟨m, source, hm, hground, hnull, hwants, hsource, hlive⟩
  have hmarks : s.covered.lookup a = none ↔ ∀ c, KeyInserted past c → ¬env.Relieves f c a := by
    rw [List.lookup_eq_none_iff]
    constructor
    · rintro hnone c hc ⟨tier, R⟩
      have := hnone _ ((M a m tier hm hground).mpr ⟨c, hc, R⟩)
      simp at this
    · rintro hnone ⟨a', tier⟩ hmem
      rw [bne_iff_ne]
      rintro rfl
      obtain ⟨c, hc, R⟩ := (M a m tier hm hground).mp hmem
      exact hnone c hc ⟨tier, R⟩
  rw [keyVerdict, hgrown W.grows, Option.bind_some, elision?]
  -- the verdict asks in this order: is a check wanted, is there a mark, is the object alive
  by_cases hunwanted : m.ptr.isNull || !m.kind.wantsTemporal env.config
  · grind
  · grind

end

theorem verdictsOn_append (h : (front.forM (checkInst env)).Runs s ⟨⟩ t) :
    verdictsOn env (front ++ rest) s = verdictsOn env front s ++ verdictsOn env rest t := by
  induction front generalizing s with
  | nil =>
    obtain rfl := runs_forM_nil.mp h
    rfl
  | cons first front ih => grind [runs_forM_cons, verdictsOn_cons]

theorem fst_mem_of_mem_verdictsOn (h : (a, v) ∈ verdictsOn env ids s) : a ∈ ids := by
  rw [← map_fst_verdictsOn env ids s]
  exact List.mem_map_of_mem h

section

variable (V : Visited env f ids s s') (hsplit : ids = front ++ a :: rest)

include V hsplit

/-- The visit to an instruction in a run of visits that come to each instruction once. -/
theorem Visited.visit :
    ∃ t t', (front.forM (checkInst env)).Runs s ⟨⟩ t ∧ (checkInst env a).Runs t ⟨⟩ t' ∧
      t.Woven env Any f ∧ t.store = s.store ∧
      (∀ v, (a, v) ∈ verdictsOn env ids s ↔ v = t.verdicts env a) ∧
      ∀ c ∈ front, ∀ v, (c, v) ∈ verdictsOn env ids s ↔ (c, v) ∈ verdictsOn env front s := by
  have hnodup := V.nodup
  have hruns := V.runs
  have hfront : ∀ c ∈ front, c.index < f.values.size := fun c hc =>
    index_lt_of_mem_programInsts V.woven.tidy (V.program c (by simp [hsplit, hc])).choose_spec
  subst hsplit
  obtain ⟨t, hbefore, hrest⟩ := runs_forM_append.mp hruns
  obtain ⟨t', hvisit, -⟩ := runs_forM_cons.mp hrest
  obtain ⟨S, hstore⟩ := visits_steps V.woven (fun _ _ => trivial) hfront hbefore
  obtain ⟨-, hrest, hdisjoint⟩ := List.nodup_append.mp hnodup
  obtain ⟨harest, -⟩ := List.nodup_cons.mp hrest
  refine ⟨t, t', hbefore, hvisit, S.woven V.woven, hstore, fun v => ?_, fun c hc v => ?_⟩
  · rw [verdictsOn_append hbefore, verdictsOn_cons hvisit, List.mem_append, List.mem_cons,
      Prod.mk.injEq]
    refine ⟨fun hv => ?_, fun hv => .inr (.inl ⟨rfl, hv⟩)⟩
    rcases hv with hv | ⟨-, hv⟩ | hv
    · exact absurd rfl (hdisjoint a (fst_mem_of_mem_verdictsOn hv) a (.head _))
    · exact hv
    · exact absurd (fst_mem_of_mem_verdictsOn hv) harest
  · rw [verdictsOn_append hbefore, List.mem_append]
    refine ⟨fun hv => hv.resolve_right fun hv => ?_, .inl⟩
    exact hdisjoint c hc c (fst_mem_of_mem_verdictsOn hv) rfl

variable (hrecords : ∀ v md, s.store.lookup v = some md → f.Grounded (.value v))

include hrecords

/-- In a run of visits a key check is inserted exactly if it is needed and no key check that was
inserted before makes it unnecessary. -/
theorem Visited.keyInserted_iff (htree : f.dominators? = some env.dominators)
    (hcovered : s.covered = []) :
    KeyInserted (verdictsOn env ids s) a ↔
      env.NeedsKey f a ∧
        ∀ c ∈ front, KeyInserted (verdictsOn env ids s) c → ¬env.Relieves f c a := by
  obtain ⟨t, t', hfront, hvisit, W, hstore, hverdict, hbefore⟩ := V.visit hsplit
  have start : MarksExactly env f [] s := by
    intro a m tier _ _
    simp [hcovered, KeyInserted]
  have M :=
    start.visits htree V.woven hrecords (fun c hc => V.program c (by simp [hsplit, hc])) hfront
  -- what was inserted before the visit was inserted on the way to it
  have hpast : (∀ c, KeyInserted (verdictsOn env front s) c → ¬env.Relieves f c a) ↔
      ∀ c ∈ front, KeyInserted (verdictsOn env ids s) c → ¬env.Relieves f c a := by
    constructor
    · rintro hnone c hc ⟨bounds, hmem⟩
      exact hnone c ⟨bounds, (hbefore c hc _).mp hmem⟩
    · rintro hnone c ⟨bounds, hmem⟩
      have hc := fst_mem_of_mem_verdictsOn hmem
      exact hnone c hc ⟨bounds, (hbefore c hc _).mpr hmem⟩
  have hinserted : KeyInserted (verdictsOn env ids s) a ↔ (t.verdicts env a).2 = .inserted := by
    simp [KeyInserted, hverdict, Prod.ext_iff, eq_comm]
  rw [hinserted, ← hpast]
  have ha := index_lt_of_mem_programInsts W.tidy (V.program a (by simp [hsplit])).choose_spec
  constructor
  · intro hkey
    cases hm : t.func.access? a with
    | none =>
      rw [verdicts, hm] at hkey
      cases hkey
    | some m =>
      rw [verdicts, hm] at hkey
      have hground := grounded_of_verdicts W (by rwa [hstore]) ha hm hvisit
        (.inr (by rw [show t.keyVerdict env a m = .inserted from hkey]; rfl))
      obtain ⟨ty, hmf⟩ := W.grows.access?_of_grown ha hm
      exact (keyVerdict_eq_inserted_iff W M hmf hground m.ty).mp hkey
  · rintro ⟨hneeds, hnone⟩
    obtain ⟨m, source, hmf, hground, -⟩ := id hneeds
    obtain ⟨ty, hm⟩ := W.grows.access?_some hmf
    rw [verdicts, hm]
    exact (keyVerdict_eq_inserted_iff W M hmf hground ty).mpr ⟨hneeds, hnone⟩

/-- A bounds check is inserted exactly if it is needed. What is stored has to exist, or else its
size is not known before it does. -/
theorem Visited.boundsInserted_iff
    (hstored : ∀ x ptr, f.kind? a = some (.store (.value x) ptr) → f.Has x) :
    BoundsInserted (verdictsOn env ids s) a ↔ env.NeedsBounds f a := by
  obtain ⟨t, t', -, hvisit, W, hstore, hverdict, -⟩ := V.visit hsplit
  have ha := index_lt_of_mem_programInsts W.tidy (V.program a (by simp [hsplit])).choose_spec
  have hinserted : BoundsInserted (verdictsOn env ids s) a ↔ (t.verdicts env a).1 = .inserted := by
    simp [BoundsInserted, hverdict, Prod.ext_iff, eq_comm]
  -- by the time of the visit the function has grown, but the access is the same
  have haccess : t.func.access? a = f.access? a :=
    W.grows.access?_eq_of_stored ha fun x ptr hkind => (hstored x ptr hkind).operandType
  rw [hinserted, verdicts, haccess, Env.NeedsBounds]
  cases hm : f.access? a with
  | none => simp
  | some m =>
    simp only [Option.some.injEq, exists_eq_left']
    constructor
    · intro hbounds
      -- the visit went well, so there was metadata, and the pointer goes back to something
      have hground := grounded_of_verdicts W (by rwa [hstore]) ha (haccess.trans hm) hvisit
        (.inl (by rw [hbounds]; rfl))
      rw [boundsVerdict_eq_inserted_iff, hground.provenInBounds_eq W.grows] at hbounds
      exact ⟨hground, hbounds⟩
    · rintro ⟨hground, hneeds⟩
      rw [boundsVerdict_eq_inserted_iff, hground.provenInBounds_eq W.grows]
      exact hneeds

end

end Weaving

end PointerGuard
