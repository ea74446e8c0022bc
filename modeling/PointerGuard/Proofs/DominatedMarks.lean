import PointerGuard.Proofs.Emission
import PointerGuard.Proofs.Faults
import PointerGuard.Proofs.FullCoverage

/-!
# Marks in dominated blocks

When a key check is inserted, an access gets the mark of a dominated one if and only if it had no
mark, it accesses the same object, and it stands in a strictly dominated block with no call that
matters on any way there. If all branches lead to blocks that exist and all derivations end, making
the marks cannot fail.
-/

namespace PointerGuard

variable {f : Function} {p : Routine → Prop} {o : BlockId} {c a : ValueId}

namespace Function

variable {g : Function} {t : RoutineTable}

instance : Decidable f.Dangles :=
  decidable_of_iff (∃ b ∈ f.blockIds, ∃ target ∈ f.successors b, f.blocks.size ≤ target.index)
    ⟨fun ⟨b, _, target, h⟩ => ⟨b, target, h⟩, fun ⟨b, target, h⟩ =>
      ⟨b, mem_blockIds.mpr (index_lt_of_mem_successors h.1), target, h⟩⟩

section

variable (h : ¬g.Dangles) (tree : DominatorTree) (opaqueCalls : Bool)

include h

theorem exists_checkScope (o : BlockId) (check : ValueId) :
    ∃ scope, g.checkScope? tree opaqueCalls o check = some scope := by
  cases hsearch : g.flowGraph.bfs o.index with
  | none => exact absurd (dangles_of_bfs hsearch) h
  | some nodes => simp [checkScope?, hsearch]

theorem exists_searchedInDominated (check : ValueId) :
    ∃ insts, g.searchedInDominated? tree opaqueCalls check = some insts := by
  rw [searchedInDominated?]
  split
  · rename_i inst _
    obtain ⟨scope, hscope⟩ := exists_checkScope h tree opaqueCalls inst.block check
    exact ⟨_, by rw [hscope]; rfl⟩
  · exact ⟨[], rfl⟩

end

/-- An access further down in the block of a check is in no block that it strictly dominates. -/
theorem Covers.not_function {opaqueCalls : Bool} (T : f.Tidy)
    (h : f.Covers opaqueCalls o c a .block) : ¬f.Covers opaqueCalls o c a .function := by
  intro hfunction
  cases hfunction with
  | @function b _ _ hdom _ hlist' _ =>
    obtain ⟨hlist, -⟩ := h
    have ho : a ∈ f.programInsts o := by rw [hlist]; simp
    have hb : a ∈ f.programInsts b := by rw [hlist']; simp
    exact hdom.1 (T.block_eq (List.mem_of_mem_filter ho) (List.mem_of_mem_filter hb))

end Function

namespace Weaving

open Edit

variable {env : Env} {s s' : Weaving} {m : MemoryAccess} {source : Operand}
  {marks : List (ValueId × Tier)} {inst : Instruction}

/-- What the key check of an access of a block `o` does to the marks: those that are there stay, and
of the accesses without one exactly those get the mark of a dominated access that access the object
in blocks that `o` strictly dominates, with no call that matters in between. -/
structure MarksDominated (env : Env) (f : Function) (o : BlockId) (c : ValueId) (source : Operand)
    (s s' : Weaving) : Prop where
  kept : ∀ a tier, s.covered.lookup a = some tier → s'.covered.lookup a = some tier
  marked : ∀ a, s.covered.lookup a = none → (s'.covered.lookup a = some .function ↔
    env.config.eliminateFunctionTemporal ∧ s'.func.accessesSource source a ∧
      f.Covers env.config.opaqueCalls o c a .function)

/-- What is looked up is what is listed, unless something else is listed under the same key. -/
theorem lookup_eq_some_iff_mem {tier : Tier}
    (hunique : ∀ tier', (a, tier') ∈ marks → (a, tier) ∈ marks → tier' = tier) :
    marks.lookup a = some tier ↔ (a, tier) ∈ marks := by
  constructor
  · grind [List.lookup_eq_some_iff]
  · intro h
    cases hlookup : marks.lookup a with
    | none => simpa using List.lookup_eq_none_iff.mp hlookup _ h
    | some tier' => grind [List.lookup_eq_some_iff]

theorem MarksDominated.of_marks (T : f.Tidy) (G : f.Grows env.routines p s'.func)
    (htree : f.dominators? = some env.dominators) (hc : c ∈ f.programInsts o)
    (hinst : f.inst? c = some inst) (hhome : inst.block = o)
    (hmarks : marks? env s'.func c source = some marks)
    (hcovered : s'.covered = s.covered ++ marks) : MarksDominated env f o c source s s' := by
  have hmem : ∀ {a tier}, (a, tier) ∈ marks ↔ _ := mem_marks_iff T G htree hc hinst hhome hmarks
  constructor
  · grind
  · intro a hlookup
    rw [hcovered, List.lookup_append, hlookup, Option.none_or, lookup_eq_some_iff_mem, hmem]
    · rfl
    · -- a mark for an access of the same block would have come first
      intro tier h hfunction
      have hcovers := (hmem.mp h).2.2
      cases hcovers with
      | block hlist hfree => grind [Function.Covers.not_function]
      | function => rfl

theorem MarksDominated.of_visit (W : s.Woven env Any f)
    (htree : f.dominators? = some env.dominators) (hc : c ∈ f.programInsts o)
    (hinst : f.inst? c = some inst) (hhome : inst.block = o) (hm : s.func.access? c = some m)
    (hkey : (s.keyVerdict env c m).isInserted) (h : (checkInst env c).Runs s ⟨⟩ s') :
    ∃ source, s.func.source? m.ptr = some source ∧ MarksDominated env f o c source s s' := by
  have hindex := index_lt_of_mem_programInsts W.tidy hc
  have W' := (checkInst_steps W (fun _ _ => trivial) hindex h).1.woven W
  rcases checkInst_cases h with ⟨m', hm', C⟩ | ⟨hnone, -⟩
  · cases hm.symm.trans hm'
    cases C with
    | nothing _ hnokey => simp [hkey] at hnokey
    | @inserted source report report' md u b i v marks _ _ hsource hresolve _ hchecks hmarks =>
      obtain ⟨-, hsteady, -⟩ := insertion_adds W (fun _ _ => trivial) hindex hm hresolve hchecks
      have hcovered : u.covered = s.covered := hsteady.aside.covered
      rw [if_pos hkey] at hmarks
      exact ⟨source, hsource,
        .of_marks W.tidy W'.grows htree hc hinst hhome hmarks (by rw [hcovered])⟩
  · rw [hm] at hnone
    cases hnone

theorem exists_marks (env : Env) (c : ValueId) (source : Operand) (hinside : ¬s.func.Dangles)
    (hends : ∀ b, s.func.endless? (s.func.programInsts b) = none) :
    ∃ marks, marks? env s.func c source = some marks := by
  have hnone : ∀ insts, (∀ x ∈ insts, ∃ b, x ∈ s.func.programInsts b) →
      s.func.endless? insts = none := by
    refine fun insts hprogram => List.findSome?_eq_none_iff.mpr fun x hx => ?_
    obtain ⟨b, hb⟩ := hprogram x hx
    exact List.findSome?_eq_none_iff.mp (hends b) x hb
  obtain ⟨insts, hinsts⟩ := Function.exists_searchedInDominated hinside env.dominators
    env.config.opaqueCalls c
  have hblock := hnone (s.func.searchedInBlock env.config.opaqueCalls c) fun x =>
    Function.exists_mem_of_searchedInBlock
  have hdominated := hnone insts fun x => Function.exists_mem_of_searchedInDominated hinsts
  have hnil : s.func.endless? [] = none := rfl
  rw [marks?, hinsts]
  split <;> split <;> simp [endless?_append_eq_none, hblock, hdominated, hnil]

/-- When a key check is inserted, an access without a mark gets that of a dominated one exactly if
it accesses the object in a block that the block of the check strictly dominates, with no call that
matters on any way from the check to it. So it is in every visit that inserts a key check. Making
the marks cannot fail if all branches lead to blocks that exist and the derivations of all pointers
that are accessed end. The sweeps for dirty blocks behind it come to an end by themselves, and
whatever blocks they have visited, dirt only grows. -/
theorem coverFrom_marks_dominated {inst : Instruction} (hinside : ¬f.Dangles)
    (htree : f.dominators? = some env.dominators) (W : s.Woven env (fun _ => True) f)
    (hinst : f.inst? c = some inst) (hc : c ∈ f.programInsts inst.block) :
    (∀ source s', (coverFrom env c source).Runs s ⟨⟩ s' →
      MarksDominated env f inst.block c source s s') ∧
    ((∀ b, s.func.endless? (s.func.programInsts b) = none) →
      ∀ source, ∃ s', (coverFrom env c source).Runs s ⟨⟩ s') ∧
    (∀ m s', s.func.access? c = some m → (s.keyVerdict env c m).isInserted →
      (checkInst env c).Runs s ⟨⟩ s' → ∃ source, s.func.source? m.ptr = some source ∧
        MarksDominated env f inst.block c source s s') ∧
    ∃ scope, s.func.checkScope? env.dominators env.config.opaqueCalls inst.block c = some scope ∧
      ∀ isReachable, scope.Settles isReachable {} (scope.dirt isReachable) ∧
        ∀ (visited : List DominatedBlock) d, (∀ e ∈ visited, e ∈ scope.region) → d ∈ scope.region →
          (visited.foldl (scope.visit isReachable) {}).places ⊆
            (scope.visit isReachable (visited.foldl (scope.visit isReachable) {}) d).places := by
  have hinside' := mt (W.grows.dangles W.tidy) hinside
  refine ⟨fun source s' h => ?_, fun hends source => ?_, fun m s' hm hkey h => ?_, ?_⟩
  · obtain ⟨marks, hmarks, rfl⟩ := runs_coverFrom.mp h
    exact .of_marks W.tidy W.grows htree hc hinst rfl hmarks rfl
  · obtain ⟨marks, hmarks⟩ := exists_marks env c source hinside' hends
    exact ⟨_, runs_coverFrom.mpr ⟨marks, hmarks, rfl⟩⟩
  · exact MarksDominated.of_visit W htree hc hinst rfl hm hkey h
  · obtain ⟨scope, hscope⟩ := Function.exists_checkScope hinside' env.dominators
      env.config.opaqueCalls inst.block c
    have hnodup := Function.nodup_region W.grows hc hscope
    exact ⟨scope, hscope, fun isReachable => ⟨CheckScope.settles_dirt hnodup,
      fun visited d => CheckScope.subset_visit_of_visits hnodup⟩⟩

end Weaving

/-! ### Reads behind a fork

A function that reads through its parameter and then goes one of two ways. On one way it reads in a
loop, on the other it makes a call before it reads. Where the two ways meet it reads again. -/

/-- Read before a fork, on both ways behind it, and where they meet. -/
def forkedReads : Function := .ofBlocks ⟨0⟩ "fork" ⟨.void, [.ptr (.int 8), .int 1], false⟩ [
  [(.int 8, .load (val 0)), (.void, .branch (val 1) ⟨1⟩ ⟨2⟩)],
  [(.int 8, .load (val 0)), (.void, .branch (val 1) ⟨1⟩ ⟨3⟩)],
  [(.void, .call (.const (.func ⟨1⟩ (.int 8))) [] ⟨.void, [], false⟩), (.int 8, .load (val 0)),
    (.void, .jump ⟨3⟩)],
  [(.int 8, .load (val 0)), (.void, .ret none)]]

/-- The check of the first read covers the read in the loop. It does not cover the one behind the
call, nor the one where the ways meet. -/
theorem coverFrom_marks_dominated_forkedReads :
    ((Weaving.checkInst (gatherEnv forkedReads) ⟨⟨0⟩, 2⟩).apply
        (gatherResolved forkedReads)).1.isOk ∧
      forkedReads.Covers true ⟨0⟩ ⟨⟨0⟩, 2⟩ ⟨⟨0⟩, 4⟩ .function ∧
      ¬forkedReads.Covers true ⟨0⟩ ⟨⟨0⟩, 2⟩ ⟨⟨0⟩, 7⟩ .function ∧
      ¬forkedReads.Covers true ⟨0⟩ ⟨⟨0⟩, 2⟩ ⟨⟨0⟩, 9⟩ .function := by
  have hok : ((Weaving.checkInst (gatherEnv forkedReads) ⟨⟨0⟩, 2⟩).apply
      (gatherResolved forkedReads)).1.isOk := by decide +kernel
  obtain ⟨_, hvisit⟩ := Edit.exists_runs hok
  have hf : forkedReads.WellFormed := by decide +kernel
  have G := Weaving.gathered (p := Any) hf.tidy hf.paramsFirst (fun _ _ => rfl)
    (fun _ _ => trivial) (runs_gatherCreated (by decide +kernel))
    (runs_gatherResolved (by decide +kernel))
  have W := Weaving.Steps.woven G.steps ⟨hf.tidy, .refl⟩
  obtain ⟨-, -, hvisits, -⟩ := Weaving.coverFrom_marks_dominated (c := ⟨⟨0⟩, 2⟩) (by decide +kernel)
    (dominators_gatherEnv (by decide +kernel)) W rfl (by decide +kernel)
  obtain ⟨source, hsource, M⟩ := hvisits _ _ rfl (by decide +kernel) hvisit
  have hparam : (gatherResolved forkedReads).func.source?
      (.value ⟨⟨0⟩, 0⟩) = some (.value ⟨⟨0⟩, 0⟩) := by decide +kernel
  obtain rfl := Option.some.inj (hsource.symm.trans hparam)
  refine ⟨hok, ((M.marked ⟨⟨0⟩, 4⟩ (by decide +kernel)).mp (by decide +kernel)).2.2,
    fun hcovers => ?_, fun hcovers => ?_⟩
  · exact absurd ((M.marked ⟨⟨0⟩, 7⟩ (by decide +kernel)).mpr ⟨rfl, by decide +kernel, hcovers⟩)
      (by decide +kernel)
  · exact absurd ((M.marked ⟨⟨0⟩, 9⟩ (by decide +kernel)).mpr ⟨rfl, by decide +kernel, hcovers⟩)
      (by decide +kernel)

end PointerGuard
