import PointerGuard.Proofs.FullCoverage
import PointerGuard.Proofs.Grounding

/-!
# Derived pointers share records

Key checks are left out for pointers with the same source, so these have to have the same metadata.
The derivation of every pointer that has metadata ends, and the source at its end has the same
record. A constant folds to the metadata of its source.
-/

namespace PointerGuard

open PointerGuard.Function

/-- Computations and casts around a constant do not change what it folds to, nor how it fails to. -/
theorem Constant.fold_source (i : Interface) (c : Constant) : c.source.fold i = c.fold i := by
  fun_induction Constant.source c with
  | case1 base indices ty ih => rw [ih, Constant.fold]
  | case2 value ty ih => rw [ih, Constant.fold]
  | case3 c => rfl

namespace Weaving

open Edit

variable {env : Env} {p : Routine → Prop} {f : Function} {s t u : Weaving}
  {operand source : Operand} {md : PointerMetadata}

/-- The source of a pointer can be told, it stays the same while the function grows, and asking for
its metadata gives the same record with the same effect as asking for that of the pointer. When one
of the two has been asked for, asking for the other changes nothing more. -/
def SharesRecord (env : Env) (f : Function) (t : Weaving) (ptr : Operand) : Prop :=
  ∃ source md u, f.source? ptr = some source ∧ t.func.source? ptr = some source ∧
    (resolve env ptr).Runs t md u ∧ (resolve env source).Runs t md u ∧
    (resolve env ptr).Runs u md u ∧ (resolve env source).Runs u md u

theorem runs_resolve_of_resolved? (h : s.resolved? env operand = some md) :
    (resolve env operand).Runs s md s := by
  cases operand with
  | value v =>
    rw [resolve, runs_get_bind, runs_ofExcept, Store.get, show s.store.lookup v = some md from h]
    exact ⟨rfl, rfl⟩
  | const c =>
    rw [resolved?] at h
    split at h
    · rename_i folded hfold
      obtain ⟨lock, hlock, rfl⟩ := Option.map_eq_some_iff.mp h
      rw [resolve, runs_bind]
      refine ⟨folded, s, runs_ofExcept.mpr ⟨hfold, rfl⟩, ?_⟩
      rw [lockFor?] at hlock
      rw [materialize]
      -- if the lock of globals is needed, it has been requested before
      split at hlock
      · rename_i hneeds
        rw [if_pos hneeds, runs_bind]
        refine ⟨lock, s, ?_, runs_pure.mpr ⟨rfl, rfl⟩⟩
        rw [requestGlobalLock, runs_get_bind, hlock]
        exact runs_pure.mpr ⟨rfl, rfl⟩
      · grind [runs_pure]
    · cases h

theorem resolve_const_source (env : Env) (c : Constant) :
    resolve env (.const c.source) = resolve env (.const c) := by
  rw [resolve, resolve, Constant.fold_source]

private theorem resolved?_const_source (env : Env) (s : Weaving) (c : Constant) :
    s.resolved? env (.const c.source) = s.resolved? env (.const c) := by
  rw [resolved?, resolved?, Constant.fold_source]

/-- Along a derivation the metadata stays the same. -/
theorem Gathered.resolved?_source {chain : List ValueId} (G : Gathered env p f s t)
    (W : s.Woven env p f) (hfirst : f.ParamsFirst)
    (hforeign : ∀ v md, s.store.lookup v = some md → v.func ≠ f.id)
    (D : t.func.Derives operand chain source) (h : t.resolved? env operand = some md) :
    t.resolved? env source = some md := by
  have Wt := Steps.woven G.steps W
  induction D with
  | const => rwa [resolved?_const_source]
  | stop => exact h
  | @next x operand chain source hderived D ih =>
    rcases G.records (show t.store.lookup x = some md from h) with hold | R
    · -- what was recorded beforehand belongs to other functions, and is not derived in this one
      obtain ⟨kind, hkind, -⟩ := kind?_of_derivedFrom? hderived
      exact absurd ((index_lt_of_kind? hkind).1.trans Wt.grows.id_eq) (hforeign x md hold)
    · exact ih (R.produced.resolved_source hfirst Wt hderived)

section

variable (G : Gathered env p f s t) (W : s.Woven env p f)

include G W

/-- A pointer that has metadata has a source with the same record. -/
theorem Gathered.sharesRecord (hfirst : f.ParamsFirst)
    (hforeign : ∀ v md, s.store.lookup v = some md → v.func ≠ f.id)
    (h : t.resolved? env operand = some md) : SharesRecord env f t operand := by
  obtain ⟨chain, source, D, -, hgrown⟩ := (G.grounded hforeign h).derives
  have D' := hgrown (Steps.woven G.steps W).grows
  have hrun := runs_resolve_of_resolved? h
  have hrun' := runs_resolve_of_resolved? (G.resolved?_source W hfirst hforeign D' h)
  exact ⟨source, md, t, source?_eq_some_iff.mpr ⟨chain, D⟩,
    source?_eq_some_iff.mpr ⟨chain, D'⟩, hrun, hrun', hrun, hrun'⟩

theorem Gathered.sharesRecord_const (hblocks : 0 < f.blocks.size) {c : Constant}
    {folded : FoldedMetadata} (hfold : c.fold env.interface = .ok folded) (hp : p .globalLock) :
    SharesRecord env f t (.const c) := by
  have Wt := Steps.woven G.steps W
  have hsource : ∀ g : Function, g.source? (.const c) = some (.const c.source) := fun g =>
    source?_eq_some_iff.mpr ⟨[], .const⟩
  obtain ⟨md, u, hmd, -⟩ : (materialize env folded).Succeeds t fun _ _ => True :=
    materialize_succeeds (by rwa [Wt.grows.size_blocks])
  have hrun : (resolve env (.const c)).Runs t md u := by
    rw [resolve, runs_bind]
    exact ⟨folded, t, runs_ofExcept.mpr ⟨hfold, rfl⟩, hmd⟩
  have hrun' := runs_resolve_of_resolved? (resolve_steps Wt hp hrun).2.1
  exact ⟨.const c.source, md, u, hsource f, hsource t.func, hrun, by rwa [resolve_const_source],
    hrun', by rwa [resolve_const_source]⟩

end

/-- If the audit accepts a weaving, its parameters and reachable instructions have metadata as far
as they are pointers. -/
theorem has_of_audit (W : t.Woven env p f) (hfirst : f.ParamsFirst)
    (htree : f.dominators? = some env.dominators)
    (h : (auditMetadata env).Runs t ⟨⟩ u) {v : ValueId}
    (hpointer : f.isPointerValue v)
    (hv : v ∈ f.params ∨ ∃ b, f.Reachable b ∧ v ∈ f.programInsts b) : t.store.has v := by
  have hv := (mem_auditedValues_iff W hfirst htree).mpr ⟨hpointer, hv⟩
  rw [auditMetadata, runs_get_bind] at h
  split at h
  · exact absurd h runs_throw
  · grind

end Weaving

/-- When metadata has been gathered for a function, a constant that can be folded and a value that
has metadata share it with their sources. If the audit accepts the function, all pointers among its
parameters and its reachable instructions have metadata. -/
theorem Env.derived_share_records {env : Env} {f : Function} {store : Store} {s t : Weaving}
    (hf : f.WellFormed) (htree : f.dominators? = some env.dominators)
    (hstore : ∀ v, v.func = f.id → store.lookup v = none)
    (hcreate : (Weaving.createMetadata env).Runs (.start f store) ⟨⟩ s)
    (hresolve : (Weaving.resolveMetadata env).Runs s ⟨⟩ t) :
    (∀ c folded, c.fold env.interface = .ok folded → 0 < f.blocks.size →
      t.SharesRecord env f (.const c)) ∧
    (∀ v, t.store.has v → t.SharesRecord env f (.value v)) ∧
    (∀ u, (Weaving.auditMetadata env).Runs t ⟨⟩ u → ∀ v, f.isPointerValue v →
      v ∈ f.params ∨ (∃ b, f.Reachable b ∧ v ∈ f.programInsts b) → t.store.has v) ∧
    ∀ c : Constant, c.source.fold env.interface = c.fold env.interface := by
  have G : Weaving.Gathered env Any f (.start f store) t :=
    Weaving.gathered hf.tidy hf.paramsFirst (fun v hv => hstore v hv.func_eq) (fun _ _ => trivial)
      hcreate hresolve
  have W : Weaving.Woven env Any f (.start f store) := ⟨hf.tidy, .refl⟩
  have hforeign : ∀ v md, (Weaving.start f store).store.lookup v = some md → v.func ≠ f.id := by
    intro v md hlookup hv
    rw [Weaving.start, hstore v hv] at hlookup
    cases hlookup
  refine ⟨fun c folded hfold hblocks => G.sharesRecord_const W hblocks hfold trivial,
    fun v hv => ?_, fun u haudit v hpointer hv => ?_, Constant.fold_source env.interface⟩
  · obtain ⟨md, hlookup⟩ := Option.isSome_iff_exists.mp hv
    have hresolved : t.resolved? env (.value v) = some md := hlookup
    exact G.sharesRecord W hf.paramsFirst hforeign hresolved
  · exact Weaving.has_of_audit (Weaving.Steps.woven G.steps W) hf.paramsFirst htree
      haudit hpointer hv

/-- Move a pointer twice, and the address of a function that is moved and cast as a constant. -/
def movedTwice : Function := .ofBlocks ⟨0⟩ "move" ⟨.void, [.ptr (.int 8)], false⟩ [
  [(.ptr (.int 8), .gep (val 0) [.const (.int 64 1)]), (.ptr (.int 32), .cast .bitcast (val 1)),
    (.ptr (.int 32), .cast .bitcast
      (.const (.gep (.cast .bitcast (.func ⟨1⟩ .voidPtr) .voidPtr) [.int 64 4] .voidPtr))),
    (.void, .ret none)]]

/-- The moved pointer shares the record of the parameter, and the moved address that of the
function. -/
theorem derived_share_records_movedTwice :
    let env := gatherEnv movedTwice
    let t := gatherResolved movedTwice
    t.SharesRecord env movedTwice (.value ⟨⟨0⟩, 2⟩) ∧
      movedTwice.source? (.value ⟨⟨0⟩, 2⟩) = some (.value ⟨⟨0⟩, 0⟩) ∧
      t.SharesRecord env movedTwice (.value ⟨⟨0⟩, 3⟩) ∧
      movedTwice.source? (.value ⟨⟨0⟩, 3⟩) = some (.const (.func ⟨1⟩ .voidPtr)) ∧
      t.SharesRecord env movedTwice
        (.const (.gep (.func ⟨1⟩ .voidPtr) [.int 64 4] .voidPtr)) := by
  intro env t
  obtain ⟨hconst, hvalue, haudit, -⟩ := Env.derived_share_records (f := movedTwice)
    (by decide +kernel) (dominators_gatherEnv (by decide +kernel)) (fun _ _ => rfl)
    (runs_gatherCreated (by decide +kernel))
    (runs_gatherResolved (by decide +kernel))
  obtain ⟨_, haccepts⟩ : ∃ a, (Weaving.auditMetadata env).Runs t a _ :=
    Edit.exists_runs (by decide +kernel)
  have hhas : ∀ v ∈ movedTwice.programInsts ⟨0⟩, movedTwice.isPointerValue v → t.store.has v :=
    fun v hv hpointer => haudit _ haccepts v hpointer (.inr ⟨⟨0⟩, ⟨_, .start⟩, hv⟩)
  exact ⟨hvalue _ (hhas _ (by decide +kernel) rfl), by decide +kernel,
    hvalue _ (hhas _ (by decide +kernel) rfl), by
      decide +kernel, hconst _ _ rfl (by decide +kernel)⟩

/-- Add a pointer to itself. -/
def addedPointer : Function := .ofBlocks ⟨0⟩ "f" ⟨.void, [.ptr (.int 8)], false⟩ [
  [(.ptr (.int 8), .binary .add (val 0) (val 0)), (.void, .ret none)]]

def bodiless : Function := .declaration ⟨0⟩ "f" ⟨.void, [], false⟩

/-- Does gathering succeed on a function, and asking for the metadata of an operand then fail? -/
def lacksRecord (f : Function) (ptr : Operand) : Bool :=
  ((Weaving.createMetadata (gatherEnv f)).apply (.start f ⟨.bits64, []⟩)).1.isOk &&
    ((Weaving.resolveMetadata (gatherEnv f)).apply (gatherCreated f)).1.isOk &&
    !((Weaving.resolve (gatherEnv f) ptr).apply (gatherResolved f)).1.isOk

/-- The metadata of some pointers cannot be had, although gathering succeeds: of one that is moved
behind an inserted jump, where it is never visited, though its source has metadata; of a sum of
pointers; and of the address of a function, where there is no body to request its lock in. -/
theorem derived_not_share_records :
    (insertedEntry.Reachable ⟨1⟩ ∧ ⟨⟨0⟩, 2⟩ ∈ insertedEntry.programInsts ⟨1⟩ ∧
      insertedEntry.isPointerValue ⟨⟨0⟩, 2⟩ ∧
      insertedEntry.source? (.value ⟨⟨0⟩, 2⟩) = some (.value ⟨⟨0⟩, 0⟩) ∧
      (gatherResolved insertedEntry).store.has ⟨⟨0⟩, 0⟩ ∧
      lacksRecord insertedEntry (.value ⟨⟨0⟩, 2⟩)) ∧
    (addedPointer.Reachable ⟨0⟩ ∧ ⟨⟨0⟩, 1⟩ ∈ addedPointer.programInsts ⟨0⟩ ∧
      addedPointer.isPointerValue ⟨⟨0⟩, 1⟩ ∧
      lacksRecord addedPointer (.value ⟨⟨0⟩, 1⟩)) ∧
    lacksRecord bodiless (.const (.func ⟨0⟩ .voidPtr)) := by
  refine ⟨⟨⟨_, .step .start (by decide +kernel)⟩, by decide +kernel⟩,
    ⟨⟨_, .start⟩, by decide +kernel⟩, by decide +kernel⟩

end PointerGuard
