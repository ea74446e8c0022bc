import PointerGuard.Proofs.Accounts

/-!
# Reports of modules

What the report of a run says of a function agrees with what was done to it. The way from the first
block to the others has to stay open: if that block has no instruction of the program, what is
inserted at its top comes behind its terminator.
-/

namespace PointerGuard

open Edit PointerGuard.Function

variable {change : Operand → Operand}

/-- The report of a function agrees with the function, as it was and as it has become. -/
structure Accounts (env : Env) (f g : Function) (r : FunctionReport) : Prop where
  spatialChecks : env.callsAdded f g [.spatialLoadCheck, .spatialStoreCheck] = r.spatialChecks
  temporalChecks : env.callsAdded f g [.temporalLoadCheck, .temporalStoreCheck] = r.temporalChecks
  callChecks : env.callsAdded f g [.spatialCallCheck] = r.callChecks
  metadataCopies : env.callsAdded f g [.copyMetadata] = r.metadataCopies
  metadataLoads : env.callsAdded f g [.metadataLoad] = r.metadataLoads
  metadataStores : env.callsAdded f g [.metadataStore] = r.metadataStores
  framesOpened : env.callsAdded f g [.allocateFrame] = r.shadowStackFrames
  framesClosed : env.callsAdded f g [.deallocateFrame] = r.shadowStackFrames
  phis : f.phisAdded g = env.config.tracked * r.placeholderPhis
  gathered : (f.successors ⟨0⟩ ≠ [] → f.programInsts ⟨0⟩ ≠ []) →
    ∃ blocks : List BlockId, blocks.Nodup ∧ (∀ b, b ∈ blocks ↔ f.Reachable b) ∧
      r.stackAllocations = (blocks.flatMap f.programInsts).countP f.isAlloca ∧
      r.metadataLoads = (blocks.flatMap f.programInsts).countP f.isPointerLoad ∧
      r.metadataStores = (blocks.flatMap f.programInsts).countP f.isPointerStore ∧
      r.placeholderPhis = (blocks.flatMap f.programInsts).countP f.isPointerPhi
  bounds : r.spatialChecks + r.spatialEliminatedConstantIndex =
    (f.blockIds.flatMap f.programInsts).countP (f.wants (·.wantsSpatial env.config))
  keys : r.temporalChecks + r.temporalEliminated =
    (f.blockIds.flatMap f.programInsts).countP (f.wants (·.wantsTemporal env.config))

variable {env : Env} {f f' g : Function} {r : FunctionReport} {s : Weaving} {store : Store}

theorem Weaving.Piped.accounts (P : Piped env f store s) (T : f.Tidy) (hfirst : f.ParamsFirst)
    (hsize : 0 < f.blocks.size) (hfresh : ∀ v : ValueId, v.func = f.id → store.lookup v = none)
    (hdistinct : env.Distinct) (G : f.Grows env.routines Any s.func) :
    Accounts env f s.func s.report := by
  obtain ⟨created, recorded, w, t, C⟩ := P.course T hfirst hfresh hdistinct G
  obtain ⟨hallocas, hloads, hphis, hstores⟩ := C.counters_eq
  have hsettled := P.settled_eq T hfirst (fun v hv => hfresh v hv.func_eq) hdistinct
  constructor
  case spatialChecks | temporalChecks | callChecks | metadataCopies | metadataLoads |
      metadataStores | framesOpened | framesClosed =>
    exact (C.callsAdded_eq hdistinct _ (by decide)).trans (by simp [FunctionReport.callsCounted])
  case phis => exact C.phisAdded_eq
  case gathered =>
    intro hentry
    have hperm : (recorded.flatMap f.programInsts).Perm (created.flatMap f.programInsts) := by
      refine List.Perm.flatMap_right _ ((List.perm_ext_iff_of_nodup C.records.nodup
        C.creates.nodup).mpr fun b => ?_)
      rw [C.records.mem_iff T hsize hentry, C.creates.mem_iff T hsize hentry]
    refine ⟨created, C.creates.nodup, fun b => C.creates.mem_iff T hsize hentry,
      hallocas, hloads, ?_, hphis⟩
    rw [hstores, hperm.countP_eq]
  case bounds => exact congrArg Prod.fst hsettled
  case keys => exact congrArg Prod.snd hsettled

/-! ### Functions that have been prepared -/

/-- For what is counted it does not matter which functions the instructions name. -/
theorem Function.Readdresses.counts_eq (R : f.Readdresses change f')
    (C : Operand.Readdressing change) (T : f.Tidy) {b : BlockId} {x : ValueId}
    (hx : x ∈ f.programInsts b) :
    f'.isAlloca x = f.isAlloca x ∧ f'.isPointerLoad x = f.isPointerLoad x ∧
      f'.isPointerStore x = f.isPointerStore x ∧ f'.isPointerPhi x = f.isPointerPhi x ∧
      ∀ wanted, f'.wants wanted x = f.wants wanted x := by
  have hlisted := List.mem_of_mem_filter hx
  obtain ⟨inst, hinst⟩ := T.listed hlisted
  have hkind : f.kind? x = some inst.kind := kind?_of_inst? hinst
  have hkind' := R.kind? hlisted hkind
  have hpointer : f'.isPointerValue x = f.isPointerValue x := by
    rw [isPointerValue, isPointerValue, R.type_eq]
  have hoperand : ∀ operand, f'.isPointerOperand (change operand) = f.isPointerOperand operand := by
    intro operand
    cases operand with
    | value v => rw [C.value, isPointerOperand_value, isPointerOperand_value, isPointerValue,
        isPointerValue, R.type_eq]
    | const c =>
      obtain ⟨c', hc', hty⟩ := C.const c
      rw [hc', isPointerOperand, isPointerOperand, operandType, operandType, hty]
  rw [isAlloca, isAlloca, isPointerLoad, isPointerLoad, isPointerStore,
    isPointerStore, isPointerPhi, isPointerPhi, hpointer]
  simp only [wants, hkind, hkind']
  cases inst.kind <;> simp [InstKind.mapOperands, hoperand, C.isNull]

theorem Accounts.readdresses (A : Accounts env f' g r) (R : f.Readdresses change f')
    (C : Operand.Readdressing change) (T : f.Tidy) :
    Accounts env f g r := by
  have hcounts : ∀ (blocks : List BlockId) (q q' : ValueId → Bool),
      (∀ b x, x ∈ f.programInsts b → q' x = q x) →
      (blocks.flatMap f'.programInsts).countP q' = (blocks.flatMap f.programInsts).countP q := by
    intro blocks q q' hsame
    have hprogram : f'.programInsts = f.programInsts := funext fun _ => R.programInsts_eq T
    rw [hprogram]
    refine List.countP_congr fun x hx => ?_
    obtain ⟨b, -, hx⟩ := List.mem_flatMap.mp hx
    rw [hsame b x hx]
  have hinsertions : f'.insertions g = f.insertions g := by
    rw [insertions, insertions, R.size_eq]
  have hcalls : env.callsAdded f' g = env.callsAdded f g := by
    funext routines
    rw [Env.callsAdded, Env.callsAdded, hinsertions]
  have hblocks : f'.blockIds = f.blockIds := by rw [blockIds, blockIds, R.blocks_eq]
  refine ⟨hcalls ▸ A.spatialChecks, hcalls ▸ A.temporalChecks, hcalls ▸ A.callChecks,
    hcalls ▸ A.metadataCopies, hcalls ▸ A.metadataLoads, hcalls ▸ A.metadataStores,
    hcalls ▸ A.framesOpened, hcalls ▸ A.framesClosed, ?_, fun hentry => ?_, ?_, ?_⟩
  · rw [phisAdded, ← hinsertions]
    exact A.phis
  · rw [← R.successors_eq T, ← R.programInsts_eq T] at hentry
    obtain ⟨blocks, hnodup, hreach, hallocas, hloads, hstores, hphis⟩ := A.gathered hentry
    refine ⟨blocks, hnodup, fun b => (hreach b).trans (reachable_congr (R.flowGraph_eq T)),
      ?_, ?_, ?_, ?_⟩
    · rw [hallocas, hcounts _ _ _ fun b x hx => (R.counts_eq C T hx).1]
    · rw [hloads, hcounts _ _ _ fun b x hx => (R.counts_eq C T hx).2.1]
    · rw [hstores, hcounts _ _ _ fun b x hx => (R.counts_eq C T hx).2.2.1]
    · rw [hphis, hcounts _ _ _ fun b x hx => (R.counts_eq C T hx).2.2.2.1]
  · rw [A.bounds, hblocks, hcounts _ _ _ fun b x hx => (R.counts_eq C T hx).2.2.2.2 _]
  · rw [A.keys, hblocks, hcounts _ _ _ fun b x hx => (R.counts_eq C T hx).2.2.2.2 _]

namespace Module

variable {m m' : Module} {config : Config}

/-- The report of a run agrees with what became of each function of the program. -/
theorem instrument_accounts {report : Report} (hm : m.WellFormed)
    (h : (instrument config).Runs m report m') :
    ∃ prepared u, (prepare config).Runs m prepared u ∧
      List.Forall₂ (fun id r => ∃ f, m.function id = .ok f ∧
        ∃ turn : Turn config u.interface prepared.routines u m' id, turn.s.report = r ∧
          Accounts turn.env f turn.s.func r) m.targets report.functions := by
  obtain ⟨prepared, u, hprepare, hturns⟩ := exists_turns hm h
  refine ⟨prepared, u, hprepare, hturns.imp ?_⟩
  rintro id r ⟨f, hf, turn, rfl, S⟩
  obtain ⟨change, C, R⟩ := S.readdresses
  have A := turn.passes.piped.accounts S.wellFormed.tidy S.wellFormed.paramsFirst S.nonempty S.fresh
    S.distinct (turn.passes.grows S.wellFormed.tidy)
  exact ⟨f, hf, turn, rfl, A.readdresses R C S.tidy⟩

end Module

/-! ### A chain that is followed and a way that is cut off -/

/-- Follow a chain of pointers, keep the last one on the stack, and start again behind it. -/
def followFunction : Function := .ofBlocks ⟨0⟩ "follow" ⟨.void, [.ptr .voidPtr], false⟩ [
  [(.ptr .voidPtr, .alloca .voidPtr none), (.void, .jump ⟨1⟩)],
  [(.ptr .voidPtr, .phi [(val 0, ⟨0⟩), (val 5, ⟨1⟩)]), (.voidPtr, .load (val 3)),
    (.ptr .voidPtr, .cast .bitcast (val 4)), (.void, .store (val 4) (val 1)),
    (.void, .branch (.const (.int 1 1)) ⟨1⟩ ⟨2⟩)],
  [(.void, .call (.const (.func ⟨0⟩ (.functionPtr ⟨.void, [.ptr .voidPtr], false⟩))) [val 5]
    ⟨.void, [.ptr .voidPtr], false⟩), (.void, .ret none)]]

def followModule : Module := { name := "follow", width := .bits64, functions := #[followFunction] }

/-- There is one of everything: an allocation, a load, a store and a phi of a pointer, and a
call. -/
theorem instrument_accounts_followModule :
    followModule.WellFormed ∧
      ∃ report m', (Module.instrument {}).Runs followModule report m' ∧
        report.functions.map (fun r => [r.stackAllocations, r.metadataLoads, r.metadataStores,
          r.placeholderPhis, r.shadowStackFrames, r.spatialChecks, r.temporalChecks,
          r.temporalEliminated]) = [[1, 1, 1, 1, 1, 1, 1, 1]] ∧
        ∃ prepared u, (Module.prepare {}).Runs followModule prepared u ∧
          List.Forall₂ (fun id r => ∃ f, followModule.function id = .ok f ∧
            ∃ turn : Module.Turn {} u.interface prepared.routines u m' id, turn.s.report = r ∧
              Accounts turn.env f turn.s.func r) followModule.targets report.functions := by
  have hm : followModule.WellFormed := by decide +kernel
  obtain ⟨report, hrun, hcounters⟩ : ∃ report, (Module.instrument {}).Runs followModule report _ ∧
      report.functions.map (fun r => [r.stackAllocations, r.metadataLoads, r.metadataStores,
        r.placeholderPhis, r.shadowStackFrames, r.spatialChecks, r.temporalChecks,
        r.temporalEliminated]) = [[1, 1, 1, 1, 1, 1, 1, 1]] :=
    Edit.exists_runs_of_map (by decide +kernel)
  exact ⟨hm, report, _, hrun, hcounters, Module.instrument_accounts hm hrun⟩

/-- Put a null pointer on the stack, in a block that is entered by a jump which is not an
instruction of the program. -/
def detourFunction : Function :=
  (Function.ofBlocks ⟨0⟩ "detour" ⟨.void, [], false⟩ [
    [(.void, .jump ⟨1⟩)],
    [(.ptr (.ptr (.int 32)), .alloca (.ptr (.int 32)) none),
      (.void, .store (.const (.null (.ptr (.int 32)))) (val 1)),
      (.void, .ret none)]]).withInserted 0

def detourModule : Module := { name := "detour", width := .bits64, functions := #[detourFunction] }

/-- The request of a key for the allocation cuts the jump off, and the store is not recorded: the
counters are no longer those of the blocks that could be reached. -/
theorem instrument_not_gathered_detourModule :
    detourModule.WellFormed ∧ detourFunction.verify = .ok () ∧ detourFunction.Reachable ⟨1⟩ ∧
      ⟨⟨0⟩, 2⟩ ∈ detourFunction.programInsts ⟨1⟩ ∧ detourFunction.isPointerStore ⟨⟨0⟩, 2⟩ ∧
      ∃ report m', (Module.instrument { verifyOutput := false }).Runs detourModule report m' ∧
        report.functions.map (fun r => (r.stackAllocations, r.metadataStores)) = [(1, 0)] := by
  have hblocks : detourFunction.bfsBlocks? = some [⟨0⟩, ⟨1⟩] := by decide +kernel
  have hreach : detourFunction.Reachable ⟨1⟩ :=
    (Function.mem_bfsBlocks_iff (by decide) hblocks).mp (by decide)
  obtain ⟨report, hrun, hcounters⟩ : ∃ report,
      (Module.instrument { verifyOutput := false }).Runs detourModule report _ ∧
        report.functions.map (fun r => (r.stackAllocations, r.metadataStores)) = [(1, 0)] :=
    Edit.exists_runs_of_map (by decide +kernel)
  exact ⟨by decide +kernel, by decide +kernel, hreach, by decide, by decide, report, _,
    hrun, hcounters⟩

end PointerGuard
