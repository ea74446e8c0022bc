import PointerGuard.Proofs.Instrumenting
import PointerGuard.Proofs.Samples

/-!
# Erasure

Whether instrumentation succeeds or fails, the program is still there. Without the inserted
instructions the blocks of a function are those it had; only uses of library routines may have been
redirected. What is inserted never decides where control goes.
-/

namespace PointerGuard

open Edit Outcome

variable {t : RoutineTable} {p : Routine → Prop} {m : Module}

/-! ### What is left of a function -/

/-- What instrumentation inserts into functions of a module: computations of addresses, choices,
phis, parts of aggregates, and calls of routines that the module declares. -/
inductive InstKind.Inserted (m : Module) : InstKind → Prop
  | bitcast {value} : Inserted m (.cast .bitcast value)
  | gep {base indices} : Inserted m (.gep base indices)
  | select {cond ifTrue ifFalse} : Inserted m (.select cond ifTrue ifFalse)
  | phi {incoming} : Inserted m (.phi incoming)
  | extract {aggregate index} : Inserted m (.extract aggregate index)
  | call {r : Routine} {id args} : r.DeclaredAt m id →
      Inserted m (.call (.const (.func id (.functionPtr (r.signature m.width)))) args
        (r.signature m.width))

/-- The value with the operands of its instruction changed. -/
def ValueInfo.mapOperands (change : Operand → Operand) (info : ValueInfo) : ValueInfo :=
  match info.origin with
  | .param _ => info
  | .inst inst => { info with origin := .inst { inst with kind := inst.kind.mapOperands change } }

namespace Function

/-- All instructions that a function lists are instructions of the program. -/
def AllOriginal (f : Function) : Prop := ∀ b, ∀ x ∈ f.instsOf b, f.isProgramInst x

instance {f : Function} : Decidable f.AllOriginal :=
  decidable_of_iff (∀ x ∈ f.listing, f.isProgramInst x)
    ⟨fun h b x hx => h x (mem_listing.mpr ⟨b, hx⟩), fun h x hx => by
      obtain ⟨b, hx⟩ := mem_listing.mp hx
      exact h b x hx⟩

/-- How operands of a function are redirected, if any are. -/
def redirection (r? : Option Redirection) (f : Function) : Operand → Operand :=
  match r? with
  | none => fun operand => operand
  | some r => if f.isTarget then fun operand => (r.onOperand operand).1 else fun operand => operand

/-- Deleting what was inserted into a function of a module gives another function back, up to a
change of operands. -/
structure Erases (m : Module) (change : Operand → Operand) (f g : Function) : Prop where
  id_eq : g.id = f.id
  signature_eq : g.signature = f.signature
  attrs_eq : g.attrs = f.attrs
  size_blocks : g.blocks.size = f.blocks.size
  programInsts_eq : ∀ b, g.programInsts b = f.instsOf b
  size_le : f.values.size ≤ g.values.size
  value?_eq : ∀ {v info}, f.value? v = some info →
    g.value? v = some (if v ∈ f.listedInsts then info.mapOperands change else info)
  inserted : ∀ {v info}, f.values.size ≤ v.index → g.value? v = some info →
    ∃ inst, info.origin = .inst inst ∧ inst.inserted = true ∧ inst.kind.Inserted m
  successors_eq : ∀ b, g.successors b = f.successors b
  predecessors_eq : ∀ b, g.predecessors b = f.predecessors b

variable {f g g₁ : Function} {r? : Option Redirection} {kind : InstKind}

theorem attrs_redirected : (f.redirected r?).attrs = f.attrs := by
  cases r? with
  | none => rfl
  | some r =>
    rw [redirected]
    split
    · rw [redirect_eq]
    · rfl

theorem mapOperands_self : (kind.mapOperands fun operand => operand) = kind := by
  cases kind <;> simp [InstKind.mapOperands]

theorem readdresses_self : f.Readdresses (fun operand => operand) f :=
  ⟨rfl, rfl, rfl, rfl, fun _ => rfl, fun h => h, fun _ h => by rw [mapOperands_self]; exact h⟩

theorem readdressing_redirection : Operand.Readdressing (f.redirection r?) := by
  cases r? with
  | none => exact .id
  | some r =>
    rw [redirection]
    split
    · exact r.readdressing
    · exact .id

theorem readdresses_redirected (T : f.Tidy) :
    f.Readdresses (f.redirection r?) (f.redirected r?) := by
  cases r? with
  | none => exact readdresses_self
  | some r =>
    rw [redirection, redirected]
    split
    · exact readdresses_redirect T r
    · exact readdresses_self

theorem value?_redirected (T : f.Tidy) (r? : Option Redirection) {v : ValueId} {info : ValueInfo}
    (h : f.value? v = some info) : (f.redirected r?).value? v =
      some (if v ∈ f.listedInsts then info.mapOperands (f.redirection r?) else info) := by
  have hself : (info.mapOperands fun operand => operand) = info := by
    obtain ⟨ty, origin⟩ := info
    cases origin with
    | param position => rfl
    | inst inst => simp only [ValueInfo.mapOperands, mapOperands_self]
  cases r? with
  | none => simp [redirection, redirected, h, hself]
  | some r =>
    rw [redirection, redirected]
    split
    · have R := redirected_redirect (r := r) T
      split
      · rename_i hlisted
        -- only instructions are listed
        obtain ⟨inst, hinst⟩ := Option.isSome_iff_exists.mp (List.mem_filter.mp hlisted).2
        obtain ⟨ty, hvalue⟩ := inst?_eq_some_iff.mp hinst
        cases h.symm.trans hvalue
        exact R.inst hlisted hvalue
      · rename_i hlisted
        rw [R.rest v hlisted, h]
    · simp [h, hself]

theorem AllOriginal.programInsts_eq (h : f.AllOriginal) (b : BlockId) :
    f.programInsts b = f.instsOf b :=
  List.filter_eq_self.mpr (h b)

theorem inserted_of_weft (hp : ∀ r, p r → r.DeclaredAt m (t.id r) ∧ t.width = m.width)
    (h : kind.Weft t p ∨ kind.isPhi) : kind.Inserted m := by
  rcases h with h | h
  · cases h with
    | gep => exact .gep
    | bitcast => exact .bitcast
    | select => exact .select
    | phi => exact .phi
    | extract => exact .extract
    | @call r args hr =>
      obtain ⟨hdeclared, hwidth⟩ := hp r hr
      have hsig : t.signature r = r.signature m.width := by rw [RoutineTable.signature, hwidth]
      rw [RoutineTable.callee, hsig]
      exact .call hdeclared
  · cases kind with
    | phi => exact .phi
    | _ => cases h

/-- Where every instruction belongs to the program, growing leaves control flow as it is: a first
block without instructions had no way out to lose. -/
theorem AllOriginal.successors_eq (h : f.AllOriginal) (T : f.Tidy) (G : f.Grows t p g)
    (b : BlockId) : g.successors b = f.successors b := by
  rcases G.successors_eq T b with hsame | ⟨-, hnone, hlost⟩
  · exact hsame
  · rw [h.programInsts_eq] at hnone
    rw [hlost, successors, terminator?, hnone]
    rfl

private theorem predecessors_congr (hsize : g.blocks.size = f.blocks.size)
    (h : ∀ b, g.successors b = f.successors b) (b : BlockId) :
    g.predecessors b = f.predecessors b := by
  rw [predecessors, predecessors, blockIds, blockIds, hsize, funext h]

/-- A function that has been redirected and furnished, and has grown, can be had back. -/
theorem erases_of_grows (hf : f.WellFormed) (horiginal : f.AllOriginal)
    (hbody : f.isDeclaration = false) (F : (f.redirected r?).Furnishes g₁) (G : g₁.Grows t p g)
    (hp : ∀ r, p r → r.DeclaredAt m (t.id r) ∧ t.width = m.width) :
    f.Erases m (f.redirection r?) g := by
  have R : f.Readdresses (f.redirection r?) (f.redirected r?) := readdresses_redirected hf.tidy
  -- the label is not part of what can be had back
  obtain ⟨name, flags, rfl⟩ : ∃ name flags, g₁ = (f.redirected r?).relabel name flags :=
    ⟨_, _, (F.body (isDeclaration_redirected.trans hbody)).eq_relabel⟩
  have T₀ : (f.redirected r?).Tidy := R.tidy hf.tidy
  have T : ((f.redirected r?).relabel name flags).Tidy := ⟨T₀.listed, T₀.nodup, T₀.block_eq⟩
  have horiginal' : ((f.redirected r?).relabel name flags).AllOriginal := by
    intro b
    refine List.filter_eq_self.mp ?_
    show (f.redirected r?).programInsts b = (f.redirected r?).instsOf b
    rw [R.programInsts_eq hf.tidy, R.instsOf_eq, horiginal.programInsts_eq]
  have hsuccessors : ∀ b, g.successors b = f.successors b := by
    intro b
    rw [← R.successors_eq hf.tidy]
    exact horiginal'.successors_eq T G b
  have hsize : g.blocks.size = f.blocks.size :=
    G.size_blocks.trans (congrArg Array.size R.blocks_eq)
  have hvalues : ((f.redirected r?).relabel name flags).values.size = f.values.size := R.size_eq
  constructor
  case id_eq => exact G.id_eq.trans R.id_eq
  case signature_eq =>
    rw [G.header]
    exact R.signature_eq
  case attrs_eq =>
    rw [G.header]
    exact attrs_redirected
  case size_blocks => exact hsize
  case programInsts_eq =>
    intro b
    rw [G.programInsts_eq T, horiginal'.programInsts_eq]
    exact R.instsOf_eq
  case size_le => exact hvalues ▸ G.size_le
  case value?_eq =>
    intro v info hvalue
    have hlt : v.index < f.values.size := (index_lt_of_value? hvalue).2
    rw [G.value?_eq (hvalues ▸ hlt)]
    exact value?_redirected hf.tidy _ hvalue
  case inserted =>
    intro v info hnew hvalue
    obtain ⟨inst, horigin, hmarked, hkind, -⟩ := G.new_value hvalue (hvalues ▸ hnew)
    exact ⟨inst, horigin, hmarked, inserted_of_weft hp hkind⟩
  case successors_eq => exact hsuccessors
  case predecessors_eq => exact predecessors_congr hsize hsuccessors

end Function

/-! ### What is left of a module -/

/-- Deleting what was inserted into a module gives back another one, up to names and flags of
functions and to bodies that were not there, except that uses of library routines may have been
redirected to their wrappers, in all functions of the program and in all initializers. -/
structure Module.Erases (r? : Option Redirection) (m m' : Module) : Prop where
  wraps : ∀ r, r? = some r → r.Wraps m'
  globals_eq : m'.globals = m.globals.map (Global.redirected r?)
  function : ∀ {id f}, m.function id = .ok f → f.isDeclaration = false →
    ∃ g, m'.function id = .ok g ∧ f.Erases m' (f.redirection r?) g

namespace Module

variable {m' m'' : Module} {config : Config}

theorem Grows.keepsHeads (G : m.Grows t p m') : m.KeepsHeads m' where
  width_eq := G.width_eq
  function h := by
    obtain ⟨g, hg, hfg⟩ := G.function h
    exact ⟨g, hg, .of_sameHead hfg.sameHead⟩

/-- Whatever has been prepared, and has grown since, can be had back. -/
theorem Readies.erases (h : m.Readies m') (G : m'.Grows t p m'') (hm : m.WellFormed)
    (horiginal : ∀ id f, m.function id = .ok f → f.AllOriginal)
    (hp : ∀ r, p r → r.DeclaredAt m' (t.id r) ∧ t.width = m'.width) : ∃ r?, m.Erases r? m'' := by
  obtain ⟨r?, P, hwraps⟩ := h
  refine ⟨r?, fun r hr => (hwraps r hr).of_keepsHeads G.keepsHeads,
    G.globals_eq.trans P.globals_eq, fun {id f} hf hbody => ?_⟩
  obtain ⟨g₁, hg₁, F⟩ := P.function hf
  obtain ⟨g, hg, hgrows⟩ := G.function hg₁
  refine ⟨g, hg, Function.erases_of_grows (hm.wellFormed hf) (horiginal id f hf) hbody F hgrows
    fun r hr => ?_⟩
  obtain ⟨hdeclared, hwidth⟩ := hp r hr
  exact ⟨hdeclared.of_keepsHeads G.keepsHeads, hwidth.trans G.width_eq.symm⟩

/-- Instrumentation only adds. Whatever its outcome, deleting what it has inserted gives the program
back, up to uses of library routines. -/
theorem instrument_erases (hm : m.WellFormed)
    (horiginal : ∀ id f, m.function id = .ok f → f.AllOriginal) :
    ∃ r?, m.Erases r? ((instrument config).apply m).2 := by
  suffices h : (instrument config).EndsIn m (fun u => ∃ r?, m.Erases r? u) Any from h.1
  rw [instrument_eq]
  have hprepare : (prepare config).EndsIn m m.Readies (·.isOrdinary) := prepare_endsIn hm
  refine EndsIn.bind ?_ fun prepared u hrun _ => ?_
  · -- as long as nothing is inserted, no routine needs to be declared
    refine hprepare.mono (fun u h => ?_) fun _ _ => trivial
    have hu : u.WellFormed := by
      obtain ⟨r?, P, -⟩ := h
      exact P.wellFormed
    exact h.erases (p := fun _ => False) (.refl (t := ⟨u.width, []⟩) hu) hm horiginal nofun
  · have hready := hprepare.of_runs hrun
    obtain ⟨-, htargets, hdeclared, -⟩ := of_runs_prepare hm hrun
    have hu : u.WellFormed := by
      obtain ⟨r?, P, -⟩ := hready
      exact P.wellFormed
    have hgrown : ∀ v, u.Grows prepared.routines Any v → ∃ r?, m.Erases r? v :=
      fun v G => hready.erases G hm horiginal fun r _ =>
        ⟨hdeclared.declaredAt r, hdeclared.width_eq⟩
    refine endsIn_get_bind (EndsIn.bind ?_ fun _ _ _ h => endsIn_pure h)
    refine (instrumentAll_endsIn (V := Any) hu (htargets ▸ nodup_targets hm)
      (fun _ _ _ _ => rfl) (fun _ _ => trivial) (fun _ _ _ _ => trivial)
      fun _ _ _ _ _ _ _ _ _ _ _ => trivial).mono hgrown fun _ h => h

end Module

/-! ### A program that allocates

A function that takes memory from the library and writes to it, and a global that holds the address
of the allocator. Both uses of the allocator are redirected. -/

/-- The library routine. -/
def allocator : Function := .declaration ⟨0⟩ "malloc" ⟨.voidPtr, [.int 64], false⟩

/-- Allocate, and write through what comes back. -/
def allocMain : Function := .ofBlocks ⟨1⟩ "main" ⟨.int 32, [], false⟩ [
  [(.voidPtr, .call (.const (.func ⟨0⟩ allocator.pointerType)) [.const (.int 64 8)]
      allocator.signature),
    (.ptr (.int 32), .cast .bitcast (.value ⟨⟨1⟩, 0⟩)),
    (.void, .store (.const (.int 32 7)) (.value ⟨⟨1⟩, 1⟩)),
    (.void, .ret (some (.const (.int 32 0))))]]

def allocModule : Module where
  name := "alloc"
  width := .bits64
  globals :=
    #[⟨⟨0⟩, "allocate", allocator.pointerType, some (.func ⟨0⟩ allocator.pointerType), false⟩]
  functions := #[allocator, allocMain]

theorem instrument_erases_allocModule :
    allocModule.WellFormed ∧ ((Module.instrument {}).apply allocModule).1.isOk ∧
      ∃ r?, allocModule.Erases r? ((Module.instrument {}).apply allocModule).2 := by
  have hm : allocModule.WellFormed := by decide +kernel
  have horiginal : ∀ id f, allocModule.function id = .ok f → f.AllOriginal := by
    intro id f hf
    have hall : ∀ f ∈ allocModule.functions, f.AllOriginal := by decide +kernel
    exact hall f (Array.mem_of_getElem? (Module.function_eq_ok_iff.mp hf))
  exact ⟨hm, by decide +kernel, Module.instrument_erases hm horiginal⟩

end PointerGuard
