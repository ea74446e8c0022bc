import Mathlib.Algebra.Group.Prod
import PointerGuard.Proofs.CallingConvention
import PointerGuard.Proofs.Tallies

/-!
# Reports that agree with the rewritten functions

The counters of a report are read back from the function that the passes leave: each is the number
of the inserted calls it stands for, the inserted phis are those of the counted pointer phis, and
everything was gathered once for each reachable instruction.
-/

namespace PointerGuard

open Edit PointerGuard.Function Env

variable {routines : List Routine} {f g : Function} {p : Routine → Prop} {env : Env}
  {prices : Prices} {rest : List ValueId} {kind : InstKind} {r r' : FunctionReport} {α : Type}

/-! ### What was inserted -/

theorem sum_map_ite_eq_mul_countP (items : List α) (q : α → Bool) (c : ℤ) :
    (items.map fun a => if q a then c else 0).sum = c * items.countP q := by
  induction items with
  | nil => simp
  | cons a rest ih =>
    rw [List.map_cons, List.sum_cons, ih, List.countP_cons]
    push_cast
    split <;> ring

namespace Function

variable {t : RoutineTable} {value : InstKind → ℤ}

/-- The instructions of a function that another did not have. -/
def insertions (f g : Function) : List ValueId := g.listing.filter fun x => f.values.size ≤ x.index

/-- What a value is worth if it is an instruction. -/
def worthOf (f : Function) (value : InstKind → ℤ) (x : ValueId) :
    ℤ := ((f.kind? x).map value).getD 0

private theorem worth_eq_sum : f.worth value =
    ((List.range f.values.size).map fun i => f.worthOf value (f.valueAt i)).sum := by
  rw [worth]
  congr 1
  refine List.ext_getElem (by simp) fun i hi hi' => ?_
  have hi : i < f.values.size := by simpa using hi
  have hvalue : f.value? (f.valueAt i) = some f.values[i] := by
    rw [value?, valueAt, if_pos rfl, Array.getElem?_eq_getElem hi]
  simp only [List.getElem_map, Array.getElem_toList, List.getElem_range, worthOf, kind?, inst?,
    hvalue]
  obtain ⟨ty, origin⟩ := f.values[i]
  cases origin <;> rfl

/-- What a function has grown to is worth more by what was inserted. -/
theorem Grows.worth_eq (G : f.Grows t p g) (T : f.Tidy) :
    g.worth value = f.worth value + ((f.insertions g).map (g.worthOf value)).sum := by
  obtain ⟨k, hk⟩ := Nat.exists_eq_add_of_le G.size_le
  have hold : (List.range f.values.size).map (fun i => g.worthOf value (g.valueAt i)) =
      (List.range f.values.size).map fun i => f.worthOf value (f.valueAt i) := by
    refine List.map_congr_left fun i hi => ?_
    rw [worthOf, worthOf, valueAt, valueAt, G.id_eq,
      kind?_congr (G.value?_eq (List.mem_range.mp hi))]
  have hnew : ((List.range k).map fun i => g.valueAt (f.values.size + i)).Perm
      (f.insertions g) := by
    refine (List.perm_ext_iff_of_nodup (List.Nodup.map (fun i j h => ?_) List.nodup_range)
      ((G.tidy T).nodup_listing.filter _)).mpr fun x => ?_
    · simpa [valueAt] using h
    · rw [List.mem_map, List.mem_filter, mem_listing, decide_eq_true_iff]
      constructor
      · rintro ⟨i, hi, rfl⟩
        have hlt : f.values.size + i < g.values.size := by
          have := List.mem_range.mp hi
          omega
        have hvalue : g.value? (g.valueAt (f.values.size + i)) =
            some g.values[f.values.size + i] := by
          rw [value?, valueAt, if_pos rfl, Array.getElem?_eq_getElem hlt]
        obtain ⟨inst, -, -, -, hlisted⟩ := G.new_value hvalue (Nat.le_add_right ..)
        exact ⟨⟨_, hlisted⟩, Nat.le_add_right ..⟩
      · rintro ⟨⟨b, hx⟩, hle⟩
        obtain ⟨inst, hinst⟩ := (G.tidy T).listed hx
        obtain ⟨hfunc, hlt⟩ := index_lt_of_inst? hinst
        refine ⟨x.index - f.values.size, List.mem_range.mpr (by omega), ?_⟩
        rw [valueAt, Nat.add_sub_cancel' hle, ← hfunc]
  rw [worth_eq_sum, worth_eq_sum, hk, List.range_add, List.map_append, List.sum_append, hold,
    List.map_map]
  rw [← (hnew.map (g.worthOf value)).sum_eq, List.map_map]
  rfl

end Function

def Env.callsAdded (env : Env) (f g : Function) (routines : List Routine) : Nat :=
  (f.insertions g).countP fun x => (g.kind? x).any (env.calls (· ∈ routines))

def Function.phisAdded (f g : Function) : Nat :=
  (f.insertions g).countP fun x => (g.kind? x).any InstKind.isPhi

/-- Prices at which the calls of some routines cost as much as is counted for them. -/
def Prices.ofCalls (routines : List Routine) : Prices where
  call r := if r ∈ routines then 1 else 0
  phi := 0
  allocas := 0
  loads := -(if .metadataLoad ∈ routines then 1 else 0)
  stores := -(if .metadataStore ∈ routines then 1 else 0)
  phis := 0
  frame := 0

/-- What is counted for the calls of some routines. -/
def FunctionReport.callsCounted (r : FunctionReport) (routines : List Routine) : Nat :=
  (if .spatialLoadCheck ∈ routines then r.spatialChecks else 0) +
    (if .temporalLoadCheck ∈ routines then r.temporalChecks else 0) +
    (if .spatialCallCheck ∈ routines then r.callChecks else 0) +
    (if .copyMetadata ∈ routines then r.metadataCopies else 0) +
    (if .metadataLoad ∈ routines then r.metadataLoads else 0) +
    (if .metadataStore ∈ routines then r.metadataStores else 0) +
    (if .allocateFrame ∈ routines then r.shadowStackFrames else 0) +
    if .deallocateFrame ∈ routines then r.shadowStackFrames else 0

theorem FunctionReport.worth_ofCalls : r.worth (.ofCalls routines) = -r.callsCounted routines := by
  simp only [worth, Prices.ofCalls, callsCounted, add_mul, neg_mul, ite_mul, one_mul, zero_mul]
  push_cast
  ring

/-- Prices at which phis cost as much as is counted for them. -/
def Prices.ofPhis (tracked : Nat) : Prices where
  call _ := 0
  phi := 1
  allocas := 0
  loads := 0
  stores := 0
  phis := -tracked
  frame := 0

/-- Prices at which nothing that is inserted costs anything. -/
def Prices.ofCounters (allocas loads stores phis : ℤ) : Prices :=
  ⟨fun _ => 0, 0, allocas, loads, stores, phis, 0⟩

section

theorem Env.price_ofCalls (hdistinct : env.Distinct) :
    env.price (.ofCalls routines) kind = if env.calls (· ∈ routines) kind then 1 else 0 := by
  cases kind with
  | call callee args sig =>
    rw [price, calls]
    split
    · rename_i r hfind
      have hcallee := List.find?_some hfind
      rw [decide_eq_true_iff] at hcallee
      have hiff : (Routine.all.any fun r' =>
          decide (r' ∈ routines) && decide (callee = env.routines.callee r')) ↔ r ∈ routines := by
        rw [List.any_eq_true]
        constructor
        · rintro ⟨r', -, h'⟩
          rw [Bool.and_eq_true, decide_eq_true_iff, decide_eq_true_iff] at h'
          exact hdistinct r r' (hcallee.trans h'.2) ▸ h'.1
        · grind
      simp only [Prices.ofCalls, hiff]
    · grind
  | phi incoming => rfl
  | _ => rfl

theorem Env.price_of_free (hcall : ∀ r, prices.call r = 0) :
    env.price prices kind = if kind.isPhi then prices.phi else 0 := by
  cases kind with
  | call callee args sig =>
    rw [price]
    split
    · exact hcall _
    · rfl
  | _ => rfl

theorem Function.sum_worthOf {value : InstKind → ℤ} {q : InstKind → Bool}
    (hvalue : ∀ kind, value kind = if q kind then 1 else 0) (xs : List ValueId) :
    (xs.map (g.worthOf value)).sum = xs.countP fun x => (g.kind? x).any q := by
  rw [← one_mul (List.countP _ _ : ℤ), ← sum_map_ite_eq_mul_countP]
  congr 1
  refine List.map_congr_left fun x _ => ?_
  rw [worthOf]
  cases g.kind? x with
  | none => rfl
  | some kind => exact hvalue kind

end

/-- Does an instruction access memory through a pointer that is not literally null, so that a check
that is wanted for such accesses is wanted for it? -/
def Function.wants (f : Function) (wanted : Access → Bool) (id : ValueId) : Bool :=
  match f.kind? id with
  | some (.load ptr) => !ptr.isNull && wanted .load
  | some (.store _ ptr) => !ptr.isNull && wanted .store
  | _ => false

namespace FunctionReport

/-- The checks of accesses that were inserted or left out, of bounds and of keys. -/
def settled (r : FunctionReport) : Nat × Nat :=
  (r.spatialChecks + r.spatialEliminatedConstantIndex, r.temporalChecks + r.temporalEliminated)

theorem settled_congr (h : r.tally = r'.tally) : r.settled = r'.settled := by
  simp only [tally, List.cons.injEq] at h
  obtain ⟨h₁, h₂, h₃, h₄, h₅, h₆, -⟩ := h
  rw [settled, settled, temporalEliminated, temporalEliminated, h₁, h₂, h₃, h₄, h₅, h₆]

/-- A verdict that is passed is counted once, whatever it is. -/
theorem settled_note {v : Verdict Unit × Verdict Tier} :
    ((r.noteBounds v.1).noteKey v.2).settled = r.settled +
      ((decide (v.1 ≠ .unwanted)).toNat, (decide (v.2 ≠ .unwanted)).toNat) := by
  obtain ⟨bounds, key⟩ := v
  rcases bounds with _ | _ | _ <;> rcases key with _ | (_ | _ | _) | _ <;>
    simp [settled, noteBounds, noteKey, countEliminated, temporalEliminated] <;> omega

end FunctionReport

/-! ### What becomes due -/

section

variable {id : ValueId}

section

variable (h : g.value? id = f.value? id)

include h

theorem Function.isAlloca_congr : g.isAlloca id = f.isAlloca id := by
  rw [isAlloca, isAlloca, kind?_congr h]

theorem Function.makes_congr : g.makes id = f.makes id := by
  simp only [makes, isAlloca_congr h, isPointerLoad, isPointerPhi, kind?_congr h,
    isPointerValue_congr h]

theorem Env.creationDue_congr : env.creationDue prices g id = env.creationDue prices f id := by
  rw [creationDue, creationDue, isAlloca_congr h, isPointerLoad,
    isPointerLoad, isPointerPhi, isPointerPhi, kind?_congr h,
    isPointerValue_congr h]

end

end

namespace Weaving

variable {own : ValueId → Prop} {store : Store} {s s' t t' u : Weaving} {id x : ValueId}
  {done : Bool}

/-- The record of a value has the key of the frame. -/
def HoldsFrameKey (s : Weaving) (x : ValueId) : Prop :=
  ∃ md frameKey, s.store.lookup x = some md ∧ md.temporal = some frameKey ∧
    s.frameKey = some frameKey

theorem HoldsFrameKey.of_kept (h : s.HoldsFrameKey x) (K : Kept own s u) : u.HoldsFrameKey x := by
  obtain ⟨md, frameKey, hlookup, htemporal, hframeKey⟩ := h
  exact ⟨md, frameKey, K.record hlookup, htemporal, K.frameKey hframeKey⟩

private theorem of_runs_requestFrameKey {frameKey : Temporal}
    (h : (requestFrameKey env).Runs s frameKey s') :
    s'.frameKey = some frameKey ∧ s'.store = s.store := by
  rw [requestFrameKey, runs_get_bind] at h
  cases hkey : s.frameKey with
  | some key => grind [runs_pure]
  | none =>
    rw [hkey] at h
    obtain ⟨_, t, hsplice, h⟩ := runs_bind.mp h
    obtain ⟨_, _, rfl, rfl, rfl⟩ := h
    obtain ⟨_, _, v, -, -, rfl⟩ := runs_splice.mp hsplice
    exact ⟨rfl, rfl⟩

theorem holdsFrameKey_of_propagate (htemporal : env.config.temporalSafety)
    (halloca : s.func.isAlloca id) (hnone : s.store.lookup id = none)
    (h : (propagate env id).Runs s done s') : s'.HoldsFrameKey id := by
  obtain ⟨inst, allocated, copies, hinst, hkind⟩ : ∃ inst allocated copies,
      s.func.inst? id = some inst ∧ inst.kind = .alloca allocated copies := by
    rw [isAlloca] at halloca
    split at halloca
    · grind [kind?_eq_some_iff]
    · cases halloca
  obtain ⟨ty, hvalue⟩ := inst?_eq_some_iff.mp hinst
  rw [propagate, runs_get_bind] at h
  simp only [hvalue, hkind, runs_bind] at h
  obtain ⟨_, w, halloca, hdone⟩ := h
  obtain ⟨-, rfl⟩ := runs_pure.mp hdone
  rw [propagateAlloca_eq] at halloca
  simp only [htemporal, if_true, runs_bind, runs_map] at halloca
  obtain ⟨_, t, ⟨frameKey, hrequest, rfl⟩, spatial, v, hspatial, _, _, hcount, hassociate⟩ :=
    halloca
  obtain ⟨hkey, hstore⟩ := of_runs_requestFrameKey hrequest
  have hsteady : v.frameKey = t.frameKey ∧ v.store = t.store := by
    by_cases hconfig : env.config.spatialSafety
    · grind [runs_splice]
    · grind [runs_pure]
  obtain rfl := runs_count.mp hcount
  obtain ⟨store, hput, rfl⟩ := runs_associate.mp hassociate
  refine ⟨⟨spatial, some frameKey⟩, frameKey, ?_, rfl, hsteady.1.trans hkey⟩
  rw [Store.associate_lookup hput (by rw [hsteady.2, hstore, hnone])]
  cases spatial <;> rfl

/-- The state of affairs while metadata is still to be created for some of the instructions. -/
structure Creating (env : Env) (p : Routine → Prop) (f : Function) (s : Weaving)
    (all todo : List ValueId) (t : Weaving) : Prop where
  gathers : Gathers env p f s (t.deferred ++ todo) t
  subset : todo ⊆ all
  waiting : ∀ x ∈ t.deferred, f.makes x = false
  paid : ∀ prices : Prices, prices.Fair →
    (∀ x ∈ all, f.isAlloca x → prices.call .stackAllocation = prices.frame) →
    env.balance prices t + (todo.map (env.creationDue prices f)).sum =
      env.balance prices s + (all.map (env.creationDue prices f)).sum
  keyed : env.config.temporalSafety → ∀ x ∈ all, f.isAlloca x → x ∈ todo ∨ t.HoldsFrameKey x

theorem Gathers.value?_eq {todo : List ValueId} (G : Gathers env p f s todo t) (W : s.Woven env p f)
    (hid : id ∈ todo) : t.func.value? id = f.value? id := by
  obtain ⟨⟨kind, hkind⟩, -⟩ := G.todo id hid
  exact (Steps.woven G.steps W).grows.value?_eq (index_lt_of_kind? hkind).2

theorem Gathers.balance_eq {front : List ValueId} (G : Gathers env p f s (front ++ id :: rest) t)
    (W : s.Woven env p f) (hdistinct : env.Distinct) (fair : prices.Fair)
    (hframe : f.isAlloca id → prices.call .stackAllocation = prices.frame)
    (h : (Weaving.propagate env id).Runs t done t') :
    env.balance prices t' = env.balance prices t + env.creationDue prices f id := by
  have hvalue := G.value?_eq W (List.mem_append_right _ (.head _))
  rw [← creationDue_congr hvalue]
  rw [← isAlloca_congr hvalue] at hframe
  exact propagate_gains hdistinct fair hframe _ _ h

theorem Creating.step {all : List ValueId} (C : Creating env p f s all (id :: rest) t)
    (W : s.Woven env p f) (hp : Lenient p) (hdistinct : env.Distinct)
    (h : (Weaving.propagateOrDefer env id).Runs t ⟨⟩ t') : Creating env p f s all rest t' := by
  have G := C.gathers.propagateOrDefer W hp h
  obtain ⟨done, u, hpropagate, rfl⟩ := runs_propagateOrDefer h
  obtain ⟨Gu, hdeferred⟩ := C.gathers.propagate W hp hpropagate
  have hmem : id ∈ t.deferred ++ id :: rest := List.mem_append_right _ (.head _)
  have hvalue := C.gathers.value?_eq W hmem
  have hid := C.subset (.head _)
  have hwaiting : ∀ x ∈ u.deferred, f.makes x = false := hdeferred ▸ C.waiting
  have Wt := Steps.woven C.gathers.steps W
  have K := (C.gathers.anew.propagate Wt hp hpropagate).1.steps.kept Wt
  have hpaid : ∀ prices : Prices, prices.Fair →
      (∀ x ∈ all, f.isAlloca x → prices.call .stackAllocation = prices.frame) →
      env.balance prices u + (rest.map (env.creationDue prices f)).sum =
        env.balance prices s + (all.map (env.creationDue prices f)).sum := by
    intro prices fair hframe
    rw [← C.paid prices fair hframe,
      C.gathers.balance_eq W hdistinct fair (hframe id hid) hpropagate,
      List.map_cons, List.sum_cons, add_assoc]
  have hkeyed : env.config.temporalSafety → ∀ x ∈ all, f.isAlloca x →
      x ∈ rest ∨ u.HoldsFrameKey x := by
    intro htemporal x hx halloca
    rcases C.keyed htemporal x hx halloca with hx | hx
    · rcases List.mem_cons.mp hx with rfl | hx
      · exact .inr (holdsFrameKey_of_propagate htemporal (isAlloca_congr hvalue ▸ halloca)
          (C.gathers.todo x hmem).2.1 hpropagate)
      · exact .inl hx
    · exact .inr (hx.of_kept K)
  cases done with
  | true => exact ⟨G, fun x hx => C.subset (.tail _ hx), hwaiting, hpaid, hkeyed⟩
  | false =>
    refine ⟨G, fun x hx => C.subset (.tail _ hx), fun x hx => ?_, hpaid, hkeyed⟩
    rcases List.mem_append.mp hx with hx | hx
    · exact hwaiting x hx
    · rw [List.mem_singleton.mp hx, ← makes_congr hvalue]
      exact makes_of_waits hpropagate

section Passes

variable (T : f.Tidy) (hfirst : f.ParamsFirst) (hstore : store.Vacant f) (hdistinct : env.Distinct)

include T hfirst hstore hdistinct

/-- The first pass creates metadata for the instructions of the blocks it visits, and then releases
the key of the frame. -/
theorem createMetadata_creates (h : (createMetadata env).Runs (.start f store) ⟨⟩ t) :
    ∃ blocks w, f.WalksOnceGrown env.routines blocks ∧
      Creating env Any f (.start f store) (blocks.flatMap f.programInsts) [] w ∧
      (releaseFrameKey env).Runs w ⟨⟩ t := by
  have W : Woven env Any f (.start f store) := ⟨T, .refl⟩
  obtain ⟨u, blocks, w, hparams, ⟨-, hqueues⟩, hblocks, G, hinsts, hrelease⟩ :=
    runs_createMetadata T hfirst hstore (fun _ _ => trivial) h
  have hnone : u.deferred = [] := congrArg (fun q => q.2.1) hqueues
  refine ⟨blocks, w, ⟨u.func, (Steps.woven G.steps W).grows, hblocks⟩, ?_, hrelease⟩
  refine forProgramInsts_induction hinsts T
    (Creating env Any f (.start f store) (blocks.flatMap f.programInsts))
    (fun C => (Steps.woven C.gathers.steps W).grows)
    ⟨G, List.Subset.refl _, by simp [hnone], fun prices fair _ => ?_, fun _ x hx _ => .inl hx⟩
    fun C hvisit => C.step W (fun _ _ => trivial) hdistinct hvisit
  rw [loadParameters_gains hdistinct fair _ _ hparams, add_zero]

end Passes

/-- The course of the passes over a function: the blocks visited first, those visited when metadata
was recorded, and the states before and after the key of the frame was released. What was inserted
and what was counted are worth what was due. -/
structure Course (env : Env) (f : Function) (store : Store) (s : Weaving)
    (created recorded : List BlockId) (w t : Weaving) : Prop where
  creates : f.WalksOnceGrown env.routines created
  records : f.WalksOnceGrown env.routines recorded
  creating : Creating env Any f (.start f store) (created.flatMap f.programInsts) [] w
  release : (releaseFrameKey env).Runs w ⟨⟩ t
  steps : Steps env Any f (·.func = f.id) t (env.beforeChecks f store)
  worth : ∀ prices : Prices, prices.Fair →
    (∀ x ∈ created.flatMap f.programInsts, f.isAlloca x →
      prices.call .stackAllocation = prices.frame) →
    ((f.insertions s.func).map (s.func.worthOf (env.price prices))).sum + s.report.worth prices =
      ((created.flatMap f.programInsts).map (env.creationDue prices f)).sum +
      ((recorded.flatMap f.programInsts).map (recordDue prices f)).sum +
      (w.releasedAt env).length * prices.call .stackDeallocation +
      if s.frameKey.isSome then prices.frame else 0

/-- Trying again costs nothing. -/
theorem resolveDeferred_pays (W : s.Woven env p f) (hp : Lenient p) (hdistinct : env.Distinct)
    (fair : prices.Fair) (G : Gathers env p f s t.deferred t)
    (hwait : ∀ x ∈ t.deferred, f.makes x = false) (h : (resolveDeferred env).Runs t ⟨⟩ t') :
    env.balance prices t' = env.balance prices t := by
  have rounds := resolveDeferred_induction h
    (fun left u => Gathers env p f s left u ∧ env.balance prices u = env.balance prices t ∧
      ∀ x ∈ left, f.makes x = false) ⟨G.steps_any W steps_forget rfl, rfl, hwait⟩ ?_
  · exact rounds.2.1
  · rintro front id rest done u u' ⟨Gu, hu, hleft⟩ hpropagate
    have hid := hleft id (List.mem_append_right _ (.head _))
    have hframe : f.isAlloca id → prices.call .stackAllocation = prices.frame := by
      intro halloca
      simp [makes, halloca] at hid
    refine ⟨(Gu.propagate W hp hpropagate).1, ?_, fun x hx => hleft x ?_⟩
    · rw [Gu.balance_eq W hdistinct fair hframe hpropagate, hu, creationDue_eq_zero hid, add_zero]
    · grind

/-- What is stored tells whether it is a pointer before anything is inserted: an operand that names
no value of the function has no metadata, whatever it may come to name. -/
theorem isPointerStore_eq (W : t.Woven env p f) (hid : id.index < f.values.size)
    (hnone : ∀ v : ValueId, ¬f.Has v → v.func = f.id → t.store.lookup v = none)
    (h : (recordStore env id).Runs t ⟨⟩ t') : t.func.isPointerStore id = f.isPointerStore id := by
  rw [recordStore, runs_get_bind] at h
  rw [isPointerStore, isPointerStore,
    ← kind?_congr (W.grows.value?_eq hid)]
  cases hkind : t.func.kind? id with
  | none => rfl
  | some kind =>
    cases kind with
    | store stored ptr =>
      rw [hkind] at h
      simp only [runs_bind, runs_operandType] at h
      obtain ⟨ty, _, ⟨htype, rfl⟩, h⟩ := h
      dsimp only
      cases hold : f.operandType stored with
      | ok ty' => rw [isPointerOperand_eq hold,
          isPointerOperand_eq (W.grows.operandType_eq hold)]
      | error e =>
        rw [isPointerOperand_eq htype, isPointerOperand, hold]
        by_contra hpointer
        rw [if_pos (by simpa using hpointer), runs_bind] at h
        obtain ⟨md, _, hresolve, -⟩ := h
        cases stored with
        | const c => cases hold
        | value v =>
          have hfunc : v.func = f.id := by
            obtain ⟨info, hvalue, -⟩ := Option.map_eq_some_iff.mp
              (operandType_value_eq_ok.mp htype)
            rw [(index_lt_of_value? hvalue).1, W.grows.id_eq]
          have hhas : ¬f.Has v := fun hhas => by grind [Has.operandType]
          rw [resolve, runs_get_bind, runs_ofExcept, Store.get, hnone v hhas hfunc] at hresolve
          cases hresolve.1
    | _ => rfl

section Passes

variable (T : f.Tidy) (hfirst : f.ParamsFirst)
  (hfresh : ∀ v : ValueId, v.func = f.id → store.lookup v = none) (hdistinct : env.Distinct)

include T hfirst hfresh hdistinct

/-- The second pass pays for the pointers that are stored in the blocks it visits. -/
theorem resolveMetadata_pays (G : Gathers env Any f (.start f store) t.deferred t)
    (hwait : ∀ x ∈ t.deferred, f.makes x = false) (h : (resolveMetadata env).Runs t ⟨⟩ s') :
    ∃ blocks, f.WalksOnceGrown env.routines blocks ∧ ∀ prices : Prices, prices.Fair →
      env.balance prices s' = env.balance prices t +
        ((blocks.flatMap f.programInsts).map (recordDue prices f)).sum := by
  have W : Woven env Any f (.start f store) := ⟨T, .refl⟩
  simp only [resolveMetadata, runs_bind, runs_bfsBlocks] at h
  obtain ⟨_, u, hdeferred, _, w, hfill, blocks, _, ⟨hblocks, rfl⟩, hstores⟩ := h
  have Gu := resolveDeferred_gathers W (fun _ _ => trivial) G hdeferred
  have Wu := Steps.woven Gu.steps W
  obtain ⟨S, hsame, -⟩ := fillPlaceholders_mirrors Wu (fun _ _ => trivial) Gu.pending hfill
  refine ⟨blocks, ⟨w.func, (S.woven Wu).grows, hblocks⟩, fun prices fair => ?_⟩
  have hw : env.balance prices w = env.balance prices t := by
    rw [fillPlaceholders_gains hdistinct fair _ _ hfill, add_zero,
      resolveDeferred_pays W (fun _ _ => trivial) hdistinct fair G hwait hdeferred]
  have hunknown : ∀ v : ValueId, ¬f.Has v → v.func = f.id → w.store.lookup v = none := by
    intro v hv hfunc
    rw [hsame, (Gu.steps.kept W).lookup fun h => hv (h.has hfirst)]
    exact hfresh v hfunc
  have loop := forProgramInsts_induction hstores T
    (fun todo t => t.Woven env Any f ∧ (∀ v ∈ todo, v.index < f.values.size) ∧
      (∀ v : ValueId, ¬f.Has v → v.func = f.id → t.store.lookup v = none) ∧
      env.balance prices t + (todo.map (recordDue prices f)).sum = env.balance prices w +
        ((blocks.flatMap f.programInsts).map (recordDue prices f)).sum)
    (fun I => I.1.grows) ⟨S.woven Wu, fun v hv => ?_, hunknown, rfl⟩ ?_
  · grind
  · obtain ⟨kind, hkind⟩ :=
      exists_kind?_of_isProgramInst (isProgramInst_of_mem_flatMap v hv)
    exact (index_lt_of_kind? hkind).2
  · rintro id rest t t' ⟨Wt, htodo, hnone, hpaid⟩ hvisit
    have hid := htodo id (.head _)
    have hdue : recordDue prices t.func id = recordDue prices f id := by
      rw [recordDue, isPointerStore_eq Wt hid hnone hvisit, recordDue]
    have step := recordStore_steps Wt trivial trivial hid hvisit
    refine ⟨step.woven Wt, fun v hv => htodo v (.tail _ hv), fun v hv hfunc => ?_, ?_⟩
    · rw [(step.kept Wt).lookup not_false, hnone v hv hfunc]
    · rw [recordStore_gains hdistinct fair _ _ hvisit, hdue, ← hpaid, List.map_cons, List.sum_cons,
        add_assoc]

/-- The passes pay for the metadata they create, for the release of the key and for the pointers
they record, and for nothing else. -/
theorem Piped.course (P : Piped env f store s) (G : f.Grows env.routines Any s.func) :
    ∃ created recorded w t, Course env f store s created recorded w t := by
  have W : Woven env Any f (.start f store) := ⟨T, .refl⟩
  have hstore : store.Vacant f := fun v hv => hfresh v hv.func_eq
  obtain ⟨t, hcreate, hresolve⟩ := P.gather
  have gathers := createMetadata_gathers T hfirst hstore (fun _ _ => trivial) hcreate
  obtain ⟨created, w, hcreated, C, hrelease⟩ :=
    createMetadata_creates T hfirst hstore hdistinct hcreate
  have hqueues := (releaseFrameKey_steps (Steps.woven C.gathers.steps W) trivial hrelease).2
  have hdeferred : t.deferred = w.deferred := congrArg (fun q => q.2.1) hqueues
  obtain ⟨recorded, hrecorded, hpaid⟩ :=
    resolveMetadata_pays T hfirst hfresh hdistinct gathers (hdeferred ▸ C.waiting) hresolve
  refine ⟨created, recorded, w, t, hcreated, hrecorded, C, hrelease, resolveMetadata_steps hfirst
    (Steps.woven gathers.steps W) (fun _ _ => trivial) gathers hresolve,
      fun prices fair hframe => ?_⟩
  have hchecks : env.balance prices s = env.balance prices (env.beforeChecks f store) := by
    by_cases hcheck : .check ∈ env.config.pipeline
    · obtain ⟨changed, hinsert⟩ := P.check hcheck
      rw [insertChecks_gains hdistinct fair _ _ hinsert, add_zero]
    · rw [P.done hcheck]
  have hcreation := C.paid prices fair hframe
  have hnothing : env.balance prices (.start f store) = f.worth (env.price prices) := by
    simp [balance, start, FunctionReport.worth]
  rw [List.map_nil, List.sum_nil] at hcreation
  rw [hpaid prices fair, releaseFrameKey_gains hdistinct _ _ hrelease, balance,
    G.worth_eq T] at hchecks
  omega

end Passes

namespace Course

variable {created recorded : List BlockId} {w : Weaving}
  (C : Course env f store s created recorded w t)

include C

/-- Where the key of the frame is free, only metadata and pointers that are stored are due. -/
theorem worth_of_unframed (fair : prices.Fair) (hallocation : prices.call .stackAllocation = 0)
    (hdeallocation : prices.call .stackDeallocation = 0) (hframe : prices.frame = 0) :
    ((f.insertions s.func).map (s.func.worthOf (env.price prices))).sum + s.report.worth prices =
      ((created.flatMap f.programInsts).map (env.creationDue prices f)).sum +
      ((recorded.flatMap f.programInsts).map (recordDue prices f)).sum := by
  rw [C.worth prices fair fun _ _ _ => hallocation.trans hframe.symm, hdeallocation,
    hframe, mul_zero, add_zero, ite_self, add_zero]

/-- The calls of routines that are counted are as many as were counted. -/
theorem callsAdded_eq (hdistinct : env.Distinct) (routines : List Routine)
    (h : (∀ r ∈ routines, r.isCounted) ∧
      (.spatialStoreCheck ∈ routines ↔ .spatialLoadCheck ∈ routines) ∧
      (.temporalStoreCheck ∈ routines ↔ .temporalLoadCheck ∈ routines)) :
    env.callsAdded f s.func routines = s.report.callsCounted routines := by
  obtain ⟨hcounted, hspatial, htemporal⟩ := h
  have hfree : ∀ r : Routine, r.isCounted = false → (Prices.ofCalls routines).call r = 0 :=
    fun r hr => if_neg fun hmem => by
      rw [hcounted r hmem] at hr
      cases hr
  have fair : (Prices.ofCalls routines).Fair :=
    ⟨by simp only [Prices.ofCalls, hspatial], by simp only [Prices.ofCalls, htemporal],
      fun r hr => hfree r (Routine.isCounted_of_isFree hr)⟩
  have hcreation : env.creationDue (.ofCalls routines) f = fun _ => 0 := funext fun id => by
    simp [creationDue, Prices.ofCalls]
  have hrecord : recordDue (.ofCalls routines) f = fun _ => 0 := funext fun id => by
    simp [recordDue, Prices.ofCalls]
  have hsum := C.worth_of_unframed fair (hfree _ rfl) (hfree _ rfl) rfl
  rw [sum_worthOf (q := env.calls (· ∈ routines)) fun _ => price_ofCalls hdistinct,
    hcreation, hrecord, List.sum_map_zero, List.sum_map_zero, FunctionReport.worth_ofCalls] at hsum
  rw [callsAdded]
  omega

/-- There is a phi for each tracked component of each pointer phi that was counted. -/
theorem phisAdded_eq : f.phisAdded s.func = env.config.tracked * s.report.placeholderPhis := by
  have hcreation : env.creationDue (.ofPhis env.config.tracked) f = fun _ => 0 :=
    funext fun id => by
    simp [creationDue, Prices.ofPhis]
  have hrecord : recordDue (.ofPhis env.config.tracked) f = fun _ => 0 := funext fun id => by
    simp [recordDue, Prices.ofPhis]
  have fair : (Prices.ofPhis env.config.tracked).Fair := ⟨rfl, rfl, fun _ _ => rfl⟩
  have hsum := C.worth_of_unframed fair rfl rfl rfl
  rw [sum_worthOf fun _ => price_of_free fun _ => rfl, hcreation, hrecord,
    List.sum_map_zero, List.sum_map_zero] at hsum
  simp only [FunctionReport.worth, Prices.ofPhis, Int.neg_mul] at hsum
  rw [phisAdded]
  omega

/-- What was gathered was gathered once for each instruction of the blocks that were visited. -/
theorem counters_eq :
    s.report.stackAllocations = (created.flatMap f.programInsts).countP f.isAlloca ∧
      s.report.metadataLoads = (created.flatMap f.programInsts).countP f.isPointerLoad ∧
      s.report.placeholderPhis = (created.flatMap f.programInsts).countP f.isPointerPhi ∧
      s.report.metadataStores = (recorded.flatMap f.programInsts).countP f.isPointerStore := by
  -- what is inserted is free, and the counters cost what is asked
  have hcounters : ∀ allocas loads stores phis : ℤ,
      s.report.worth (.ofCounters allocas loads stores phis) =
        allocas * (created.flatMap f.programInsts).countP f.isAlloca +
        loads * (created.flatMap f.programInsts).countP f.isPointerLoad +
        phis * (created.flatMap f.programInsts).countP f.isPointerPhi +
        stores * (recorded.flatMap f.programInsts).countP f.isPointerStore := by
    intro allocas loads stores phis
    have fair : (Prices.ofCounters allocas loads stores phis).Fair := ⟨rfl, rfl, fun _ _ => rfl⟩
    have hsum := C.worth_of_unframed fair rfl rfl rfl
    have hfree : s.func.worthOf (env.price (.ofCounters allocas loads stores phis)) =
        fun _ => 0 := by
      funext x
      rw [worthOf]
      cases s.func.kind? x with
      | none => rfl
      | some kind => exact (price_of_free fun _ => rfl).trans (ite_self 0)
    have hcreation : env.creationDue (.ofCounters allocas loads stores phis) f = fun id =>
        ((if f.isAlloca id then allocas else 0) + (if f.isPointerLoad id then loads else 0)) +
          if f.isPointerPhi id then phis else 0 := funext fun id => by
      simp [creationDue, Prices.ofCounters]
    have hrecord : recordDue (.ofCounters allocas loads stores phis) f = fun id =>
        if f.isPointerStore id then stores else 0 := funext fun id => by
      simp [recordDue, Prices.ofCounters]
    rw [hfree, List.sum_map_zero, zero_add, hcreation, hrecord, List.sum_map_add,
      List.sum_map_add] at hsum
    simp only [sum_map_ite_eq_mul_countP] at hsum
    exact hsum
  have hallocas := hcounters 1 0 0 0
  have hloads := hcounters 0 1 0 0
  have hstores := hcounters 0 0 1 0
  have hphis := hcounters 0 0 0 1
  simp only [FunctionReport.worth, Prices.ofCounters] at hallocas hloads hstores hphis
  omega

end Course

/-! ### Wanted checks -/

/-- A verdict is passed on an access exactly if a check is wanted and the pointer is not null. -/
theorem verdicts_ne_unwanted :
    ((s.verdicts env id).1 ≠ .unwanted ↔ s.func.wants (·.wantsSpatial env.config) id) ∧
      ((s.verdicts env id).2 ≠ .unwanted ↔ s.func.wants (·.wantsTemporal env.config) id) := by
  have bounds : ∀ m : MemoryAccess, s.boundsVerdict env m ≠ .unwanted ↔
      (!m.ptr.isNull && m.kind.wantsSpatial env.config) := by
    intro m
    rw [boundsVerdict]
    cases m.ptr.isNull <;> cases m.kind.wantsSpatial env.config <;> simp
    split <;> simp
  have key : ∀ m : MemoryAccess, s.keyVerdict env id m ≠ .unwanted ↔
      (!m.ptr.isNull && m.kind.wantsTemporal env.config) := by
    intro m
    rw [keyVerdict]
    cases m.ptr.isNull <;> cases m.kind.wantsTemporal env.config <;> simp
    split <;> simp
  rw [verdicts, access?, wants, wants]
  cases s.func.kind? id with
  | none => simp
  | some kind =>
    cases kind with
    | load ptr => exact ⟨bounds _, key _⟩
    | store value ptr => exact ⟨bounds _, key _⟩
    | _ => simp

/-- A visit settles the checks that are wanted, and the counters tell how many. -/
theorem settled_of_checkInst (W : s.Woven env Any f) (hid : id.index < f.values.size)
    (h : (checkInst env id).Runs s ⟨⟩ s') :
    s'.report.settled = s.report.settled + ((f.wants (·.wantsSpatial env.config) id).toNat,
      (f.wants (·.wantsTemporal env.config) id).toNat) := by
  have hwants : ∀ wanted, s.func.wants wanted id = f.wants wanted id := fun wanted => by
    rw [wants, wants, kind?_congr (W.grows.value?_eq hid)]
  obtain ⟨hbounds, hkey⟩ := @verdicts_ne_unwanted env s id
  rw [hwants] at hbounds hkey
  rw [FunctionReport.settled_congr (tally_of_checkInst W hid h), FunctionReport.settled_note,
    decide_eq_decide.mpr hbounds, decide_eq_decide.mpr hkey, Bool.decide_coe, Bool.decide_coe]

private theorem settled_of_visits {ids : List ValueId} (W : s.Woven env Any f)
    (hids : ∀ id ∈ ids, id.index < f.values.size) (h : (ids.forM (checkInst env)).Runs s ⟨⟩ s') :
    s'.report.settled = s.report.settled + (ids.countP (f.wants (·.wantsSpatial env.config)),
      ids.countP (f.wants (·.wantsTemporal env.config))) := by
  induction ids generalizing s with
  | nil =>
    obtain rfl := runs_forM_nil.mp h
    rfl
  | cons id rest ih =>
    obtain ⟨t, hvisit, hrest⟩ := runs_forM_cons.mp h
    have hid := hids id (.head _)
    have Wt := (checkInst_steps W (fun _ _ => trivial) hid hvisit).1.woven W
    have hcons : ∀ q : ValueId → Bool, (id :: rest).countP q = (q id).toNat + rest.countP q := by
      grind
    rw [ih Wt (fun id hid => hids id (.tail _ hid)) hrest,
      settled_of_checkInst W hid hvisit, add_assoc, hcons, hcons]
    rfl

section Checked

variable (T : f.Tidy) (hfirst : f.ParamsFirst) (hstore : store.Vacant f) (hdistinct : env.Distinct)

include T hfirst hstore hdistinct

theorem Piped.settled_eq (P : Piped env f store s) : s.report.settled =
    ((f.blockIds.flatMap f.programInsts).countP (f.wants (·.wantsSpatial env.config)),
      (f.blockIds.flatMap f.programInsts).countP (f.wants (·.wantsTemporal env.config))) := by
  have G := P.gathered (p := (·.checksAccess = false)) T hfirst hstore fun _ h => h
  have hnothing : (env.beforeChecks f store).report.settled = 0 := by
    rw [FunctionReport.settled_congr (Steps.tally_eq (fun _ h => h) G.steps)]
    rfl
  by_cases hcheck : .check ∈ env.config.pipeline
  · obtain ⟨order, -, V, -⟩ := P.visited T hfirst hstore hdistinct hcheck
    have hids : ∀ id ∈ order.flatMap f.programInsts, id.index < f.values.size := fun id hid =>
      index_lt_of_mem_programInsts T (V.program id hid).choose_spec
    have hperm : (order.flatMap f.programInsts).Perm (f.blockIds.flatMap f.programInsts) := by
      refine (List.perm_ext_iff_of_nodup V.nodup
        (T.nodup_programInsts nodup_blockIds)).mpr fun id => ⟨fun hid => ?_, fun hid => ?_⟩
      · obtain ⟨b, hb⟩ := V.program id hid
        exact List.mem_flatMap.mpr ⟨b, mem_blockIds.mpr
          (index_lt_of_mem_instsOf (List.mem_of_mem_filter hb)), hb⟩
      · obtain ⟨b, -, hb⟩ := List.mem_flatMap.mp hid
        exact V.all hb
    rw [settled_of_visits V.woven hids V.runs, hperm.countP_eq, hperm.countP_eq]
    rw [hnothing, zero_add]
  · -- without the pass no check is wanted
    obtain rfl := P.done hcheck
    have hspatial : ∀ access : Access, access.wantsSpatial env.config = false := fun _ =>
      Bool.eq_false_iff.mpr fun h => hcheck (check_mem_pipeline (.inl h))
    have htemporal : ∀ access : Access, access.wantsTemporal env.config = false := fun _ =>
      Bool.eq_false_iff.mpr fun h => hcheck (check_mem_pipeline (.inr h))
    have hnone : ∀ wanted : Access → Bool, (∀ access, wanted access = false) →
        ∀ ids : List ValueId, ids.countP (f.wants wanted) = 0 := by
      intro wanted hwanted ids
      refine List.countP_eq_zero.mpr fun id _ => ?_
      rw [wants]
      split <;> simp [hwanted]
    rw [hnothing, hnone _ hspatial, hnone _ htemporal]
    rfl

end Checked

end Weaving

end PointerGuard
