import Mathlib.Tactic.Ring
import PointerGuard.Checks
import PointerGuard.Proofs.Filling

/-!
# Keeping accounts of insertions

The *balance* of a weaving is what its inserted instructions are worth plus what its counters are
worth. If a counter has the opposite price of what it counts, the balance never changes: the counter
is the number of the insertions. If insertions are free, the balance follows the counters alone.
-/

namespace PointerGuard

open PointerGuard.Function

variable {env : Env} {prices : Prices} {u : Splice}
  {callee operand ptr source value returned aggregate ifFalse cond ifTrue : Operand}
  {access : Access} {args operands : List Operand} {r : Routine} {ty : Ty} {md : PointerMetadata}
  {kind : InstKind} {b : BlockId} {slot : Nat}

/-! ### Edits that change a measure -/

namespace Edit

variable {σ α β : Type} {μ : σ → ℤ} {s : σ} {c d e : ℤ} {x y : Edit σ α} {p : Prop}
  {body : α → Edit σ PUnit} {f rest : α → Edit σ β} {items : List α}

/-- If the edit succeeds in a state, a measure has grown by some amount. -/
def Gains (edit : Edit σ α) (μ : σ → ℤ) (s : σ) (d : ℤ) : Prop :=
  ∀ a s', edit.Runs s a s' → μ s' = μ s + d

theorem Gains.bind (hx : x.Gains μ s d) (hf : ∀ a t, x.Runs s a t → (f a).Gains μ t e)
    (hc : d + e = c) : (x >>= f).Gains μ s c := by
  intro b s' h
  obtain ⟨a, t, ha, hb⟩ := runs_bind.mp h
  rw [hf a t ha b s' hb, hx a t ha, add_assoc, hc]

theorem Gains.bind_zero (hx : x.Gains μ s 0) (hf : ∀ a t, (f a).Gains μ t d) :
    (x >>= f).Gains μ s d :=
  hx.bind (fun a t _ => hf a t) (zero_add d)

theorem Gains.map {f : α → β} (hx : x.Gains μ s d) : (f <$> x).Gains μ s d := by
  intro b s' h
  obtain ⟨a, ha, -⟩ := runs_map.mp h
  exact hx a s' ha

theorem gains_pure {a : α} : (pure a : Edit σ α).Gains μ s 0 := by
  intro b s' h
  obtain ⟨-, rfl⟩ := runs_pure.mp h
  exact (add_zero _).symm

theorem gains_throw {e : Error} : (throw e : Edit σ α).Gains μ s d :=
  fun _ _ h => absurd h runs_throw

theorem gains_get_bind {f : σ → Edit σ β} (hf : (f s).Gains μ s d) : (get >>= f).Gains μ s d :=
  fun b s' h => hf b s' (runs_get_bind.mp h)

theorem gains_modify {change : σ → σ} (h : μ (change s) = μ s + d) :
    (modify change : Edit σ PUnit).Gains μ s d := by
  intro _ s' hrun
  obtain rfl := runs_modify.mp hrun
  exact h

theorem gains_ofExcept {outcome : Except Error α} : (ofExcept outcome : Edit σ α).Gains μ s 0 := by
  intro a s' h
  obtain ⟨-, rfl⟩ := runs_ofExcept.mp h
  exact (add_zero _).symm

theorem gains_ofOption {cause : Fault} {answer : Option α} :
    (ofOption cause answer : Edit σ α).Gains μ s 0 := by
  intro a s' h
  obtain ⟨-, rfl⟩ := runs_ofOption.mp h
  exact (add_zero _).symm

theorem gains_ite [Decidable p] (hx : x.Gains μ s d) (hy : y.Gains μ s d) :
    (if p then x else y).Gains μ s d := by
  split
  · exact hx
  · exact hy

theorem gains_ite_bind [Decidable p] (hx : x.Gains μ s 0) (hy : y.Gains μ s 0)
    (hrest : ∀ a t, (rest a).Gains μ t d) : (if p then x >>= rest else y >>= rest).Gains μ s d :=
  gains_ite (hx.bind_zero hrest) (hy.bind_zero hrest)

/-- What is done only on a condition is gained only on that condition. -/
theorem gains_when [Decidable p] {x : Edit σ PUnit} (hx : x.Gains μ s d) :
    (if p then x else pure ⟨⟩).Gains μ s (if p then d else 0) := by
  split
  · exact hx
  · exact gains_pure

theorem gains_when_bind [Decidable p] {x : Edit σ PUnit} {rest : PUnit → Edit σ β}
    (hx : x.Gains μ s d) (hrest : ∀ t, (rest ⟨⟩).Gains μ t e) :
    (if p then x >>= rest else rest ⟨⟩).Gains μ s ((if p then d else 0) + e) := by
  split
  · exact hx.bind (fun _ t _ => hrest t) rfl
  · rw [zero_add]
    exact hrest s

theorem gains_forM (h : ∀ a ∈ items, ∀ t, (body a).Gains μ t d) :
    (items.forM body).Gains μ s (items.length * d) := by
  induction items generalizing s with
  | nil =>
    rw [List.length_nil, Nat.cast_zero, zero_mul]
    exact gains_pure
  | cons a rest ih =>
    refine (h a (.head _) s).bind
      (fun _ t _ => ih fun b hb => h b (.tail _ hb)) ?_
    rw [List.length_cons]
    push_cast
    ring

theorem gains_forM_zero (h : ∀ a ∈ items, ∀ t, (body a).Gains μ t 0) :
    (items.forM body).Gains μ s 0 := by
  exact gains_forM h

end Edit

/-! ### Prices -/

/-- What inserted calls and phis are worth, and a counted unit of what is gathered. -/
structure Prices where
  /-- A call to a routine. -/
  call : Routine → ℤ
  /-- A phi. -/
  phi : ℤ
  /-- A counted stack allocation. -/
  allocas : ℤ
  /-- A counted load of metadata. -/
  loads : ℤ
  /-- A counted store of metadata. -/
  stores : ℤ
  /-- A counted pointer phi. -/
  phis : ℤ
  /-- The key of the frame, once it has been requested. -/
  frame : ℤ

/-- The number of components that are tracked. -/
def Config.tracked (config : Config) : Nat :=
  (if config.spatialSafety then 2 else 0) + if config.temporalSafety then 2 else 0

theorem Env.length_components (env : Env) : env.components.length = env.config.tracked := by
  rw [components_eq, Component.ofHalves, Config.tracked]
  split <;> split <;> rfl

/-- Are the calls of a routine counted? -/
def Routine.isCounted : Routine → Bool
  | .spatialLoadCheck | .spatialStoreCheck | .temporalLoadCheck | .temporalStoreCheck
  | .spatialCallCheck | .metadataStore | .metadataLoad | .allocateFrame | .deallocateFrame
  | .copyMetadata => true
  | _ => false

/-- Does nothing depend on how often a routine is called? -/
def Routine.isFree : Routine → Bool
  | .stackAllocation | .stackDeallocation => false
  | r => !r.isCounted

theorem Routine.isCounted_of_isFree (h : r.isFree) : r.isCounted = false := by
  cases r <;> first | rfl | cases h

/-- Prices that do not tell apart what is counted together, and leave out what does not matter. -/
structure Prices.Fair (prices : Prices) : Prop where
  spatial : prices.call .spatialStoreCheck = prices.call .spatialLoadCheck
  temporal : prices.call .temporalStoreCheck = prices.call .temporalLoadCheck
  free : ∀ r : Routine, r.isFree → prices.call r = 0

/-- What the counters are worth. A check, a copy and a frame cost as much as the calls they stand
for. -/
def FunctionReport.worth (r : FunctionReport) (prices : Prices) : ℤ :=
  prices.allocas * r.stackAllocations + prices.loads * r.metadataLoads +
    prices.stores * r.metadataStores + prices.phis * r.placeholderPhis -
    prices.call .spatialLoadCheck * r.spatialChecks -
    prices.call .temporalLoadCheck * r.temporalChecks -
    prices.call .spatialCallCheck * r.callChecks - prices.call .copyMetadata * r.metadataCopies -
    (prices.call .allocateFrame + prices.call .deallocateFrame) * r.shadowStackFrames

/-- What a value is worth if it is an instruction; parameters are free. -/
def ValueInfo.worth (value : InstKind → ℤ) (info : ValueInfo) : ℤ :=
  match info.origin with
  | .inst inst => value inst.kind
  | .param _ => 0

theorem ValueInfo.worth_inst {value : InstKind → ℤ} {inst : Instruction} :
    ValueInfo.worth value ⟨ty, .inst inst⟩ = value inst.kind := rfl

namespace Function

variable {f : Function} {value : InstKind → ℤ}

/-- What the instructions of a function are worth. -/
def worth (f : Function) (value : InstKind → ℤ) : ℤ :=
  (f.values.toList.map (ValueInfo.worth value)).sum

theorem worth_insertAt {i : Nat} :
    (f.insertAt b i kind ty).worth value = f.worth value + value kind := by
  simp [worth, insertAt, ValueInfo.worth]

theorem worth_withEdges {phi : ValueId} {incoming edges : List (Operand × BlockId)}
    (hphi : f.kind? phi = some (.phi incoming))
    (hvalue : value (.phi edges) = value (.phi incoming)) :
    (f.withEdges phi edges).worth value = f.worth value := by
  obtain ⟨inst, ty, hkind, hinfo⟩ := value?_of_kind? hphi
  have hget : (f.values.toList.map (ValueInfo.worth value))[phi.index]? =
      some (value (.phi edges)) := by
    rw [value?, if_pos (index_lt_of_value? hinfo).1] at hinfo
    rw [List.getElem?_map, Array.getElem?_toList, hinfo, Option.map_some,
      ValueInfo.worth_inst, hkind, hvalue]
  obtain ⟨_, hsame⟩ := List.getElem?_eq_some_iff.mp hget
  rw [withEdges, modifyInst, hinfo, worth, Array.toList_setIfInBounds, List.map_set,
    ValueInfo.worth_inst, ← hsame, List.set_getElem_self, worth]

end Function

/-! ### What is due -/

namespace Function

def isAlloca (f : Function) (id : ValueId) : Bool :=
  match f.kind? id with
  | some (.alloca ..) => true
  | _ => false

/-- Is the value a pointer that is loaded from memory? -/
def isPointerLoad (f : Function) (id : ValueId) : Bool :=
  match f.kind? id with
  | some (.load _) => f.isPointerValue id
  | _ => false

/-- Is the value a pointer that depends on where control comes from? -/
def isPointerPhi (f : Function) (id : ValueId) : Bool :=
  match f.kind? id with
  | some (.phi _) => f.isPointerValue id
  | _ => false

/-- Is the metadata of the value made, rather than taken from other values? -/
def makes (f : Function) (id : ValueId) : Bool :=
  f.isAlloca id || f.isPointerLoad id || f.isPointerPhi id

def isPointerStore (f : Function) (id : ValueId) : Bool :=
  match f.kind? id with
  | some (.store stored _) => f.isPointerOperand stored
  | _ => false

end Function

namespace Env

/-- What the metadata of an instruction costs when it is created. -/
def creationDue (env : Env) (prices : Prices) (f : Function) (id : ValueId) : ℤ :=
  (if f.isAlloca id then prices.allocas else 0) +
    (if f.isPointerLoad id then prices.call .metadataLoad + prices.loads else 0) +
    if f.isPointerPhi id then env.config.tracked * prices.phi + prices.phis else 0

theorem creationDue_eq_zero {f : Function} {id : ValueId} (h : f.makes id = false) :
    env.creationDue prices f id = 0 := by
  simp only [makes, Bool.or_eq_false_iff] at h
  simp [creationDue, h]

/-- What the record of a stored pointer costs. -/
def recordDue (prices : Prices) (f : Function) (id : ValueId) : ℤ :=
  if f.isPointerStore id then prices.call .metadataStore + prices.stores else 0

def price (env : Env) (prices : Prices) : InstKind → ℤ
  | .phi _ => prices.phi
  | .call callee _ _ =>
    match Routine.all.find? (env.routines.callee · = callee) with
    | some r => prices.call r
    | none => 0
  | _ => 0

/-- What the instructions of a function are worth while some are inserted. -/
def stock (env : Env) (prices : Prices) (u : Splice) : ℤ := u.func.worth (env.price prices)

/-- What the instructions of a weaving and its counters are worth, less the key of the frame if it
has been requested. -/
def balance (env : Env) (prices : Prices) (s : Weaving) : ℤ :=
  s.func.worth (env.price prices) + s.report.worth prices -
    if s.frameKey.isSome then prices.frame else 0

theorem price_callOf (hdistinct : env.Distinct) :
    env.price prices (env.callOf r args) = prices.call r := by
  rw [callOf, price]
  split
  · rename_i r' hfind
    have hcallee := List.find?_some hfind
    rw [decide_eq_true_iff] at hcallee
    rw [hdistinct r' r hcallee]
  · rename_i hnone
    simpa using List.find?_eq_none.mp hnone r r.mem_all

end Env

/-! ### Insertions -/

namespace Splice

open Edit

variable {make : Component → Edit Splice ValueId} {components : List Component}

theorem insert_gains : (insert kind ty).Gains (env.stock prices) u (env.price prices kind) := by
  intro x v h
  obtain ⟨-, rfl⟩ := runs_insert.mp h
  exact worth_insertAt

theorem operandType_gains : (operandType operand).Gains (env.stock prices) u 0 := by
  intro ty v h
  obtain ⟨-, rfl⟩ := runs_operandType.mp h
  exact (add_zero _).symm

theorem toVoidPtr_gains : (toVoidPtr operand).Gains (env.stock prices) u 0 := by
  intro result v h
  obtain ⟨-, -, -, ⟨rfl, -⟩ | ⟨x, -, hinsert⟩⟩ := toVoidPtr_cases h
  · exact (add_zero _).symm
  · exact insert_gains x v hinsert

theorem extract_gains {index : Nat} : (extract aggregate index).Gains (env.stock prices) u 0 := by
  refine operandType_gains.bind_zero fun ty v => ?_
  split
  · exact insert_gains
  · exact gains_throw

theorem select_gains :
    (select cond ifTrue ifFalse).Gains (env.stock prices) u 0 :=
  operandType_gains.bind_zero fun _ _ => insert_gains

theorem phi_gains : (phi ty).Gains (env.stock prices) u prices.phi := insert_gains

theorem call_gains (hdistinct : env.Distinct) :
    (env.routines.call r args).Gains (env.stock prices) u (prices.call r) := by
  rw [← Env.price_callOf hdistinct]
  exact insert_gains

theorem call_gains_free (hdistinct : env.Distinct) (fair : prices.Fair) (hr : r.isFree) :
    (env.routines.call r args).Gains (env.stock prices) u 0 := by
  rw [← fair.free r hr]
  exact call_gains hdistinct

/-- Insertions of the same worth, one for each of some components. -/
theorem each_gains {d : ℤ} (hmake : ∀ c u, (make c).Gains (env.stock prices) u d) :
    (each components make).Gains (env.stock prices) u (components.length * d) := by
  induction components generalizing u with
  | nil =>
    intro results v h
    obtain ⟨-, rfl⟩ := runs_each_nil.mp h
    simp
  | cons c rest ih =>
    intro results v h
    obtain ⟨x, w, more, hx, hmore, -⟩ := runs_each_cons.mp h
    rw [ih more v hmore, hmake c u x w hx, List.length_cons]
    push_cast
    ring

theorem each_gains_zero (hmake : ∀ c u, (make c).Gains (env.stock prices) u 0) :
    (each components make).Gains (env.stock prices) u 0 := by
  exact each_gains hmake

end Splice

namespace ShadowFrame

open Edit Splice

variable (hdistinct : env.Distinct) (fair : prices.Fair)

include hdistinct fair

theorem storeSlot_gains : (storeSlot env.routines md slot).Gains (env.stock prices) u 0 := by
  rw [storeSlot_eq env.width]
  exact (each_gains_zero fun c _ => call_gains_free hdistinct fair (by cases c <;> rfl)).map

theorem loadSlot_gains : (loadSlot env slot).Gains (env.stock prices) u 0 := by
  rw [loadSlot_eq]
  exact (each_gains_zero fun c _ => call_gains_free hdistinct fair (by cases c <;> rfl)).map

end ShadowFrame

/-! ### Edits of a weaving -/

namespace Weaving

open Edit Splice ShadowFrame

variable {s s' : Weaving} {id phi : ValueId} {d : ℤ}

theorem splice_gains {α : Type} {point : InsertPoint} {body : Edit Splice α}
    (h : ∀ u, body.Gains (env.stock prices) u d) :
    (splice point body).Gains (env.balance prices) s d := by
  intro a s' hrun
  obtain ⟨b, i, u, -, hbody, rfl⟩ := runs_splice.mp hrun
  have hstock : u.func.worth (env.price prices) = s.func.worth (env.price prices) + d :=
    h _ a u hbody
  rw [Env.balance, Env.balance, hstock]
  ring

theorem associate_gains : (associate id md).Gains (env.balance prices) s 0 := by
  intro _ s' h
  obtain ⟨store, -, rfl⟩ := runs_associate.mp h
  exact (add_zero _).symm

theorem operandType_gains : (operandType operand).Gains (env.balance prices) s 0 := by
  intro ty s' h
  obtain ⟨-, rfl⟩ := runs_operandType.mp h
  exact (add_zero _).symm

theorem count_gains {change : FunctionReport → FunctionReport}
    (h : (change s.report).worth prices = s.report.worth prices + d) :
    (count change).Gains (env.balance prices) s d := by
  refine gains_modify ?_
  rw [Env.balance, Env.balance, h]
  ring

section Resolving

variable (hdistinct : env.Distinct) (fair : prices.Fair)

include hdistinct fair

theorem requestGlobalLock_gains : (requestGlobalLock env).Gains (env.balance prices) s 0 := by
  refine gains_get_bind ?_
  split
  · exact gains_pure
  · refine (splice_gains fun u => call_gains_free hdistinct fair rfl).bind_zero fun _ t => ?_
    exact (gains_modify (add_zero _).symm).bind_zero fun _ _ => gains_pure

omit fair in
/-- The call that requests the key is paid for by the key. -/
theorem requestFrameKey_gains (hframe : prices.call .stackAllocation = prices.frame) :
    (requestFrameKey env).Gains (env.balance prices) s 0 := by
  intro key s' h
  rw [requestFrameKey, runs_get_bind] at h
  split at h
  · obtain ⟨-, rfl⟩ := runs_pure.mp h
    exact (add_zero _).symm
  · rename_i hnone
    obtain ⟨_, t, hsplice, h⟩ := runs_bind.mp h
    obtain ⟨_, _, rfl, rfl, rfl⟩ := h
    have hcall : env.balance prices t = env.balance prices s + prices.call .stackAllocation := by
      refine splice_gains (fun u => (call_gains hdistinct).bind (fun _ _ _ => ?_) (add_zero _)) _ _
        hsplice
      exact extract_gains.bind_zero fun _ _ => extract_gains.bind_zero fun _ _ => gains_pure
    obtain ⟨_, _, v, -, -, rfl⟩ := runs_splice.mp hsplice
    rw [Env.balance, Env.balance] at hcall
    rw [Env.balance, Env.balance, hnone, Option.isSome_some, if_pos rfl]
    simp only [Option.isSome_none, Bool.false_eq_true, if_false] at hcall ⊢
    omega

theorem materialize_gains {folded : FoldedMetadata} :
    (materialize env folded).Gains (env.balance prices) s 0 :=
  gains_ite_bind (requestGlobalLock_gains hdistinct fair) gains_pure fun _ _ => gains_pure

theorem tryResolve_gains : (tryResolve env operand).Gains (env.balance prices) s 0 := by
  cases operand with
  | const c =>
    refine gains_ofExcept.bind_zero fun _ _ => ?_
    exact (materialize_gains hdistinct fair).bind_zero fun _ _ => gains_pure
  | value x => exact gains_get_bind gains_pure

theorem resolve_gains : (resolve env operand).Gains (env.balance prices) s 0 := by
  cases operand with
  | const c => exact gains_ofExcept.bind_zero fun _ _ => materialize_gains hdistinct fair
  | value x => exact gains_get_bind gains_ofExcept

theorem tryResolveAll_gains : (tryResolveAll env operands).Gains (env.balance prices) s 0 := by
  induction operands generalizing s with
  | nil => exact gains_pure
  | cons operand rest ih =>
    refine (tryResolve_gains hdistinct fair).bind_zero fun md t => ?_
    split
    · exact gains_pure
    · grind [Gains.bind_zero, gains_pure]

end Resolving

/-! ### Gathering -/

/-- The returns at which the key of the frame is released. -/
def releasedAt (env : Env) (s : Weaving) : List ValueId :=
  match s.frameKey with
  | some _ => (s.func.blockIds.filter env.isReachable).filterMap s.func.returnOf?
  | none => []

section Gathering

variable (hdistinct : env.Distinct) (fair : prices.Fair)

include hdistinct fair

omit fair in
theorem propagateAlloca_gains {copies : Option Operand}
    (hframe : prices.call .stackAllocation = prices.frame) :
    (propagateAlloca env id ty copies).Gains (env.balance prices) s prices.allocas := by
  refine gains_ite_bind (requestFrameKey_gains hdistinct hframe).map gains_pure fun _ t => ?_
  refine gains_ite_bind (splice_gains fun u => ?_) gains_pure fun _ t => ?_
  · refine toVoidPtr_gains.bind_zero fun _ _ => insert_gains.bind_zero fun _ _ => ?_
    exact toVoidPtr_gains.bind_zero fun _ _ => gains_pure
  · refine (count_gains ?_).bind (fun _ _ _ => associate_gains) (add_zero _)
    simp only [FunctionReport.worth]
    push_cast
    ring

omit fair in
theorem propagateLoad_gains :
    (propagateLoad env id ptr).Gains (env.balance prices) s
      (prices.call .metadataLoad + prices.loads) := by
  have extract : ∀ u record, (extractRecord env record).Gains (env.stock prices) u 0 := by
    intro u record
    rw [extractRecord_eq]
    exact (each_gains_zero fun _ _ => extract_gains).map
  refine (splice_gains fun u => toVoidPtr_gains.bind_zero fun _ _ =>
    (call_gains hdistinct).bind (fun record t _ => extract t record) (add_zero _)).bind
      (fun _ t _ => (count_gains ?_).bind (fun _ _ _ => associate_gains) (add_zero _)) rfl
  simp only [FunctionReport.worth]
  push_cast
  ring

theorem propagateDerived_gains :
    (propagateDerived env id source).Gains (env.balance prices) s 0 := by
  refine (tryResolve_gains hdistinct fair).bind_zero fun md t => ?_
  split
  · exact associate_gains.bind_zero fun _ _ => gains_pure
  · exact gains_pure

theorem propagateSelect_gains :
    (propagateSelect env id cond ifTrue ifFalse).Gains (env.balance prices) s 0 := by
  refine (tryResolve_gains hdistinct fair).bind_zero fun _ _ => ?_
  refine (tryResolve_gains hdistinct fair).bind_zero fun _ _ => ?_
  split
  · refine (splice_gains fun u => ?_).bind_zero fun _ _ =>
      associate_gains.bind_zero fun _ _ => gains_pure
    rw [selectComponents_eq env.width]
    exact (each_gains_zero fun _ _ => select_gains).map
  · exact gains_pure

omit hdistinct fair in
theorem propagatePhi_gains :
    (propagatePhi env id).Gains (env.balance prices) s
      (env.config.tracked * prices.phi + prices.phis) := by
  have placeholders : ∀ u, (placeholderPhis env).Gains (env.stock prices) u
      (env.config.tracked * prices.phi) := by
    intro u
    rw [placeholderPhis_eq, ← env.length_components]
    exact (each_gains fun _ _ => phi_gains).map
  refine (splice_gains placeholders).bind (fun _ t _ => associate_gains.bind_zero fun _ t => ?_) rfl
  refine (gains_modify (add_zero _).symm).bind_zero fun _ t => count_gains ?_
  simp only [FunctionReport.worth]
  push_cast
  ring

private theorem marshalCall_gains {frame : ShadowFrame} {args : List PointerMetadata} :
    (marshalCall env id frame args).Gains (env.balance prices) s 0 := by
  refine gains_ite ?_ gains_pure
  refine (splice_gains fun u => (call_gains hdistinct).bind (fun _ _ _ =>
    gains_forM_zero fun _ _ _ => storeSlot_gains hdistinct fair) (add_zero _)).bind
      (fun _ t _ => ?_)
      (add_neg_cancel _)
  refine (splice_gains fun u => gains_ite_bind (loadSlot_gains hdistinct fair).map gains_pure
    fun _ _ => (call_gains hdistinct).bind (fun _ _ _ => gains_pure) (add_zero _)).bind
      (e := -prices.call .allocateFrame - prices.call .deallocateFrame)
        (fun result t _ => ?_) (by ring)
  have counted : ∀ t, (count fun r => { r with shadowStackFrames := r.shadowStackFrames + 1 }).Gains
      (env.balance prices) t (-prices.call .allocateFrame - prices.call .deallocateFrame) := by
    refine fun t => count_gains ?_
    simp only [FunctionReport.worth]
    push_cast
    ring
  split
  · exact associate_gains.bind_zero fun _ t => counted t
  · exact counted t

theorem propagateCall_gains {ret : Ty} :
    (propagateCall env id ret callee args).Gains (env.balance prices) s 0 := by
  refine gains_ite ?_ (gains_ite ?_ gains_pure)
  · refine gains_get_bind (gains_ofExcept.bind_zero fun frame t => ?_)
    refine (tryResolveAll_gains hdistinct fair).bind_zero fun mds t => ?_
    split
    · exact (marshalCall_gains hdistinct fair).bind_zero fun _ _ => gains_pure
    · exact gains_pure
  · exact associate_gains.bind_zero fun _ _ => gains_pure

private theorem propagateReturn_gains :
    (propagateReturn env id returned).Gains (env.balance prices) s 0 := by
  refine operandType_gains.bind_zero fun ty t => gains_ite ?_ gains_pure
  refine (tryResolve_gains hdistinct fair).bind_zero fun md t => ?_
  split
  · exact (splice_gains fun _ => storeSlot_gains hdistinct fair).bind_zero fun _ _ => gains_pure
  · exact gains_pure

/-- The metadata of an instruction costs what is due, whether it can be created or has to wait. A
stack allocation may request the key of the frame. -/
theorem propagate_gains
    (hframe : s.func.isAlloca id → prices.call .stackAllocation = prices.frame) :
    (propagate env id).Gains (env.balance prices) s (env.creationDue prices s.func id) := by
  refine gains_get_bind ?_
  dsimp only
  cases hvalue : s.func.value? id with
  | none => exact gains_throw
  | some info =>
    obtain ⟨ty, origin⟩ := info
    cases origin with
    | param position => exact gains_throw
    | inst inst =>
      have hkind : s.func.kind? id = some inst.kind := kind?_of_value? hvalue
      have hpointer : s.func.isPointerValue id = ty.isPointer := by
        rw [isPointerValue, valueType?, hvalue]
        rfl
      dsimp only
      rw [isAlloca, hkind] at hframe
      rw [Env.creationDue, isAlloca, isPointerLoad, isPointerPhi, hkind,
        hpointer]
      have null : Gains (if ty.isPointer then do associate id env.nullMetadata; return true
          else return true) (env.balance prices) s 0 :=
        gains_ite (associate_gains.bind_zero fun _ _ => gains_pure) gains_pure
      cases hinst : inst.kind with
      | alloca allocated copies =>
        have hframe := hframe (by rw [hinst])
        exact (propagateAlloca_gains hdistinct hframe).bind (fun _ _ _ => gains_pure) (by simp)
      | load ptr =>
        dsimp only
        by_cases hty : ty.isPointer
        · rw [if_pos hty]
          exact (propagateLoad_gains hdistinct).bind (fun _ _ _ => gains_pure) (by simp [hty])
        · rw [if_neg hty]
          simpa [hty] using gains_pure
      | phi incoming =>
        by_cases hty : ty.isPointer
        · rw [if_pos hty]
          exact propagatePhi_gains.bind (fun _ _ _ => gains_pure) (by simp [hty])
        · rw [if_neg hty]
          simpa [hty] using gains_pure
      | gep source indices =>
        simpa using gains_ite (propagateDerived_gains hdistinct fair) gains_pure
      | cast op source =>
        cases op with
        | bitcast => simpa using gains_ite (propagateDerived_gains hdistinct fair) gains_pure
        | intToPtr => simpa using null
        | ptrToInt => simpa using gains_pure
      | select cond ifTrue ifFalse =>
        simpa using gains_ite (propagateSelect_gains hdistinct fair) gains_pure
      | call callee args sig => simpa using propagateCall_gains hdistinct fair
      | extract aggregate index => simpa using null
      | ret returned => grind [gains_pure, propagateReturn_gains]
      | _ => simpa using gains_pure

omit hdistinct fair in
/-- An instruction that has to wait takes its metadata from others. -/
theorem makes_of_waits (h : (propagate env id).Runs s false s') : s.func.makes id = false := by
  rw [propagate, runs_get_bind] at h
  dsimp only at h
  split at h
  · rename_i ty inst hvalue
    have hkind : s.func.kind? id = some inst.kind := kind?_of_value? hvalue
    rw [makes, isAlloca, isPointerLoad, isPointerPhi, hkind]
    cases hinst : inst.kind with
    | alloca allocated copies => simp [hinst] at h
    | load ptr => simp [hinst] at h
    | phi incoming => simp [hinst] at h
    | _ => simp
  · exact absurd h runs_throw

theorem loadParameters_gains : (loadParameters env).Gains (env.balance prices) s 0 := by
  refine gains_get_bind (gains_forM_zero fun entry _ t => ?_)
  refine Gains.bind_zero (gains_ite (materialize_gains hdistinct fair) (splice_gains fun u => ?_))
    fun _ _ => associate_gains
  refine (loadSlot_gains hdistinct fair).bind_zero fun md u => gains_ite ?_ gains_pure
  split
  · refine toVoidPtr_gains.bind_zero fun _ _ => ?_
    exact (call_gains_free hdistinct fair rfl).bind_zero fun _ _ => gains_pure
  · exact gains_pure

omit fair in
/-- A call is paid for at each return at which the key is released. -/
theorem releaseFrameKey_gains : (releaseFrameKey env).Gains (env.balance prices) s
    ((s.releasedAt env).length * prices.call .stackDeallocation) := by
  refine gains_get_bind ?_
  rw [releasedAt]
  cases s.frameKey with
  | none => exact (zero_mul (prices.call .stackDeallocation)).symm ▸ gains_pure
  | some frameKey =>
    refine gains_forM fun _ _ _ => splice_gains fun u => ?_
    exact (call_gains hdistinct).bind (fun _ _ _ => gains_pure) (add_zero _)

omit hdistinct fair in
private theorem addIncoming_gains : (addIncoming phi value b).Gains (env.balance prices) s 0 := by
  intro _ s' h
  obtain ⟨incoming, hphi, rfl⟩ := runs_addIncoming.mp h
  have hworth : (s.func.withEdges phi (incoming ++ [(value, b)])).worth (env.price prices) =
      s.func.worth (env.price prices) := worth_withEdges hphi rfl
  rw [Env.balance, Env.balance, hworth, add_zero]

private theorem fillPlaceholder_gains {placeholder : Placeholder} :
    (fillPlaceholder env placeholder).Gains (env.balance prices) s 0 := by
  refine gains_get_bind ?_
  split
  · refine Gains.bind_zero (gains_forM_zero fun edge _ t => ?_) fun _ t => ?_
    · obtain ⟨⟨operand, pred⟩, filled⟩ := edge
      refine Gains.bind_zero (gains_ite ?_ gains_pure) fun md t =>
        gains_forM_zero fun shadow _ _ => addIncoming_gains
      refine (tryResolve_gains hdistinct fair).bind_zero fun md t => ?_
      split
      · exact gains_pure
      · exact gains_get_bind gains_throw
    · refine gains_get_bind (gains_forM_zero fun shadow _ _ => ?_)
      exact gains_ite gains_pure gains_throw
  · exact gains_throw

theorem fillPlaceholders_gains : (fillPlaceholders env).Gains (env.balance prices) s 0 :=
  gains_get_bind <| (gains_modify (add_zero _).symm).bind_zero fun _ _ =>
    gains_forM_zero fun _ _ _ => fillPlaceholder_gains hdistinct fair

theorem recordStore_gains :
    (recordStore env id).Gains (env.balance prices) s (Env.recordDue prices s.func id) := by
  refine gains_get_bind ?_
  rw [Env.recordDue, isPointerStore]
  cases s.func.kind? id with
  | none => exact gains_pure
  | some kind =>
    cases kind with
    | store stored ptr =>
      intro _ s' h
      obtain ⟨ty, t, hoperand, h⟩ := runs_bind.mp h
      obtain ⟨htype, rfl⟩ := runs_operandType.mp hoperand
      simp only [isPointerOperand_eq htype]
      rcases runs_ite.mp h with ⟨hty, h⟩ | ⟨hty, h⟩
      · rw [if_pos hty]
        refine Gains.bind_zero (resolve_gains hdistinct fair) (fun md t => ?_) _ s' h
        refine (splice_gains fun u => toVoidPtr_gains.bind_zero fun _ _ =>
          (call_gains hdistinct).bind (fun _ _ _ => gains_pure) (add_zero _)).bind
            (fun _ _ _ => count_gains ?_) rfl
        simp only [FunctionReport.worth]
        push_cast
        ring
      · rw [if_neg hty]
        exact gains_pure _ s' h
    | _ => exact gains_pure

end Gathering

/-! ### Checks -/

theorem needsSpatial_gains {bytes : Nat} :
    (needsSpatial env access ptr bytes).Gains (env.balance prices) s 0 := by
  have proven : (isProven env ptr bytes).Gains (env.balance prices) s 0 :=
    gains_ite (gains_get_bind (gains_ofExcept.bind_zero fun _ _ => gains_pure)) gains_pure
  refine gains_ite (proven.bind_zero fun _ _ => gains_ite ?_ gains_pure) gains_pure
  refine (count_gains ?_).bind_zero fun _ _ => gains_pure
  simp only [FunctionReport.worth, add_zero]

theorem needsTemporal_gains :
    (needsTemporal env access id source).Gains (env.balance prices) s 0 := by
  refine gains_ite (gains_get_bind ?_) gains_pure
  split
  · rename_i tier _
    refine (count_gains ?_).bind_zero fun _ _ => gains_pure
    cases tier <;> simp only [FunctionReport.countEliminated, FunctionReport.worth, add_zero]
  · exact gains_pure

private theorem coverFrom_gains : (coverFrom env id source).Gains (env.balance prices) s 0 := by
  have cover : ∀ tier insts t, (cover tier source insts).Gains (env.balance prices) t 0 :=
    fun _ _ _ => gains_get_bind (gains_ofExcept.bind_zero fun _ _ =>
      gains_modify (add_zero _).symm)
  refine gains_get_bind (gains_ite ((cover _ _ s).bind_zero fun _ t => ?_) ?_)
  all_goals
    refine gains_ite ?_ gains_pure
    exact gains_ofOption.bind_zero fun _ t => cover _ _ t

section Checks

variable (hdistinct : env.Distinct) (fair : prices.Fair)

include hdistinct fair

theorem checkAccess_gains : (checkAccess env access id ptr ty).Gains (env.balance prices) s 0 := by
  have spatialCall : prices.call access.spatialRoutine = prices.call .spatialLoadCheck := by
    cases access with
    | load => rfl
    | store => exact fair.spatial
  have temporalCall : prices.call access.temporalRoutine = prices.call .temporalLoadCheck := by
    cases access with
    | load => rfl
    | store => exact fair.temporal
  have spatialCheck : ∀ u bytes md,
    (spatialCheck env access ptr bytes md).Gains (env.stock prices) u
      (prices.call .spatialLoadCheck) := by
    intro u bytes md
    refine toVoidPtr_gains.bind_zero fun _ _ => ?_
    split
    · exact (call_gains hdistinct).bind (fun _ _ _ => gains_pure) ((add_zero _).trans spatialCall)
    · exact gains_throw
  have temporalCheck : ∀ u md, (temporalCheck env access md).Gains (env.stock prices) u
      (prices.call .temporalLoadCheck) := fun u md =>
    (call_gains hdistinct).bind (fun _ _ _ => gains_pure) ((add_zero _).trans temporalCall)
  have spatialCount : ∀ t, (count fun r => { r with spatialChecks := r.spatialChecks + 1 }).Gains
      (env.balance prices) t (-prices.call .spatialLoadCheck) := fun t => count_gains (by
    simp only [FunctionReport.worth]
    push_cast
    ring)
  have temporalCount : ∀ t source, (do
      count fun r => { r with temporalChecks := r.temporalChecks + 1 }
      coverFrom env id source).Gains (env.balance prices) t (-prices.call .temporalLoadCheck) := by
    refine fun t source => (count_gains ?_).bind (fun _ _ _ => coverFrom_gains) (add_zero _)
    simp only [FunctionReport.worth]
    push_cast
    ring
  refine gains_ite gains_pure (gains_ofOption.bind_zero fun bytes t => ?_)
  refine needsSpatial_gains.bind_zero fun spatial t => gains_get_bind ?_
  refine gains_ofOption.bind_zero fun source t => ?_
  refine needsTemporal_gains.bind_zero fun temporal t => gains_ite ?_ gains_pure
  refine (resolve_gains hdistinct fair).bind_zero fun md t => ?_
  refine (splice_gains fun u => gains_when_bind (spatialCheck u _ md) fun t =>
    gains_when (temporalCheck t md)).bind (fun _ t _ => gains_when_bind (spatialCount t) fun t =>
      gains_when (temporalCount t source)) ?_
  split <;> split <;> ring

theorem checkCallTarget_gains : (checkCallTarget env id callee).Gains (env.balance prices) s 0 := by
  refine gains_ite ?_ gains_pure
  refine (resolve_gains hdistinct fair).bind_zero fun md t => ?_
  refine (splice_gains fun u => toVoidPtr_gains.bind_zero fun _ _ =>
    (call_gains hdistinct).bind (fun _ _ _ => gains_pure) (add_zero _)).bind
      (fun _ _ _ => count_gains ?_) (add_neg_cancel _)
  simp only [FunctionReport.worth]
  push_cast
  ring

omit fair in
theorem copyMetadata_gains : (copyMetadata env id callee args).Gains (env.balance prices) s 0 := by
  refine gains_ite ?_ gains_pure
  split
  · refine operandType_gains.bind_zero fun ty t => gains_ite ?_ gains_pure
    refine operandType_gains.bind_zero fun ty t => gains_ite ?_ gains_pure
    refine (splice_gains fun u => toVoidPtr_gains.bind_zero fun _ _ =>
      toVoidPtr_gains.bind_zero fun _ _ => (call_gains hdistinct).bind (fun _ _ _ => gains_pure)
        (add_zero _)).bind (fun _ _ _ => count_gains ?_) (add_neg_cancel _)
    simp only [FunctionReport.worth]
    push_cast
    ring
  · exact gains_pure

private theorem checkInst_gains : (checkInst env id).Gains (env.balance prices) s 0 := by
  refine gains_get_bind ?_
  dsimp only
  split
  · exact checkAccess_gains hdistinct fair
  · exact operandType_gains.bind_zero fun ty t => checkAccess_gains hdistinct fair
  · exact (checkCallTarget_gains hdistinct fair).bind_zero fun _ t => copyMetadata_gains hdistinct
  · exact gains_pure

/-- So the check pass does not change the balance. -/
theorem insertChecks_gains : (insertChecks env).Gains (env.balance prices) s 0 := by
  refine (gains_modify (add_zero _).symm).bind_zero fun _ t => gains_get_bind (gains_get_bind ?_)
  refine gains_ofOption.bind_zero fun order t => Gains.bind_zero (gains_forM_zero fun b _ t => ?_)
    fun _ t => gains_get_bind gains_pure
  exact gains_get_bind (gains_forM_zero fun _ _ _ => checkInst_gains hdistinct fair)

end Checks

end Weaving

end PointerGuard
