import PointerGuard.Proofs.FrameCode
import PointerGuard.Proofs.Pipeline

/-!
# Frames around calls

Calls and returns are given the code that moves records through shadow frames, and parameters the
code that fetches theirs, each once, and nothing else is code for frames. So a ledger can be kept:
what was entered for an instruction is what it has in the end.
-/

namespace PointerGuard

open PointerGuard.Function Weaving

variable {v x : ValueId} {f : Function} {done : Bool} {frame : ShadowFrame} {ids : List ValueId}
  {ret : Ty}

theorem Function.isPointerOperand_value :
    f.isPointerOperand (.value v) = f.isPointerValue v := by
  rw [isPointerOperand, isPointerValue, operandType]
  cases f.valueType? v <;> rfl

namespace Weaving

open Edit

variable {env : Env} {p : Routine → Prop} {own : ValueId → Prop} {s s' u : Weaving} {id : ValueId}
  {md : PointerMetadata}

/-! ### What stands around an instruction -/

/-- The record of a value has the results of some instructions as its tracked components. -/
def RecordedAs (env : Env) (s : Weaving) (v : ValueId) (ids : List ValueId) : Prop :=
  ∃ md, s.store.lookup v = some md ∧ env.Names md ids

/-- The instructions that fetch the record of a pointer parameter, which is given with its position
among all parameters and its place among the pointers. -/
def LoadsParam (env : Env) (f : Function) (s : Weaving) (entry : (ValueId × Nat) × Nat)
    (ids : List ValueId) : Prop :=
  if (f.attrsAt entry.1.2).byval then ids = []
  else ids.map s.func.kind? = (env.slotLoads (entry.2 + 1)).map some ∧
    s.RecordedAs env entry.1.1 ids

/-- A frame has been put around a call: it is opened and the records of the pointers among the
arguments are stored, and behind the call the record of a pointer result is loaded and the frame is
closed. -/
structure Bracketed (env : Env) (s : Weaving) (x : ValueId) (args : List Operand)
    (before after : List ValueId) : Prop where
  opened : ∃ mds, List.Forall₂ (fun arg md => s.resolved? env arg = some md)
      (args.filter s.func.isPointerOperand) mds ∧
    before.map s.func.kind? = (env.opening mds).map some
  closed : ∃ ids last, after = ids ++ [last] ∧
    after.map s.func.kind? = (env.closing (s.func.isPointerValue x)).map some ∧
    (s.func.isPointerValue x → s.RecordedAs env x ids)

/-- Does a call pass pointers, or return one? -/
def PassesPointers (s : Weaving) (x : ValueId) (args : List Operand) : Bool :=
  !(args.filter s.func.isPointerOperand).isEmpty || s.func.isPointerValue x

/-- What stands in front of an instruction and behind it, of the code for frames. -/
inductive Around (env : Env) (s : Weaving) (x : ValueId) : List ValueId → List ValueId → Prop
  | framed {callee args sig before after} : s.func.kind? x = some (.call callee args sig) →
      env.interface.isInstrumentedCall callee →
      (∀ arg ∈ args, ∃ ty, s.func.operandType arg = .ok ty) → s.PassesPointers x args →
      s.Bracketed env x args before after → Around env s x before after
  | plain {callee args sig} : s.func.kind? x = some (.call callee args sig) →
      (env.interface.isInstrumentedCall callee →
        (∀ arg ∈ args, ∃ ty, s.func.operandType arg = .ok ty) ∧ ¬s.PassesPointers x args) →
      Around env s x [] []
  | returned {operand md before} : s.func.kind? x = some (.ret (some operand)) →
      s.func.isPointerOperand operand → s.resolved? env operand = some md →
      before.map s.func.kind? = (env.slotStores md 0).map some → Around env s x before []
  | left {operand ty} : s.func.kind? x = some (.ret (some operand)) →
      s.func.operandType operand = .ok ty → ty.isPointer = false → Around env s x [] []
  | other {kind} : s.func.kind? x = some kind → kind.crossesCalls = false ∨ kind = .ret none →
      Around env s x [] []

/-! ### What is kept -/

variable {mds : List PointerMetadata} {operand : Operand} {kind : InstKind}

namespace Kept

section

variable (K : Kept own s u)

include K

theorem isPointerOperand_eq {ty : Ty} (h : s.func.operandType operand = .ok ty) :
    u.func.isPointerOperand operand = s.func.isPointerOperand operand := by
  rw [Function.isPointerOperand_eq h, Function.isPointerOperand_eq (K.operandType h)]

theorem isPointerValue_eq (h : s.func.kind? x = some kind) :
    u.func.isPointerValue x = s.func.isPointerValue x := by
  obtain ⟨inst, ty, rfl, hvalue⟩ := value?_of_kind? h
  have htype : s.func.operandType (.value x) = .ok ty :=
    operandType_value_eq_ok.mpr (by rw [valueType?, hvalue]; rfl)
  rw [← isPointerOperand_value, ← isPointerOperand_value,
    K.isPointerOperand_eq htype]

theorem ofCall {args : List Operand} (h : ShadowFrame.ofCall s.func args ret = .ok frame) :
    ShadowFrame.ofCall u.func args ret = .ok frame := by
  simp only [ShadowFrame.ofCall, Outcome.bind_eq_ok, Outcome.mapM_eq_ok] at h ⊢
  obtain ⟨types, htypes, hframe⟩ := h
  exact ⟨types, htypes.imp fun _ _ => K.operandType, hframe⟩

theorem map_kind? {kinds : List InstKind} (hkinds : ∀ kind ∈ kinds, env.CallsFrames kind)
    (h : ids.map s.func.kind? = kinds.map some) : ids.map u.func.kind? = kinds.map some := by
  rw [← h]
  refine List.map_congr_left fun x hx => ?_
  obtain ⟨kind, hkind, heq⟩ := List.mem_map.mp (h ▸ List.mem_map.mpr ⟨x, hx, rfl⟩)
  obtain ⟨r, args, -, rfl⟩ := hkinds kind hkind
  rw [← heq, K.kind? heq.symm (by simp [Env.callOf, InstKind.isPhi])]

theorem recordedAs (h : s.RecordedAs env x ids) : u.RecordedAs env x ids := by
  obtain ⟨md, hlookup, hnames⟩ := h
  exact ⟨md, K.record hlookup, hnames⟩

theorem loadsParam {entry : (ValueId × Nat) × Nat} (h : s.LoadsParam env f entry ids) :
    u.LoadsParam env f entry ids := by
  rw [LoadsParam] at h ⊢
  split
  · rwa [if_pos ‹_›] at h
  · rw [if_neg ‹_›] at h
    exact ⟨K.map_kind? Env.callsFrames_slotLoads h.1, K.recordedAs h.2⟩

end

section

variable (K : Kept own s u) {callee : Operand} {args : List Operand} {sig : Signature}
  {before after : List ValueId} (hargs : ∀ arg ∈ args, ∃ ty, s.func.operandType arg = .ok ty)
  (hkind : s.func.kind? x = some (.call callee args sig))

include K hargs

theorem filter_isPointerOperand :
    args.filter u.func.isPointerOperand = args.filter s.func.isPointerOperand := by
  refine List.filter_congr fun arg harg => ?_
  obtain ⟨ty, htype⟩ := hargs arg harg
  exact K.isPointerOperand_eq htype

include hkind

theorem passesPointers : u.PassesPointers x args = s.PassesPointers x args := by
  rw [PassesPointers, PassesPointers, K.isPointerValue_eq hkind, K.filter_isPointerOperand hargs]

private theorem bracketed (h : s.Bracketed env x args before after) :
    u.Bracketed env x args before after := by
  obtain ⟨⟨mds, hmds, hopen⟩, ids, last, hafter, hclose, hresult⟩ := h
  constructor
  · refine ⟨mds, ?_, K.map_kind? Env.callsFrames_opening hopen⟩
    rw [K.filter_isPointerOperand hargs]
    exact hmds.imp fun _ _ => K.resolved?
  · refine ⟨ids, last, hafter, ?_, ?_⟩
    · rw [K.isPointerValue_eq hkind]
      exact K.map_kind? Env.callsFrames_closing hclose
    · grind [isPointerValue_eq, recordedAs]

end

theorem around (K : Kept own s u) {before after : List ValueId} (h : s.Around env x before after) :
    u.Around env x before after := by
  have typed : ∀ {args : List Operand}, (∀ arg ∈ args, ∃ ty, s.func.operandType arg = .ok ty) →
      ∀ arg ∈ args, ∃ ty, u.func.operandType arg = .ok ty :=
    fun h arg harg => (h arg harg).imp fun _ => K.operandType
  cases h with
  | framed hkind hcallee hargs hpasses hframe =>
    exact .framed (K.nonphi hkind rfl) hcallee (typed hargs)
      (by rwa [K.passesPointers hargs hkind]) (K.bracketed hargs hkind hframe)
  | plain hkind hplain =>
    refine .plain (K.nonphi hkind rfl) fun hcallee => ?_
    obtain ⟨hargs, hpasses⟩ := hplain hcallee
    exact ⟨typed hargs, by rwa [K.passesPointers hargs hkind]⟩
  | returned hkind hpointer hmd hstores =>
    obtain ⟨ty, htype, -⟩ := isPointerOperand_iff.mp hpointer
    exact .returned (K.nonphi hkind rfl)
      (by rwa [K.isPointerOperand_eq htype]) (K.resolved? hmd)
      (K.map_kind? Env.callsFrames_slotStores hstores)
  | left hkind htype hpointer =>
    exact .left (K.nonphi hkind rfl) (K.operandType htype) hpointer
  | @other kind hkind hother =>
    cases kind with
    | phi incoming =>
      obtain ⟨edges, hedges⟩ := K.phi hkind
      exact .other hedges (.inl rfl)
    | _ => exact .other (K.nonphi hkind rfl) hother

end Kept

/-! ### Steps that do not show -/

section

variable (hdistinct : env.Distinct)

include hdistinct

/-- Steps that call no frame routines do not change the code for frames. -/
theorem Steps.frameCode_eq {g : Function} (S : Steps env p g own s u) (W : s.Woven env p g)
    (hp : ∀ r : Routine, p r → r.onFrames = false) (b : BlockId) :
    env.frameCode f u.func b = env.frameCode f s.func b := by
  induction S with
  | refl => rfl
  | tail S step ih =>
    rw [← ih]
    rcases step.grows with G | ⟨shadow, incoming, edges, -, -, hkind, hfunc⟩
    · exact Env.frameCode_eq_of_grows hdistinct hp (Steps.woven S W).func_tidy G b
    · rw [hfunc]
      exact Env.frameCode_withEdges hkind b

section

variable (T : s.func.Tidy)

include T

/-- So it is enough that steps can be made without frame routines from where they start. -/
theorem frameCode_eq_of_steps (S : Steps env (fun r => r.onFrames = false) s.func own s u)
    (b : BlockId) : env.frameCode f u.func b = env.frameCode f s.func b :=
  Steps.frameCode_eq hdistinct S ⟨T, .refl⟩ (fun _ h => h) b

theorem frameCode_tryResolve {found : Option PointerMetadata}
    (h : (tryResolve env operand).Runs s found s') (b : BlockId) :
    env.frameCode f s'.func b = env.frameCode f s.func b := by
  have W : s.Woven env (fun r => r.onFrames = false) s.func := ⟨T, .refl⟩
  exact frameCode_eq_of_steps hdistinct T (tryResolve_steps W rfl h).1 b

theorem frameCode_tryResolveAll {operands : List Operand} {found : Option (List PointerMetadata)}
    (h : (tryResolveAll env operands).Runs s found s') (b : BlockId) :
    env.frameCode f s'.func b = env.frameCode f s.func b := by
  have W : s.Woven env (fun r => r.onFrames = false) s.func := ⟨T, .refl⟩
  exact frameCode_eq_of_steps hdistinct T (tryResolveAll_steps W rfl h).1 b

/-- What is gathered for an instruction that is no call and no return does not show. -/
theorem frameCode_propagate (hnone : s.store.lookup id = none) (hkind : s.func.kind? id = some kind)
    (hcross : kind.crossesCalls = false) (h : (propagate env id).Runs s done s') (b : BlockId) :
    env.frameCode f s'.func b = env.frameCode f s.func b := by
  cases hphi : kind.isPhi with
  | false =>
    exact frameCode_eq_of_steps hdistinct T (propagate_steps ⟨T, .refl⟩
      (index_lt_of_kind? hkind).2 hnone (fun r _ hr => by simpa [hcross] using hr) hkind
      hphi h).1 b
  | true =>
    obtain ⟨incoming, rfl⟩ := InstKind.exists_of_isPhi hphi
    obtain ⟨-, ⟨-, hphi⟩ | ⟨-, rfl⟩⟩ := runs_propagate_phi hkind h
    · obtain ⟨_, _, _, _, v, _, hlocate, hphis, -, hfunc, -⟩ := propagatePhi_runs hphi
      rw [hfunc]
      exact Env.frameCode_eq_of_grows hdistinct (fun _ h => h) T
        (Step.grows_of_placeholders hkind hlocate hphis) b
    · rfl

end

end

/-! ### Putting a frame around a call -/

theorem runs_marshalCall (hneeded : frame.isNeeded) (hcount : frame.slotCount = mds.length + 1)
    (hmds : ∀ md ∈ mds, env.Complete md) (hconfig : env.config.validate = .ok ())
    (hnone : s.store.lookup id = none) (h : (marshalCall env id frame mds).Runs s ⟨⟩ s') :
    ∃ b i opened v b' i' ids last v', s.func.locate? (.before id) = some (b, i) ∧
      Splice.Inserts ⟨s.func, b, i⟩ opened (env.opening mds) v ∧
      v.func.locate? (.after id) = some (b', i') ∧
      Splice.Inserts ⟨v.func, b', i'⟩ (ids ++ [last]) (env.closing frame.returnsPointer) v' ∧
      s'.func = v'.func ∧ (frame.returnsPointer → s'.RecordedAs env id ids) := by
  rw [marshalCall, if_pos hneeded, hcount] at h
  simp only [runs_bind, runs_splice] at h
  obtain ⟨_, _, ⟨b, i, v, hlocate, ⟨_, w, hcall, hstores⟩, rfl⟩, result, _,
    ⟨b', i', v', hlocate', hresult, rfl⟩, h⟩ := h
  obtain ⟨opened, I⟩ := Splice.inserts_openFrame hmds hcall hstores
  obtain ⟨ids, last, I', hloaded⟩ := Splice.inserts_closeFrame hresult
  refine ⟨b, i, opened, v, b', i', ids, last, v', hlocate, I, hlocate', I', ?_⟩
  cases result with
  | none => grind [runs_count]
  | some md =>
    simp only [runs_bind, runs_count, runs_associate] at h
    obtain ⟨_, _, ⟨store, hassociate, rfl⟩, rfl⟩ := h
    refine ⟨rfl, fun hreturns => ?_⟩
    rw [if_pos hreturns] at hloaded
    obtain ⟨md, ⟨⟩, hnames⟩ := hloaded
    have hlookup := Store.associate_lookup hassociate hnone
    rw [hnames.not_isEmpty hconfig] at hlookup
    exact ⟨md, hlookup, hnames⟩

/-! ### The ledger of a weaving -/

/-- A ledger of the code for frames that has been woven into `f`. The instructions of `all` are
those that are visited, and those of `todo` have not been given any code yet. -/
structure Framed (env : Env) (f : Function) (all todo : List ValueId) (L : FrameLedger)
    (s : Weaving) : Prop where
  code : ∀ b, env.frameCode f s.func b = L.code f b
  top : List.Forall₂ (s.LoadsParam env f) f.pointerParams.zipIdx L.top
  around : ∀ x ∈ all, x ∉ todo → s.Around env x (L.before x) (L.after x)
  bare : ∀ x, x ∉ all ∨ x ∈ todo → L.before x = [] ∧ L.after x = []

namespace Framed

variable {all todo front rest : List ValueId} {L L' : FrameLedger} {args : List Operand}
  {returned callee : Operand} {sig : Signature}

theorem of_kept (F : Framed env f all todo L s) (K : Kept own s u)
    (hcode : ∀ b, env.frameCode f u.func b = env.frameCode f s.func b) :
    Framed env f all todo L u :=
  ⟨fun b => (hcode b).trans (F.code b), F.top.imp fun _ _ => K.loadsParam,
    fun x hx hnot => K.around (F.around x hx hnot), F.bare⟩

section

variable (F : Framed env f all (front ++ id :: rest) L s) (hnodup : (front ++ id :: rest).Nodup)
  (hid : id ∈ all) (K : Kept own s u)

include F hnodup hid K

theorem settle (htop : L'.top = L.top)
    (hsame : ∀ x, x ≠ id → L'.before x = L.before x ∧ L'.after x = L.after x)
    (hcode : ∀ b, env.frameCode f u.func b = L'.code f b)
    (haround : u.Around env id (L'.before id) (L'.after id)) :
    Framed env f all (front ++ rest) L' u := by
  refine ⟨hcode, htop ▸ F.top.imp fun _ _ => K.loadsParam, fun x hx hnot => ?_, fun x hx => ?_⟩
  · grind [Kept.around, around]
  · grind [bare]

theorem settle_bare (hcode : ∀ b, env.frameCode f u.func b = env.frameCode f s.func b)
    (haround : u.Around env id [] []) : Framed env f all (front ++ rest) L u := by
  obtain ⟨hbefore, hafter⟩ := F.bare id (.inr (by simp))
  refine F.settle hnodup hid K rfl (fun _ _ => ⟨rfl, rfl⟩) (fun b => (hcode b).trans (F.code b)) ?_
  rwa [hbefore, hafter]

end

/-! ### Calls and returns -/

section

variable {b : BlockId} (F : Framed env f all (front ++ id :: rest) L s)
  (hnodup : (front ++ id :: rest).Nodup) (hid : id ∈ all) (hb : id ∈ f.programInsts b)
  (W : s.Woven env Any f) (hstore : s.store.Complete env)

include F hnodup hid hb W hstore

theorem marshalCall (hconfig : env.config.validate = .ok ()) (hnone : s.store.lookup id = none)
    (hkind : s.func.kind? id = some (.call callee args sig))
    (hcallee : env.interface.isInstrumentedCall callee)
    (hframe : ShadowFrame.ofCall s.func args ret = .ok frame)
    (hret : s.func.isPointerValue id = ret.isPointer)
    (hmds : List.Forall₂ (fun arg md => s.resolved? env arg = some md)
      (args.filter s.func.isPointerOperand) mds)
    (h : (marshalCall env id frame mds).Runs s ⟨⟩ s') (K : Kept own s s') :
    ∃ L', Framed env f all (front ++ rest) L' s' := by
  have hbare := F.bare id (.inr (by simp))
  have hargs := ShadowFrame.operandType_of_ofCall hframe
  have hneeded : frame.isNeeded = s.PassesPointers id args := by
    rw [ShadowFrame.isNeeded, ShadowFrame.slotCount_ofCall hframe, PassesPointers, hret]
    cases (args.filter s.func.isPointerOperand).isEmpty <;> cases ret.isPointer <;> simp
  have hpasses' := K.passesPointers hargs hkind
  have hkind' := K.nonphi hkind rfl
  by_cases hpasses : s.PassesPointers id args
  · have hcount : frame.slotCount = mds.length + 1 := by
      rw [ShadowFrame.isNeeded, hpasses] at hneeded
      rw [ShadowFrame.slotCount_ofCall hframe] at hneeded ⊢
      split at hneeded
      · cases hneeded
      · rw [if_neg ‹_›, hmds.length_eq]
    have hcomplete : ∀ md ∈ mds, env.Complete md := fun md hmd => by
      obtain ⟨arg, -, hresolved⟩ := exists_of_forall₂ hmds hmd
      exact complete_of_resolved? (fun v md _ => hstore v md) hresolved
    obtain ⟨_, _, opened, v, _, _, ids, last, v', hlocate, I, hlocate', I', hfunc, hrecorded⟩ :=
      runs_marshalCall (hneeded.trans hpasses) hcount hcomplete hconfig hnone h
    have hprogram := W.grows.programInsts_eq W.tidy
    have hopened := FrameLedger.code_before W.func_tidy F.code hprogram hb I W.grows.size_le hlocate
      Env.callsFrames_opening
    have G := I.grows (fun kind hkind => (Env.callsFrames_opening kind hkind).weft)
      (place_before hlocate)
    have Wv : Woven env Any f { s with func := v.func } := ⟨W.tidy, W.grows.trans G⟩
    have hprogram' := Wv.grows.programInsts_eq W.tidy
    have hclosed := FrameLedger.code_after Wv.func_tidy hopened hprogram' hb I' Wv.grows.size_le
      hlocate' Env.callsFrames_closing
    have hpointer : frame.returnsPointer = s'.func.isPointerValue id := by
      rw [(ShadowFrame.ofCall_eq_ok hframe).2, ← hret, K.isPointerValue_eq hkind]
    rw [hpointer] at hrecorded I'
    -- closing the frame leaves what opens it as it is
    have G' := I'.grows (fun kind hkind => (Env.callsFrames_closing kind hkind).weft)
      (place_after (G.kind?_eq hkind) rfl hlocate')
    have K' : Kept own { s with func := v.func } { s with func := v'.func } :=
      .of_grows Wv.func_tidy G'
    have hbefore := K'.map_kind? Env.callsFrames_opening I.map_kind?
    have hafter := I'.map_kind?
    rw [← hfunc] at hbefore hafter
    refine ⟨(L.putBefore id opened).putAfter id (ids ++ [last]), F.settle hnodup hid K rfl
      (fun x hx => ⟨if_neg hx, if_neg hx⟩) (fun d => by rw [hfunc, hclosed d]) ?_⟩
    have hlists : ((L.putBefore id opened).putAfter id (ids ++ [last])).before id = opened ∧
        ((L.putBefore id opened).putAfter id (ids ++ [last])).after id = ids ++ [last] := by
      simp [FrameLedger.putBefore, FrameLedger.putAfter, hbare]
    rw [hlists.1, hlists.2]
    refine .framed hkind' hcallee (fun arg harg => (hargs arg harg).imp fun _ => K.operandType)
      (by rwa [hpasses']) ⟨⟨mds, ?_, hbefore⟩, ids, last, rfl, hafter, hrecorded⟩
    rw [K.filter_isPointerOperand hargs]
    exact hmds.imp fun _ _ => K.resolved?
  · rw [Weaving.marshalCall, hneeded, if_neg hpasses] at h
    obtain ⟨-, rfl⟩ := runs_pure.mp h
    exact ⟨L, F.settle_bare hnodup hid K (fun _ => rfl) (.plain hkind fun _ => ⟨hargs, hpasses⟩)⟩

/-- The record of a pointer is stored before it is returned. -/
theorem marshalReturn (hkind : s.func.kind? id = some (.ret (some returned)))
    (hpointer : s.func.isPointerOperand returned) (hmd : s.resolved? env returned = some md)
    (h : (marshalReturn env id md).Runs s ⟨⟩ s') (K : Kept own s s') :
    ∃ L', Framed env f all (front ++ rest) L' s' := by
  have hbare := F.bare id (.inr (by simp))
  rw [Weaving.marshalReturn, runs_splice] at h
  obtain ⟨b, i, v, hlocate, hstores, rfl⟩ := h
  have hcomplete := complete_of_resolved? (fun v md _ => hstore v md) hmd
  obtain ⟨ids, I⟩ := Splice.inserts_storeSlot hcomplete hstores
  have hprogram := W.grows.programInsts_eq W.tidy
  have hcode := FrameLedger.code_before W.func_tidy F.code hprogram hb I W.grows.size_le hlocate
    Env.callsFrames_slotStores
  refine ⟨L.putBefore id ids, F.settle hnodup hid K rfl (fun x hx => ⟨if_neg hx, rfl⟩) hcode ?_⟩
  have hlists : (L.putBefore id ids).before id = ids ∧ (L.putBefore id ids).after id = [] := by
    simp [FrameLedger.putBefore, hbare]
  rw [hlists.1, hlists.2]
  obtain ⟨ty, htype, -⟩ := isPointerOperand_iff.mp hpointer
  exact .returned (K.nonphi hkind rfl) (by rwa [K.isPointerOperand_eq htype])
    (K.resolved? hmd) I.map_kind?

section

variable (hdistinct : env.Distinct)

include hdistinct

theorem propagateReturn (hkind : s.func.kind? id = some (.ret (some returned)))
    (h : (propagateReturn env id returned).Runs s done s') :
    ∃ L', Framed env f all (front ++ if done then rest else id :: rest) L' s' := by
  have hindex := index_lt_of_mem_programInsts W.tidy hb
  simp only [Weaving.propagateReturn, runs_bind, runs_operandType] at h
  obtain ⟨ty, _, ⟨htype, rfl⟩, h⟩ := h
  by_cases hty : ty.isPointer
  · simp only [hty, if_true, runs_bind] at h
    obtain ⟨found, u, hresolve, h⟩ := h
    obtain ⟨S, hresolved, hsteady⟩ := tryResolve_steps W trivial hresolve
    have Fu := F.of_kept (S.kept W) (frameCode_tryResolve hdistinct W.func_tidy hresolve)
    cases found with
    | none =>
      obtain ⟨rfl, rfl⟩ := runs_pure.mp h
      exact ⟨L, Fu⟩
    | some md =>
      simp only [runs_bind] at h
      obtain ⟨_, _, hmarshal, rfl, rfl⟩ := h
      have hkind := (S.kept W).nonphi hkind rfl
      have hpointer : u.func.isPointerOperand returned :=
        isPointerOperand_iff.mpr ⟨ty, (S.kept W).operandType htype, hty⟩
      obtain ⟨S', -⟩ :=
        marshalReturn_steps hindex (fun _ _ => trivial) hkind hresolved hmarshal
      exact Fu.marshalReturn hnodup hid hb (S.woven W) (hsteady.store ▸ hstore) hkind hpointer
        hresolved hmarshal (S'.kept (S.woven W))
  · simp only [hty] at h
    obtain ⟨rfl, rfl⟩ := h
    have K : Kept Never s s := .refl
    exact ⟨L, F.settle_bare hnodup hid K (fun _ => rfl) (.left hkind htype (by simpa using hty))⟩

section

variable (hconfig : env.config.validate = .ok ()) (hnone : s.store.lookup id = none)

include hconfig hnone

theorem propagateCall (hkind : s.func.kind? id = some (.call callee args sig))
    (hret : s.func.isPointerValue id = ret.isPointer)
    (h : (propagateCall env id ret callee args).Runs s done s') :
    ∃ L', Framed env f all (front ++ if done then rest else id :: rest) L' s' := by
  have hindex := index_lt_of_mem_programInsts W.tidy hb
  have K : Kept (fun v => v = id ∧ done) s s' :=
    (propagateCall_steps W hindex hnone (fun _ _ => trivial) hkind h).1.kept W
  rw [Weaving.propagateCall] at h
  by_cases hcallee : env.interface.isInstrumentedCall callee
  · rw [if_pos hcallee, runs_get_bind] at h
    simp only [runs_bind, runs_ofExcept] at h
    obtain ⟨frame, _, ⟨hframe, rfl⟩, found, u, hresolve, h⟩ := h
    rw [(ShadowFrame.ofCall_eq_ok hframe).1] at hresolve
    obtain ⟨S, hsteady, hmds⟩ := tryResolveAll_steps W trivial hresolve
    have Fu := F.of_kept (S.kept W) (frameCode_tryResolveAll hdistinct W.func_tidy hresolve)
    cases found with
    | none =>
      obtain ⟨rfl, rfl⟩ := runs_pure.mp h
      exact ⟨L, Fu⟩
    | some mds =>
      simp only [runs_bind] at h
      obtain ⟨_, _, hmarshal, rfl, rfl⟩ := h
      have hargs := ShadowFrame.operandType_of_ofCall hframe
      have hmds := hmds mds rfl
      rw [← (S.kept W).filter_isPointerOperand hargs] at hmds
      rw [← (S.kept W).isPointerValue_eq hkind] at hret
      have hkind := (S.kept W).nonphi hkind rfl
      have hnone : u.store.lookup id = none := by rw [hsteady.store, hnone]
      obtain ⟨S', -⟩ :=
        marshalCall_steps (S.woven W) hindex hnone (fun _ _ => trivial) hkind hcallee
        (fun md hmd => by
          obtain ⟨arg, harg, hresolved⟩ := exists_of_forall₂ hmds hmd
          exact ⟨arg, List.mem_of_mem_filter harg, hresolved⟩) hmarshal
      exact Fu.marshalCall hnodup hid hb (S.woven W) (hsteady.store ▸ hstore) hconfig hnone hkind
        hcallee ((S.kept W).ofCall hframe) hret hmds hmarshal (S'.kept (S.woven W))
  · -- unknown code is called as it was
    rw [if_neg hcallee] at h
    obtain ⟨rfl, hfunc⟩ : done = true ∧ s'.func = s.func := by
      simp only [runs_ite, runs_bind, runs_associate] at h
      rcases h with ⟨-, _, _, ⟨store, -, rfl⟩, rfl, rfl⟩ | ⟨-, rfl, rfl⟩
      · exact ⟨rfl, rfl⟩
      · exact ⟨rfl, rfl⟩
    exact ⟨L, F.settle_bare hnodup hid K (fun _ => by rw [hfunc])
      (.plain (K.nonphi hkind rfl) fun h => absurd h hcallee)⟩

/-- An instruction that is visited has been given its code, unless it has to wait. -/
theorem propagate (K : Kept own s s') (h : (propagate env id).Runs s done s') :
    ∃ L', Framed env f all (front ++ if done then rest else id :: rest) L' s' := by
  have hprogram : id ∈ s.func.programInsts b := by rwa [W.grows.programInsts_eq W.tidy]
  obtain ⟨⟨kind, block, inserted⟩, hinst⟩ := W.func_tidy.listed (List.mem_of_mem_filter hprogram)
  have hkind : s.func.kind? id = some kind := kind?_of_inst? hinst
  obtain ⟨ty, hvalue⟩ := inst?_eq_some_iff.mp hinst
  cases hcross : kind.crossesCalls with
  | false =>
    have hcode := fun b => frameCode_propagate (f := f) hdistinct W.func_tidy hnone hkind hcross h b
    cases done with
    | false => exact ⟨L, F.of_kept K hcode⟩
    | true =>
      have haround : s.Around env id [] [] := .other hkind (.inl hcross)
      exact ⟨L, F.settle_bare hnodup hid K hcode (K.around haround)⟩
  | true =>
    rw [Weaving.propagate, runs_get_bind] at h
    simp only [hvalue] at h
    cases kind with
    | call callee args sig =>
      refine F.propagateCall hnodup hid hb W hstore hdistinct hconfig hnone hkind ?_ h
      rw [isPointerValue, valueType?, hvalue]
      rfl
    | ret returned =>
      cases returned with
      | none =>
        obtain ⟨rfl, rfl⟩ := runs_pure.mp h
        exact ⟨L, F.settle_bare hnodup hid K (fun _ => rfl) (.other hkind (.inr rfl))⟩
      | some returned => exact F.propagateReturn hnodup hid hb W hstore hdistinct hkind h
    | _ => cases hcross

end

end

end

end Framed

end Weaving

end PointerGuard
