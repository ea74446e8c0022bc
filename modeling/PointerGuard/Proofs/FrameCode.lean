import PointerGuard.Proofs.Filling

/-!
# Code for shadow frames

The frame code of a block consists of the instructions of the program and the inserted calls of
frame routines. A ledger says which part belongs to which instruction: what was put in front of it
and behind it, and what the function starts with.
-/

namespace PointerGuard

open PointerGuard.Function

variable {front rest ids : List ValueId} {md : PointerMetadata} {slot i : Nat} {env : Env}
  {p : Routine → Prop} {f g h : Function} {b : BlockId} {x param : ValueId} {s u v : Splice}
  {kinds : List InstKind} {mds : List PointerMetadata}

namespace Env

/-- The stores of a record into a slot, one for each component that is tracked. -/
def slotStores (env : Env) (md : PointerMetadata) (slot : Nat) : List InstKind :=
  env.components.map fun c =>
    env.callOf c.storer [md.component env.width c, ShadowFrame.slotOperand slot]

/-- The loads of a record from a slot, one for each component that is tracked. -/
def slotLoads (env : Env) (slot : Nat) : List InstKind := env.components.map (env.slotLoad slot)

/-- The code that opens a frame for some records and a result, and stores the records. -/
def opening (env : Env) (mds : List PointerMetadata) : List InstKind :=
  env.callOf .allocateFrame [ShadowFrame.slotOperand (mds.length + 1)] ::
    mds.zipIdx.flatMap fun entry => env.slotStores entry.1 (entry.2 + 1)

/-- The code that closes a frame, after it has loaded the record of a result that is a pointer. -/
def closing (env : Env) (pointer : Bool) : List InstKind :=
  (if pointer then env.slotLoads 0 else []) ++ [env.callOf .deallocateFrame []]

/-- The tracked components of a record are the results of some instructions, in order. -/
def Names (env : Env) (md : PointerMetadata) (ids : List ValueId) : Prop :=
  env.components.map (md.component env.width) = ids.map Operand.value

/-- Is an instruction of `g` of the program, or a call of a frame routine that is not in `f`? -/
def framing (env : Env) (f g : Function) (x : ValueId) : Bool :=
  g.isProgramInst x ||
    (decide (f.values.size ≤ x.index) && (g.kind? x).any (env.calls Routine.onFrames))

/-- The instructions of the program in a block of `g`, and among them the calls of frame routines
that are not in `f`. -/
def frameCode (env : Env) (f g : Function) (b : BlockId) : List ValueId :=
  (g.instsOf b).filter (env.framing f g)

variable {phi : ValueId} {kind : InstKind}

/-- A call of a frame routine. -/
def CallsFrames (env : Env) (kind : InstKind) : Prop :=
  ∃ (r : Routine) (args : List Operand), r.onFrames ∧ kind = env.callOf r args

theorem CallsFrames.weft (h : env.CallsFrames kind) : kind.Weft env.routines Any := by
  obtain ⟨r, args, -, rfl⟩ := h
  exact .call trivial

theorem CallsFrames.calls (h : env.CallsFrames kind) : env.calls Routine.onFrames kind := by
  obtain ⟨r, args, hr, rfl⟩ := h
  exact calls_callOf hr

theorem callsFrames_slotStores : ∀ kind ∈ env.slotStores md slot, env.CallsFrames kind := by
  intro kind hkind
  obtain ⟨c, -, rfl⟩ := List.mem_map.mp hkind
  exact ⟨c.storer, _, by cases c <;> rfl, rfl⟩

theorem callsFrames_slotLoads : ∀ kind ∈ env.slotLoads slot, env.CallsFrames kind := by
  intro kind hkind
  obtain ⟨c, -, rfl⟩ := List.mem_map.mp hkind
  exact ⟨c.loader, _, by cases c <;> rfl, rfl⟩

theorem callsFrames_opening : ∀ kind ∈ env.opening mds, env.CallsFrames kind := by
  intro kind hkind
  rcases List.mem_cons.mp hkind with rfl | hkind
  · exact ⟨.allocateFrame, _, rfl, rfl⟩
  · grind [callsFrames_slotStores]

theorem callsFrames_closing {pointer : Bool} :
    ∀ kind ∈ env.closing pointer, env.CallsFrames kind := by
  intro kind hkind
  rcases List.mem_append.mp hkind with hkind | hkind
  · grind [callsFrames_slotLoads]
  · exact ⟨.deallocateFrame, _, rfl, List.mem_singleton.mp hkind⟩

theorem Names.not_isEmpty (h : env.Names md ids) (hconfig : env.config.validate = .ok ()) :
    md.isEmpty = false := by
  have hcomponents : env.components ≠ [] := by
    rw [Config.validate] at hconfig
    rw [components_eq]
    cases hspatial : env.config.spatialSafety <;> cases htemporal : env.config.temporalSafety <;>
      simp_all [Component.ofHalves]
  obtain ⟨c, rest, hc⟩ := List.exists_cons_of_ne_nil hcomponents
  obtain ⟨x, -, hx⟩ := List.mem_map.mp (h ▸ List.mem_map.mpr ⟨c, by simp [hc], rfl⟩)
  rw [Bool.eq_false_iff]
  intro hempty
  have hnone := md.get?_of_isEmpty hempty c
  rcases md.component_eq env.width c with hget | hconst
  · cases hget.symm.trans hnone
  · rw [← hx] at hconst
    cases hconst

theorem framing_congr (hvalue : h.value? x = g.value? x) :
    env.framing f h x = env.framing f g x := by
  rw [framing, framing, isProgramInst_congr hvalue, kind?_congr hvalue]

theorem frameCode_self (T : f.Tidy) (b : BlockId) : env.frameCode f f b = f.programInsts b := by
  refine List.filter_congr fun x hx => ?_
  have hold : ¬f.values.size ≤ x.index := Nat.not_le.mpr (T.index_lt hx)
  rw [framing, decide_eq_false hold, Bool.false_and, Bool.or_false]

/-- Growth that calls no frame routines does not show. -/
theorem frameCode_eq_of_grows (hdistinct : env.Distinct)
    (hp : ∀ r : Routine, p r → r.onFrames = false) (T : g.Tidy) (G : g.Grows env.routines p h)
    (b : BlockId) : env.frameCode f h b = env.frameCode f g b := by
  rw [frameCode, frameCode, ← G.filter_instsOf T b, List.filter_filter]
  refine List.filter_congr fun x hx => ?_
  by_cases hold : x.index < g.values.size
  · rw [framing_congr (G.value?_eq hold), decide_eq_true hold, Bool.and_true]
  · -- what is new is not of the program, and no frame routine
    have hnew := Nat.not_lt.mp hold
    have hkind : (h.kind? x).any (env.calls Routine.onFrames) = false := by
      rw [Option.any_eq_false]
      intro kind hkind
      simpa using calls_eq_false hdistinct hp (G.new_kind hkind hnew)
    rw [framing, G.not_isProgramInst hnew, hkind, decide_eq_false hold]
    simp

theorem frameCode_withEdges {incoming edges : List (Operand × BlockId)}
    (hphi : g.kind? phi = some (.phi incoming)) (b : BlockId) :
    env.frameCode f (g.withEdges phi edges) b = env.frameCode f g b := by
  rw [frameCode, instsOf_withEdges]
  refine List.filter_congr fun x _ => ?_
  rw [framing, framing, isProgramInst_withEdges]
  by_cases hx : x = phi
  · subst hx
    rw [kind?_withEdges hphi, hphi]
    rfl
  · rw [kind?_withEdges_of_ne hx]

end Env

/-! ### Insertions with their results -/

namespace Splice

variable {w : Splice}

namespace Inserts

theorem not_program (I : s.Inserts ids kinds u) (hx : x ∈ ids) :
    u.func.isProgramInst x = false := by
  obtain ⟨kind, ty, N⟩ := I.new hx
  rw [isProgramInst, inst?_eq_some_iff.mpr ⟨ty, N.value?⟩]
  rfl

theorem grows {t : RoutineTable} (I : s.Inserts ids kinds u)
    (hkinds : ∀ kind ∈ kinds, kind.Weft t p) (place : s.func.Place s.block s.position) :
    s.func.Grows t p u.func := by
  have both : s.func.Grows t p u.func ∧ u.func.Place u.block u.position := by
    induction I with
    | refl => exact ⟨.refl, place⟩
    | push _ ih =>
      obtain ⟨G, place⟩ := ih fun kind hkind => hkinds kind (List.mem_append_left _ hkind)
      have weft := hkinds _ (List.mem_append_right _ (List.mem_singleton_self _))
      exact ⟨.insert G place weft, place.insertAt weft⟩
  exact both.1

end Inserts

/-! ### Moving records -/

open Edit ShadowFrame

theorem inserts_storeSlot (hmd : env.Complete md)
    (h : (storeSlot env.routines md slot).Runs s ⟨⟩ u) :
    ∃ ids, s.Inserts ids (env.slotStores md slot) u := by
  rw [storeSlot_eq env.width, runs_map] at h
  obtain ⟨results, h, -⟩ := h
  have I := inserts_each inserts_insert h
  rw [hmd.parts_eq] at I
  exact ⟨_, I⟩

theorem inserts_storeSlots {mds : List (PointerMetadata × Nat)}
    (hmds : ∀ entry ∈ mds, env.Complete entry.1)
    (h : (mds.forM fun entry => storeSlot env.routines entry.1 (entry.2 + 1)).Runs s ⟨⟩ u) :
    ∃ ids, s.Inserts ids (mds.flatMap fun entry => env.slotStores entry.1 (entry.2 + 1)) u := by
  induction mds generalizing s with
  | nil =>
    obtain rfl := runs_forM_nil.mp h
    exact ⟨[], .refl⟩
  | cons entry rest ih =>
    obtain ⟨w, hfirst, hrest⟩ := runs_forM_cons.mp h
    obtain ⟨ids, I⟩ := inserts_storeSlot (hmds entry (.head _)) hfirst
    obtain ⟨ids', I'⟩ := ih (fun entry hentry => hmds entry (.tail _ hentry)) hrest
    exact ⟨ids ++ ids', I.trans I'⟩

theorem inserts_loadSlot (h : (loadSlot env slot).Runs s md u) :
    ∃ ids, s.Inserts ids (env.slotLoads slot) u ∧ env.Names md ids := by
  rw [loadSlot_eq, runs_map] at h
  obtain ⟨results, h, rfl⟩ := h
  have hkeys := keys_of_runs_each h
  refine ⟨_, inserts_each inserts_insert h, ?_⟩
  rw [Env.Names, ← hkeys, List.map_map, List.map_map]
  refine List.map_congr_left fun entry hentry => ?_
  exact PointerMetadata.component_of_get? _
    ((Weaving.get?_recordOf (hkeys.trans env.components_eq)).mpr ⟨entry.2, rfl, hentry⟩)

theorem inserts_openFrame (hmds : ∀ md ∈ mds, env.Complete md)
    (hcall : (env.routines.call .allocateFrame [slotOperand (mds.length + 1)]).Runs s x w)
    (hstores : (mds.zipIdx.forM fun entry =>
      storeSlot env.routines entry.1 (entry.2 + 1)).Runs w ⟨⟩ u) :
    ∃ ids, s.Inserts ids (env.opening mds) u := by
  obtain ⟨ids, I⟩ := inserts_storeSlots
    (fun entry hentry => hmds entry.1 (List.fst_mem_of_mem_zipIdx hentry)) hstores
  exact ⟨x :: ids, (inserts_insert hcall).trans I⟩

theorem inserts_closeFrame {frame : ShadowFrame} {result : Option PointerMetadata}
    (h : (Weaving.closeFrame env frame).Runs s result u) :
    ∃ ids last, s.Inserts (ids ++ [last]) (env.closing frame.returnsPointer) u ∧
      if frame.returnsPointer then ∃ md, result = some md ∧ env.Names md ids
      else ids = [] ∧ result = none := by
  rw [Weaving.closeFrame] at h
  by_cases hreturns : frame.returnsPointer
  · simp only [hreturns, if_true, runs_bind, runs_map] at h ⊢
    obtain ⟨_, _, ⟨md, hload, rfl⟩, last, _, hcall, rfl, rfl⟩ := h
    obtain ⟨ids, I, hnames⟩ := inserts_loadSlot hload
    exact ⟨ids, last, I.trans (inserts_insert hcall), md, rfl, hnames⟩
  · simp only [hreturns, Bool.false_eq_true, if_false, pure_bind, runs_bind] at h ⊢
    obtain ⟨last, _, hcall, rfl, rfl⟩ := h
    exact ⟨[], last, inserts_insert hcall, rfl, rfl⟩

theorem inserts_toVoidPtr {operand result : Operand} (h : (toVoidPtr operand).Runs s result u) :
    ∃ ids kinds, s.Inserts ids kinds u ∧ ∀ kind ∈ kinds, kind = .cast .bitcast operand := by
  obtain ⟨ty, -, -, ⟨rfl, -⟩ | ⟨x, -, hinsert⟩⟩ := toVoidPtr_cases h
  · exact ⟨[], [], .refl, by simp⟩
  · obtain ⟨rfl, rfl⟩ := runs_insert.mp hinsert
    exact ⟨_, _, .push .refl, by simp⟩

/-- Loading the record of a parameter may be followed by a report. -/
theorem inserts_loadParameter (h : (Weaving.loadParameter env param slot).Runs s md u) :
    ∃ ids w rest kinds, s.Inserts ids (env.slotLoads slot) w ∧ w.Inserts rest kinds u ∧
      env.Names md ids ∧ ∀ kind ∈ kinds, kind.Weft env.routines (· = .introspect) := by
  rw [Weaving.loadParameter, runs_bind] at h
  obtain ⟨md', w, hload, h⟩ := h
  obtain ⟨ids, I, hnames⟩ := inserts_loadSlot hload
  have loaded : md' = md → w = u → ∃ ids w rest kinds, s.Inserts ids (env.slotLoads slot) w ∧
      w.Inserts rest kinds u ∧ env.Names md ids ∧
      ∀ kind ∈ kinds, kind.Weft env.routines (· = .introspect) := by
    rintro rfl rfl
    exact ⟨ids, w, [], [], I, .refl, hnames, by simp⟩
  by_cases hintrospect : env.config.introspectMetadata
  · rw [if_pos hintrospect] at h
    cases hspatial : md'.spatial with
    | none =>
      simp only [hspatial, runs_pure] at h
      exact loaded h.1 h.2
    | some spatial =>
      simp only [hspatial, runs_bind] at h
      obtain ⟨ptr, _, hptr, _, _, hcall, rfl, rfl⟩ := h
      obtain ⟨casts, kinds, I', hkinds⟩ := inserts_toVoidPtr hptr
      refine ⟨ids, w, _, _, I, I'.trans (inserts_insert hcall), hnames, fun kind hkind => ?_⟩
      rcases List.mem_append.mp hkind with hkind | hkind
      · rw [hkinds kind hkind]
        exact .bitcast
      · rw [List.mem_singleton.mp hkind]
        exact .call rfl
  · rw [if_neg hintrospect, runs_pure] at h
    exact loaded h.1 h.2

end Splice

/-! ### Splices and the code for frames -/

namespace Function

variable {q : InstKind → Bool}

theorem filter_kind?_eq_self (hkinds : ids.map g.kind? = kinds.map some)
    (h : ∀ kind ∈ kinds, q kind) : ids.filter (fun x => (g.kind? x).any q) = ids := by
  refine List.filter_eq_self.mpr fun x hx => ?_
  obtain ⟨kind, hkind, heq⟩ := List.mem_map.mp (hkinds ▸ List.mem_map.mpr ⟨x, hx, rfl⟩)
  rw [← heq]
  exact h kind hkind

private theorem filter_kind?_eq_nil (hkinds : ids.map g.kind? = kinds.map some)
    (h : ∀ kind ∈ kinds, q kind = false) : ids.filter (fun x => (g.kind? x).any q) = [] := by
  refine List.filter_eq_nil_iff.mpr fun x hx => ?_
  obtain ⟨kind, hkind, heq⟩ := List.mem_map.mp (hkinds ▸ List.mem_map.mpr ⟨x, hx, rfl⟩)
  rw [← heq, Option.any_some, h kind hkind]
  exact Bool.false_ne_true

end Function

/-- Of what is inserted for a parameter, the loads of its record have to do with frames. -/
theorem Splice.frames_loadParameter (hdistinct : env.Distinct)
    (h : (Weaving.loadParameter env param slot).Runs s md u) :
    ∃ ids kinds loads, s.Inserts ids kinds u ∧
      (ids.filter fun x => (u.func.kind? x).any (env.calls Routine.onFrames)) = loads ∧
      loads.map u.func.kind? = (env.slotLoads slot).map some ∧ env.Names md loads := by
  obtain ⟨loads, w, others, kinds, I, I', hnames, hkinds⟩ := inserts_loadParameter h
  have hall := (I.trans I').map_kind?
  rw [List.map_append, List.map_append] at hall
  have hlength : (loads.map u.func.kind?).length = ((env.slotLoads slot).map some).length := by
    rw [List.length_map, ← I.map_kind?, List.length_map]
  obtain ⟨hloads, hothers⟩ := List.append_inj hall hlength
  refine ⟨_, _, loads, I.trans I', ?_, hloads, hnames⟩
  rw [List.filter_append, filter_kind?_eq_self hloads fun kind hkind =>
      (Env.callsFrames_slotLoads kind hkind).calls,
    filter_kind?_eq_nil hothers fun kind hkind => Env.calls_eq_false hdistinct (by
      rintro r rfl
      rfl) (.inl (hkinds kind hkind)), List.append_nil]

namespace Env

/-- What is spliced in shows as far as it calls frame routines. -/
theorem frameCode_of_inserts (T : g.Tidy) (I : Splice.Inserts ⟨g, b, i⟩ ids kinds v)
    (hle : f.values.size ≤ g.values.size) (hb : b.index < g.blocks.size)
    (hsplit : g.instsOf b = front ++ rest) (hi : i = front.length) :
    env.frameCode f v.func b = front.filter (env.framing f g) ++
        ids.filter (fun x => (v.func.kind? x).any (env.calls Routine.onFrames)) ++
        rest.filter (env.framing f g) ∧
      ∀ c, c ≠ b → env.frameCode f v.func c = env.frameCode f g c := by
  obtain ⟨hlist, -, -, hother⟩ := I.instsOf_eq hb hsplit hi
  have hold : ∀ c, ∀ x ∈ g.instsOf c, env.framing f v.func x = env.framing f g x := by
    intro c x hx
    obtain ⟨inst, hinst⟩ := T.listed hx
    obtain ⟨ty, hvalue⟩ := inst?_eq_some_iff.mp hinst
    exact framing_congr ((I.keeps x _ hvalue).trans hvalue.symm)
  constructor
  · rw [frameCode, hlist, List.filter_append, List.filter_append]
    congr 1
    · congr 1
      · exact List.filter_congr fun x hx => hold b x (by simp [hsplit, hx])
      · refine List.filter_congr fun x hx => ?_
        rw [framing, I.not_program hx, decide_eq_true (hle.trans (I.size_le_of_mem hx)),
          Bool.false_or, Bool.true_and]
    · exact List.filter_congr fun x hx => hold b x (by simp [hsplit, hx])
  · intro c hc
    rw [frameCode, hother c hc]
    exact List.filter_congr fun x hx => hold c x hx

end Env

/-! ### Ledgers -/

/-- Which part of the code for frames belongs to what: the loads of each pointer parameter, and what
stands in front of an instruction of the program and behind it. -/
structure FrameLedger where
  /-- The loads of the parameters. -/
  top : List (List ValueId)
  /-- What stands in front of an instruction. -/
  before : ValueId → List ValueId
  /-- What stands behind an instruction. -/
  after : ValueId → List ValueId

namespace FrameLedger

/-- The code for frames in a block, as the ledger has it. -/
def code (L : FrameLedger) (f : Function) (b : BlockId) : List ValueId :=
  (if b = ⟨0⟩ then L.top.flatten else []) ++
    (f.programInsts b).flatMap fun x => L.before x ++ x :: L.after x

/-- Enter something as the last in front of an instruction. -/
def putBefore (L : FrameLedger) (y : ValueId) (ids : List ValueId) : FrameLedger :=
  { L with before := fun x => if x = y then L.before x ++ ids else L.before x }

/-- Enter something as the first behind an instruction. -/
def putAfter (L : FrameLedger) (y : ValueId) (ids : List ValueId) : FrameLedger :=
  { L with after := fun x => if x = y then ids ++ L.after x else L.after x }

/-- Nothing has been entered. -/
def empty : FrameLedger := ⟨[], fun _ => [], fun _ => []⟩

theorem code_empty (f : Function) (b : BlockId) : empty.code f b = f.programInsts b := by
  simp [code, empty]

variable {L L' : FrameLedger} {c : BlockId} {y : ValueId}

theorem code_congr (htop : L'.top = L.top)
    (h : ∀ x ∈ f.programInsts b, L'.before x = L.before x ∧ L'.after x = L.after x) :
    L'.code f b = L.code f b := by
  rw [code, htop]
  congr 1
  refine List.flatMap_congr fun x hx => ?_
  rw [(h x hx).1, (h x hx).2]

theorem code_split (h : f.programInsts b = front ++ y :: rest) :
    L.code f b = ((if b = ⟨0⟩ then L.top.flatten else []) ++
        (front.flatMap fun x => L.before x ++ x :: L.after x) ++ L.before y) ++
      y :: (L.after y ++ rest.flatMap fun x => L.before x ++ x :: L.after x) := by
  rw [code, h]
  simp

section

variable (T : g.Tidy) (hcode : ∀ c, env.frameCode f g c = L.code f c)
  (hprogram : ∀ c, g.programInsts c = f.programInsts c) (hy : y ∈ f.programInsts b)

include T hprogram hy

theorem ne_of_mem (h : f.programInsts b = front ++ y :: rest)
    (hx : (∃ d, d ≠ b ∧ x ∈ f.programInsts d) ∨ x ∈ front ∨ x ∈ rest) : x ≠ y := by
  have hmem : ∀ {d x}, x ∈ f.programInsts d → x ∈ g.instsOf d := fun {d x} hx =>
    List.mem_of_mem_filter (hprogram d ▸ hx : x ∈ g.programInsts d)
  have hnodup : (f.programInsts b).Nodup := hprogram b ▸ (T.nodup b).filter _
  rw [h, List.nodup_append, List.nodup_cons] at hnodup
  rintro rfl
  rcases hx with ⟨d, hne, hx⟩ | hx | hx
  · exact hne (T.block_eq (hmem hx) (hmem hy))
  · exact hnodup.2.2 x hx x (.head _) rfl
  · exact hnodup.2.1.1 hx

include hcode

/-- The code of a block is cut at an instruction of the program in the same way as the block. -/
theorem filter_split {before after : List ValueId} (hsplit : g.instsOf b = before ++ y :: after)
    (h : f.programInsts b = front ++ y :: rest) :
    before.filter (env.framing f g) = (if b = ⟨0⟩ then L.top.flatten else []) ++
        (front.flatMap fun x => L.before x ++ x :: L.after x) ++ L.before y ∧
      env.framing f g y ∧ after.filter (env.framing f g) =
        L.after y ++ rest.flatMap fun x => L.before x ++ x :: L.after x := by
  have hframing : env.framing f g y = true := by
    rw [Env.framing, (List.mem_filter.mp (hprogram b ▸ hy : y ∈ g.programInsts b)).2, Bool.true_or]
  have hnodup := T.nodup b
  rw [hsplit] at hnodup
  have hbefore : y ∉ before.filter (env.framing f g) := fun hmem =>
    (List.nodup_append.mp hnodup).2.2 y (List.mem_of_mem_filter hmem) y (.head _) rfl
  have hafter : y ∉ after.filter (env.framing f g) := fun hmem =>
    (List.nodup_cons.mp (List.nodup_append.mp hnodup).2.1).1 (List.mem_of_mem_filter hmem)
  have hlist := hcode b
  rw [Env.frameCode, hsplit, List.filter_append, List.filter_cons_of_pos hframing,
    code_split h] at hlist
  obtain ⟨hleft, -, hright⟩ := (List.append_cons_inj_of_notMem hbefore hafter).mp hlist
  exact ⟨hleft, hframing, hright⟩

/-- Entries for one instruction matter at that instruction only. -/
theorem code_eq_of_entry (hfront : f.programInsts b = front ++ y :: rest) (htop : L'.top = L.top)
    (hsame : ∀ x, x ≠ y → L'.before x = L.before x ∧ L'.after x = L.after x)
    (hlist : env.frameCode f h b = ((if b = ⟨0⟩ then L.top.flatten else []) ++
        (front.flatMap fun x => L.before x ++ x :: L.after x) ++ L'.before y) ++
      y :: (L'.after y ++ rest.flatMap fun x => L.before x ++ x :: L.after x))
    (hother : ∀ d, d ≠ b → env.frameCode f h d = env.frameCode f g d) (d : BlockId) :
    env.frameCode f h d = L'.code f d := by
  have hne := fun {x} => ne_of_mem T hprogram hy hfront (x := x)
  by_cases hd : d = b
  · subst hd
    have same : ∀ l : List ValueId, (∀ x ∈ l, x ≠ y) →
        (l.flatMap fun x => L'.before x ++ x :: L'.after x) =
          l.flatMap fun x => L.before x ++ x :: L.after x := fun l hl =>
      List.flatMap_congr fun x hx => by rw [(hsame x (hl x hx)).1, (hsame x (hl x hx)).2]
    rw [hlist, code_split hfront, htop, same front fun x hx => hne (.inr (.inl hx)),
      same rest fun x hx => hne (.inr (.inr hx))]
  · grind [code_congr]

variable (I : Splice.Inserts ⟨g, c, i⟩ ids kinds v) (hle : f.values.size ≤ g.values.size)

include I hle

theorem code_before (hlocate : g.locate? (.before y) = some (c, i))
    (hkinds : ∀ kind ∈ kinds, env.CallsFrames kind) (d : BlockId) :
    env.frameCode f v.func d = (L.putBefore y ids).code f d := by
  obtain ⟨before, after, hsplit, hi⟩ := locate?_before hlocate
  have hyb : y ∈ g.instsOf b := List.mem_of_mem_filter (hprogram b ▸ hy : y ∈ g.programInsts b)
  obtain rfl : c = b := T.block_eq (by simp [hsplit]) hyb
  obtain ⟨front, rest, hfront⟩ := List.append_of_mem hy
  obtain ⟨hlist, hother⟩ :=
    Env.frameCode_of_inserts T I hle (index_lt_of_mem_instsOf hyb) hsplit hi
  obtain ⟨hleft, hframing, hright⟩ := filter_split T hcode hprogram hy hsplit hfront
  have hall := filter_kind?_eq_self I.map_kind? fun kind hkind => (hkinds kind hkind).calls
  have htop : (L.putBefore y ids).top = L.top := rfl
  refine code_eq_of_entry T hcode hprogram hy hfront htop (fun x hx => ⟨if_neg hx, rfl⟩) ?_ hother d
  rw [hlist, hall, hleft, List.filter_cons_of_pos hframing, hright]
  simp [putBefore]

theorem code_after (hlocate : g.locate? (.after y) = some (c, i))
    (hkinds : ∀ kind ∈ kinds, env.CallsFrames kind) (d : BlockId) :
    env.frameCode f v.func d = (L.putAfter y ids).code f d := by
  obtain ⟨before, after, hsplit, hi⟩ := locate?_after hlocate
  have hyb : y ∈ g.instsOf b := List.mem_of_mem_filter (hprogram b ▸ hy : y ∈ g.programInsts b)
  obtain rfl : c = b := T.block_eq (by simp [hsplit]) hyb
  obtain ⟨front, rest, hfront⟩ := List.append_of_mem hy
  have hcut : g.instsOf c = (before ++ [y]) ++ after := by rw [hsplit, List.append_cons]
  obtain ⟨hlist, hother⟩ :=
    Env.frameCode_of_inserts T I hle (index_lt_of_mem_instsOf hyb) hcut hi
  obtain ⟨hleft, hframing, hright⟩ := filter_split T hcode hprogram hy hsplit hfront
  have hall := filter_kind?_eq_self I.map_kind? fun kind hkind => (hkinds kind hkind).calls
  have htop : (L.putAfter y ids).top = L.top := rfl
  refine code_eq_of_entry T hcode hprogram hy hfront htop (fun x hx => ⟨rfl, if_neg hx⟩) ?_ hother d
  rw [hlist, hall, List.filter_append, hleft, List.filter_cons_of_pos hframing, hright]
  simp [putAfter]

omit hy in
/-- As long as nothing is entered for an instruction, what is spliced in at the top of the function
comes behind what is there. -/
theorem code_top (hnone : ∀ x, L.before x = [] ∧ L.after x = [])
    (hlocate : g.locate? .prologue = some (c, i)) (d : BlockId) :
    env.frameCode f v.func d = { L with top := L.top ++
      [ids.filter fun x => (v.func.kind? x).any (env.calls Routine.onFrames)] }.code f d := by
  obtain ⟨rfl, hb, top, rest, hsplit, hi, htop, hrest⟩ := locate?_prologue hlocate
  obtain ⟨hlist, hother⟩ := Env.frameCode_of_inserts T I hle hb hsplit hi
  have hplain : ∀ (l : List (List ValueId)) b, ({ L with top := l } : FrameLedger).code f b =
      (if b = ⟨0⟩ then l.flatten else []) ++ f.programInsts b := by
    intro l b
    rw [code]
    rw [List.flatMap_congr fun x _ => by rw [(hnone x).1, (hnone x).2, List.nil_append],
      List.flatMap_singleton']
  have hcode' : ∀ b, env.frameCode f g b =
      (if b = ⟨0⟩ then L.top.flatten else []) ++ f.programInsts b := fun b =>
    (hcode b).trans (hplain L.top b)
  -- the block is cut in front of its first instruction of the program, and so is its code
  have hparts : top.filter (env.framing f g) = L.top.flatten ∧
      rest.filter (env.framing f g) = f.programInsts ⟨0⟩ := by
    have hzero := hcode' ⟨0⟩
    have hprograms := hprogram ⟨0⟩
    have hnil : top.filter g.isProgramInst = [] :=
      List.filter_eq_nil_iff.mpr fun x hx => by simp [htop x hx]
    rw [Env.frameCode, hsplit, List.filter_append] at hzero
    rw [programInsts, hsplit, List.filter_append, hnil, List.nil_append] at hprograms
    cases rest with
    | nil =>
      rw [← hprograms] at hzero ⊢
      exact ⟨by simpa using hzero, rfl⟩
    | cons y l =>
      have hy := hrest y l rfl
      have hframing : env.framing f g y = true := by rw [Env.framing, hy, Bool.true_or]
      have hnodup := T.nodup ⟨0⟩
      rw [hsplit, List.nodup_append, List.nodup_cons] at hnodup
      rw [List.filter_cons_of_pos hy] at hprograms
      rw [← hprograms, List.filter_cons_of_pos hframing] at hzero ⊢
      obtain ⟨hleft, -, hright⟩ := (List.append_cons_inj_of_notMem
        (fun h => hnodup.2.2 y (List.mem_of_mem_filter h) y (.head _) rfl)
        fun h => hnodup.2.1.1 (List.mem_of_mem_filter h)).mp hzero
      exact ⟨hleft, by rw [hright]⟩
  rw [hplain]
  by_cases hd : d = ⟨0⟩
  · subst hd
    rw [hlist, hparts.1, hparts.2]
    simp
  · rw [hother d hd, hcode' d, if_neg hd, if_neg hd]

end

end FrameLedger

end PointerGuard
