import PointerGuard.Proofs.Pipeline

/-!
# Checks in front of accesses

Inserted checks stand in gaps, between an instruction of the program and the one before it. A visit
of the check pass changes only the gap in front of the instruction it is made to, so what was put
there stays.
-/

namespace PointerGuard

open PointerGuard.Function

variable {p : Routine → Prop} {f g : Function} {y : ValueId} {ids : List ValueId}

namespace Env

/-- Does an instruction call a routine that guards loads or stores? -/
def checksAccess (env : Env) : InstKind → Bool
  | .call callee _ _ => Routine.all.any fun r => r.checksAccess && callee = env.routines.callee r
  | _ => false

/-- The checks of loads and stores among some instructions of `g` that are not in `f`. -/
def checksAmong (env : Env) (f g : Function) (insts : List ValueId) : List InstKind :=
  insts.filterMap fun x =>
    if f.values.size ≤ x.index then (g.kind? x).filter env.checksAccess else none

/-- The checks of loads and stores that stand in front of an instruction of `g`, after the last
instruction of the program, and are not in `f`. -/
def checksBefore (env : Env) (f g : Function) (b : BlockId) (y : ValueId) : List InstKind :=
  env.checksAmong f g (g.gapBefore b y)

variable {env : Env} {h : Function} {b c : BlockId} {z : ValueId}

private theorem checksAccess_eq (kind : InstKind) :
    env.checksAccess kind = env.calls Routine.checksAccess kind := by
  cases kind <;> rfl

theorem checksAccess_callOf {r : Routine} {args : List Operand} (hr : r.checksAccess) :
    env.checksAccess (env.callOf r args) := by
  rw [checksAccess_eq]
  exact calls_callOf hr

theorem checksAccess_eq_false (hdistinct : env.Distinct)
    (hp : ∀ r : Routine, p r → r.checksAccess = false) {kind : InstKind}
    (hkind : kind.Weft env.routines p ∨ kind.isPhi) : env.checksAccess kind = false := by
  exact calls_eq_false hdistinct hp hkind

/-- The checks in front of an instruction stay the same, as long as no check is added to them. -/
theorem checksBefore_eq (G : g.Grows env.routines p h) (T : g.Tidy) (hy : y ∈ g.instsOf b)
    (hnew : ∀ x kind, g.values.size ≤ x.index → x ∈ h.gapBefore b y → h.kind? x = some kind →
      env.checksAccess kind = false) : env.checksBefore f h b y = env.checksBefore f g b y := by
  rw [checksBefore, checksBefore, checksAmong, checksAmong, ← G.filter_gapBefore T hy,
    List.filterMap_filter]
  refine List.filterMap_congr fun x hx => ?_
  by_cases hold : x.index < g.values.size
  · rw [decide_eq_true hold, if_pos rfl, kind?_congr (G.value?_eq hold)]
  · rw [decide_eq_false hold]
    cases hkind : h.kind? x with
    | none => simp
    | some kind => simp [hnew x kind (Nat.not_lt.mp hold) hx hkind]

/-- Growth without checks leaves the checks in front of all instructions alone. -/
theorem checksBefore_of_grows (hdistinct : env.Distinct)
    (hp : ∀ r : Routine, p r → r.checksAccess = false) (G : g.Grows env.routines p h) (T : g.Tidy)
    (hy : y ∈ g.instsOf b) : env.checksBefore f h b y = env.checksBefore f g b y := by
  refine checksBefore_eq G T hy fun x kind hnew _ hkind => ?_
  exact checksAccess_eq_false hdistinct hp (G.new_kind hkind hnew)

section

variable {u : Function} {v : Splice} {i : Nat} {given : Operand → Prop}
  (T : u.Tidy) (hlocate : u.locate? (.before y) = some (b, i)) (A : env.Adds p given ⟨u, b, i⟩ v)

include T hlocate A

/-- Checks that are spliced in come last in front of the instruction. -/
theorem checksBefore_of_inserts {kinds : List InstKind} (I : Splice.Inserts ⟨u, b, i⟩ ids kinds v)
    (hle : f.values.size ≤ u.values.size) :
    env.checksBefore f v.func b y = env.checksBefore f u b y ++ kinds.filter env.checksAccess := by
  obtain ⟨before, after, hsplit, hposition⟩ := locate?_before hlocate
  have place := place_before hlocate
  have G : u.Grows env.routines p v.func := (A.grows (fun _ h => h.1) place).1
  have hlist := (I.instsOf_eq place.block_lt hsplit hposition).1
  have hold : ∀ x ∈ before, x.index < u.values.size := by
    intro x hx
    exact T.index_lt (show x ∈ u.instsOf b by simp [hsplit, hx])
  -- what is pushed comes last in the gap in front of the instruction
  have hgap : v.func.gapBefore b y = u.gapBefore b y ++ ids :=
    gapBefore_eq_append T (G.tidy T) hsplit hlist
      (fun x hx => G.isProgramInst_eq (hold x hx)) fun x hx =>
        G.not_isProgramInst (I.size_le_of_mem hx)
  rw [checksBefore, checksAmong, hgap, List.filterMap_append]
  congr 1
  · refine List.filterMap_congr fun x hx => ?_
    obtain ⟨-, front, rfl, -⟩ := gapBefore_split T hsplit
    rw [kind?_congr (G.value?_eq (hold x (List.mem_append_right _ hx)))]
  · -- all of the new instructions are newer than `f`
    have hcongr : ∀ x ∈ ids, (if f.values.size ≤ x.index then
        (v.func.kind? x).filter env.checksAccess else none) =
        (v.func.kind? x).filter env.checksAccess := fun x hx =>
      if_pos (hle.trans (I.size_le_of_mem hx))
    rw [List.filterMap_congr hcongr]
    calc ids.filterMap (fun x => (v.func.kind? x).filter env.checksAccess)
        = (ids.map v.func.kind?).filterMap (Option.filter env.checksAccess) := by
          rw [List.filterMap_map]
          rfl
      _ = kinds.filterMap (Option.guard env.checksAccess) := by
          rw [I.map_kind?, List.filterMap_map]
          rfl
      _ = kinds.filter env.checksAccess := by rw [List.filterMap_eq_filter]

theorem checksBefore_of_adds_ne (hz : z ∈ u.instsOf c) (hy' : u.isProgramInst y)
    (hz' : u.isProgramInst z) (hne : z ≠ y) :
    env.checksBefore f v.func c z = env.checksBefore f u c z := by
  have place := place_before hlocate
  have G : u.Grows env.routines p v.func := (A.grows (fun _ h => h.1) place).1
  obtain ⟨before, after, hsplit, -⟩ := locate?_before hlocate
  have hy : y ∈ u.instsOf b := by simp [hsplit]
  have hprogram : ∀ {x b}, x ∈ u.instsOf b → u.isProgramInst x →
      x ∈ v.func.instsOf b ∧ v.func.isProgramInst x := by
    intro x b hx hx'
    exact ⟨(G.instsOf_sublist T b).subset hx,
      by rw [G.isProgramInst_eq (T.index_lt hx), hx']⟩
  refine checksBefore_eq G T hz fun x kind hnew hx hkind => absurd ?_ hne
  obtain ⟨inst, ty, -, hvalue⟩ := value?_of_kind? hkind
  exact eq_of_mem_gapBefore (G.tidy T) (hprogram hz hz').1 (hprogram hy hy').1
    (hprogram hz hz').2 (hprogram hy hy').2 hx
      (A.mem_gapBefore (fun _ h => h.1) T hlocate hnew hvalue)

end

end Env

namespace Weaving

open Edit

variable {env : Env} {s s' : Weaving} {b : BlockId} {id : ValueId} {m : MemoryAccess}
  {v : Verdict Unit × Verdict Tier}

/-! ### One visit -/

/-- What a visit puts in front of the instruction it is made to: nothing, or the checks of an access
for whose pointer there is metadata. -/
inductive Visit (env : Env) (id : ValueId) (s s' : Weaving) : Prop
  | aside : (s.verdicts env id).1.isInserted = false → (s.verdicts env id).2.isInserted = false →
      s.func.Grows env.routines (fun r => r.checksAccess = false) s'.func → Visit env id s s'
  | guard {m md u b i given v} : s.func.access? id = some m →
      s.func.Grows env.routines (fun r => r.checksAccess = false) u →
      u.locate? (.before id) = some (b, i) →
      env.Adds Any given ⟨u, b, i⟩ v →
      (accessChecks env m (s.boundsVerdict env m).isInserted (s.keyVerdict env id m).isInserted
        md).Runs ⟨u, b, i⟩ ⟨⟩ v →
      s'.func = v.func → s'.resolved? env m.ptr = some md → Visit env id s s'

/-- The checks in front of an access are those that were decided on, with the metadata of the
pointer. -/
def GuardedBy (s : Weaving) (env : Env) (f : Function) (b : BlockId) (y : ValueId)
    (m : MemoryAccess) (v : Verdict Unit × Verdict Tier) : Prop :=
  ∃ md raw size,
    env.checksBefore f s.func b y = checkKinds env m md raw size v.1.isInserted v.2.isInserted ∧
    (v.1.isInserted ∨ v.2.isInserted → s.resolved? env m.ptr = some md) ∧
    (v.1.isInserted → signedWord? (Layout.size env.width m.ty) = some size ∧
      s.func.AsVoidPtr (· ∈ s.func.gapBefore b y) m.ptr raw)

/-- The metadata of an operand depends on the records and on the lock of the globals only. -/
theorem resolved?_congr (hstore : s'.store = s.store) (hlock : s'.globalLock = s.globalLock)
    (operand : Operand) : s'.resolved? env operand = s.resolved? env operand := by
  cases operand with
  | value v => rw [resolved?, resolved?, hstore]
  | const c =>
    simp only [resolved?, lockFor?, hlock]

section

variable (W : s.Woven env Any f) (hid : id.index < f.values.size)

include W hid

theorem Checked.visit (hm : s.func.access? id = some m) (C : Checked env id m s s') :
    Visit env id s s' := by
  cases C with
  | nothing hbounds hkey =>
    exact .aside (by rw [verdicts, hm]; exact hbounds) (by rw [verdicts, hm]; exact hkey) .refl
  | @inserted source report report' md u b i v marks hsome hnull hsource hresolve hlocate hchecks =>
    obtain ⟨-, -, hresolved, -, A⟩ := insertion_adds W (fun _ _ => trivial) hid hm hresolve hchecks
    -- for the requests made on the way, what the function is now may be taken for the start
    have W' : Woven env (fun r : Routine => r.checksAccess = false) s.func
        { s with report := report } := ⟨W.grows.tidy W.tidy, .refl⟩
    obtain ⟨S', -, -⟩ := resolve_steps W' rfl hresolve
    exact .guard hm S'.grows hlocate A hchecks rfl ((resolved?_congr rfl rfl _).trans hresolved)

theorem visit_of_checkInst (h : (checkInst env id).Runs s ⟨⟩ s') : Visit env id s s' := by
  rcases checkInst_cases h with ⟨m, hm, C⟩ | ⟨hnone, -⟩
  · exact C.visit W hid hm
  · have hverdicts : s.verdicts env id = (.unwanted, .unwanted) := by rw [verdicts, hnone]
    refine .aside (by rw [hverdicts]; rfl) (by rw [hverdicts]; rfl) ?_
    have W' : Woven env (fun r : Routine => r.checksAccess = false) s.func s :=
      ⟨W.grows.tidy W.tidy, .refl⟩
    exact (checkInst_aside W' (hid.trans_le W.grows.size_le) rfl rfl rfl hnone h).1.grows

end

section

variable (hdistinct : env.Distinct) (T : s.func.Tidy)

include hdistinct T

/-- A visit does not touch the checks in front of other instructions. -/
theorem Visit.checksBefore_of_ne (V : Visit env id s s') (hid : s.func.isProgramInst id)
    (hy : y ∈ s.func.programInsts b) (hne : y ≠ id) :
    env.checksBefore f s'.func b y = env.checksBefore f s.func b y := by
  obtain ⟨hyb, hprogram⟩ := List.mem_filter.mp hy
  cases V with
  | aside _ _ G => exact env.checksBefore_of_grows hdistinct (fun _ h => h) G T hyb
  | @guard m md u c i given v hm G hlocate A hchecks hfunc hresolved =>
    have hkeep : ∀ x, s.func.isProgramInst x → u.isProgramInst x := by
      intro x hx
      obtain ⟨inst, hinst, -⟩ := isProgramInst_iff.mp hx
      rw [G.isProgramInst_eq (index_lt_of_inst? hinst).2, hx]
    rw [hfunc, Env.checksBefore_of_adds_ne (G.tidy T) hlocate A ((G.instsOf_sublist T b).subset hyb)
      (hkeep id hid) (hkeep y hprogram) hne]
    exact env.checksBefore_of_grows hdistinct (fun _ h => h) G T hyb

omit hdistinct T in
theorem filter_checkKinds {md : PointerMetadata} {raw : Operand} {size : Int} {bounds key : Bool} :
    (checkKinds env m md raw size bounds key).filter env.checksAccess =
      checkKinds env m md raw size bounds key := by
  refine List.filter_eq_self.mpr fun kind hkind => ?_
  have hspatial : m.kind.spatialRoutine.checksAccess := by cases m.kind <;> rfl
  have htemporal : m.kind.temporalRoutine.checksAccess := by cases m.kind <;> rfl
  rcases List.mem_append.mp hkind with h | h
  · split at h
    · rw [List.mem_singleton.mp h]
      exact env.checksAccess_callOf hspatial
    · cases h
  · split at h
    · rw [List.mem_singleton.mp h]
      exact env.checksAccess_callOf htemporal
    · cases h

theorem Visit.checksBefore_self (V : Visit env id s s') (hm : s.func.access? id = some m)
    (hle : f.values.size ≤ s.func.values.size) (hid : id ∈ s.func.instsOf b)
    (hnone : env.checksBefore f s.func b id = []) :
    s'.GuardedBy env f b id m (s.verdicts env id) := by
  cases V with
  | aside hbounds hkey G =>
    refine ⟨env.nullMetadata, m.ptr, 0, ?_, by simp [hbounds, hkey], by simp [hbounds]⟩
    rw [env.checksBefore_of_grows hdistinct (fun _ h => h) G T hid, hnone, hbounds, hkey]
    rfl
  | @guard m' md u c i given v hm' G hlocate A hchecks hfunc hresolved =>
    obtain rfl := Option.some.inj (hm'.symm.trans hm)
    have hid' := (G.instsOf_sublist T b).subset hid
    obtain ⟨before, after, hsplit, -⟩ := locate?_before hlocate
    obtain rfl := (G.tidy T).block_eq hid' (show id ∈ u.instsOf c by simp [hsplit])
    obtain ⟨ids, casts, raw, size, I, hcasts, hraw⟩ := accessChecks_inserts hchecks
    have hverdicts : s.verdicts env id = (s.boundsVerdict env m', s.keyVerdict env id m') := by
      rw [verdicts, hm]
    rw [hverdicts]
    refine ⟨md, raw, size, ?_, fun _ => hresolved, fun hbounds => ?_⟩
    · -- casts are no checks
      have hcasts : casts.filter env.checksAccess = [] := by
        refine List.filter_eq_nil_iff.mpr fun kind hkind => ?_
        rw [hcasts kind hkind]
        exact Bool.false_ne_true
      rw [hfunc, env.checksBefore_of_inserts (G.tidy T) hlocate A I (hle.trans G.size_le),
        env.checksBefore_of_grows hdistinct (fun _ h => h) G T hid, hnone, List.nil_append,
        List.filter_append, hcasts, List.nil_append, filter_checkKinds]
    · obtain ⟨hsize, hvoid⟩ := hraw hbounds
      rw [hfunc]
      exact ⟨hsize, hvoid.imp fun x info hx hvalue =>
        A.mem_gapBefore (fun _ h => h.1) (G.tidy T) hlocate hx hvalue⟩

end

/-! ### One visit after another -/

/-- What a visit has found to be accessed is not changed by growth. -/
theorem access?_eq_of_checkInst (h : (checkInst env id).Runs s ⟨⟩ s')
    (hid : id.index < s.func.values.size) (G : s.func.Grows env.routines p g) :
    g.access? id = s.func.access? id := by
  have hvalue := G.value?_eq hid
  rw [checkInst, runs_get_bind] at h
  dsimp only at h
  rw [access?, access?, kind?_congr hvalue, valueType?,
    valueType?, hvalue]
  split at h
  · rename_i hkind
    rw [hkind]
  · rename_i value ptr hkind
    rw [hkind]
    -- the visit would have failed if the stored value had no type
    simp only [runs_bind, runs_operandType] at h
    obtain ⟨ty, _, ⟨htype, rfl⟩, -⟩ := h
    simp only [htype, G.operandType_eq htype]
  · rename_i hkind
    rw [hkind]
  · simp

section

variable (hdistinct : env.Distinct)

include hdistinct

section

variable (W : s.Woven env Any f) (hids : ∀ id ∈ ids, ∃ o, id ∈ f.programInsts o)

include W hids

/-- Visits to other instructions do not touch the checks in front of an instruction. -/
theorem checksBefore_of_visits (hy : y ∈ f.programInsts b) (hnot : y ∉ ids)
    (h : (ids.forM (checkInst env)).Runs s ⟨⟩ s') :
    env.checksBefore f s'.func b y = env.checksBefore f s.func b y := by
  refine visits_induction
    (I := fun _ t => env.checksBefore f t.func b y = env.checksBefore f s.func b y)
    W (fun _ _ => trivial) hids h rfl fun hid hc Wt _ hvisit hsame => ?_
  have hindex := index_lt_of_mem_programInsts Wt.tidy hc
  refine ((visit_of_checkInst Wt hindex hvisit).checksBefore_of_ne hdistinct Wt.func_tidy ?_ ?_
    ?_).trans hsame
  · rw [Wt.grows.isProgramInst_eq hindex]
    exact (List.mem_filter.mp hc).2
  · rwa [Wt.grows.programInsts_eq Wt.tidy]
  · rintro rfl
    exact hnot hid

/-- The visit to an instruction in a run of visits: there were no checks in front of it before, and
those it inserts stay to the end. -/
theorem exists_visit (hnodup : ids.Nodup) (hnone : env.checksBefore f s.func b y = [])
    (hy : y ∈ f.programInsts b) (h : (ids.forM (checkInst env)).Runs s ⟨⟩ s')
    (hv : (y, v) ∈ verdictsOn env ids s) :
    ∃ t t', t.Woven env Any f ∧ (checkInst env y).Runs t ⟨⟩ t' ∧
      Steps env Any f Never t t' ∧
      Steps env Any f Never t' s' ∧ t.verdicts env y = v ∧
      env.checksBefore f t.func b y = [] ∧
      env.checksBefore f s'.func b y = env.checksBefore f t'.func b y := by
  obtain ⟨front, rest, t, t', rfl, hfront, hvisit, hrest, hverdicts, -⟩ :=
    visit_of_mem_verdictsOn h hv
  have hindex : ∀ id ∈ front ++ y :: rest, id.index < f.values.size := fun id hid =>
    index_lt_of_mem_programInsts W.tidy (hids id hid).choose_spec
  -- every instruction is visited once, so no other visit puts checks there
  obtain ⟨-, hrest', hdisjoint⟩ := List.nodup_append.mp hnodup
  have Sfront :=
    (visits_steps W (fun _ _ => trivial) (fun id hid => hindex id (by simp [hid])) hfront).1
  have Wt := Sfront.woven W
  have S := (checkInst_steps Wt (fun _ _ => trivial) (hindex y (by simp)) hvisit).1
  have Wt' := S.woven Wt
  have S' :=
    (visits_steps Wt' (fun _ _ => trivial) (fun id hid => hindex id (by simp [hid])) hrest).1
  refine ⟨t, t', Wt, hvisit, S, S', hverdicts, ?_, ?_⟩
  · rw [← hnone]
    exact checksBefore_of_visits hdistinct W (fun id hid => hids id (by simp [hid])) hy
      (fun hmem => hdisjoint y hmem y (by simp) rfl) hfront
  · exact checksBefore_of_visits hdistinct Wt' (fun id hid => hids id (by simp [hid])) hy
      (List.nodup_cons.mp hrest').1 hrest

end

omit hdistinct in
/-- What guards an access goes on to guard it. -/
theorem GuardedBy.of_steps (h : s.GuardedBy env f b y m v) (W : s.Woven env Any f)
    (S : Steps env Any f Never s s') (hy : y ∈ s.func.instsOf b)
    (hsame : env.checksBefore f s'.func b y = env.checksBefore f s.func b y) :
    s'.GuardedBy env f b y m v := by
  obtain ⟨md, raw, size, hchecks, hresolved, hraw⟩ := h
  have K := S.kept W
  refine ⟨md, raw, size, hsame.trans hchecks, fun h => K.resolved? (hresolved h), fun h => ?_⟩
  obtain ⟨hsize, hvoid⟩ := hraw h
  exact ⟨hsize, K.asVoidPtr (fun x hx => S.grows.mem_gapBefore W.func_tidy hy hx) hvoid⟩

section

variable {v : Verdict Unit × Verdict Tier} (W : s.Woven env Any f)
  (hids : ∀ id ∈ ids, ∃ o, id ∈ f.programInsts o) (hnodup : ids.Nodup)
  (hnone : env.checksBefore f s.func b y = []) (hy : y ∈ f.programInsts b)
  (h : (ids.forM (checkInst env)).Runs s ⟨⟩ s') (hv : (y, v) ∈ verdictsOn env ids s)

include W hids hnodup hnone hy h hv

/-- Whatever was decided about an access has been done to it in the end. -/
theorem guardedBy_of_mem_verdictsOn (hm : s'.func.access? y = some m) :
    s'.GuardedBy env f b y m v ∧
      ∃ t : Weaving, t.func.Grows env.routines Any s'.func ∧
        v = (t.boundsVerdict env m, t.keyVerdict env y m) := by
  obtain ⟨t, t', Wt, hvisit, S, S', rfl, hnone', hsame⟩ :=
    exists_visit hdistinct W hids hnodup hnone hy h hv
  have hindex := index_lt_of_mem_programInsts W.tidy hy
  have Wt' := S.woven Wt
  have hyb := List.mem_of_mem_filter hy
  have hmt : t.func.access? y = some m := by
    rw [← hm, access?_eq_of_checkInst hvisit (hindex.trans_le Wt.grows.size_le)
      (S.grows.trans S'.grows)]
  have guarded := (visit_of_checkInst Wt hindex hvisit).checksBefore_self hdistinct Wt.func_tidy hmt
    Wt.grows.size_le ((Wt.grows.instsOf_sublist W.tidy b).subset hyb) hnone'
  refine ⟨guarded.of_steps Wt' S' ((Wt'.grows.instsOf_sublist W.tidy b).subset hyb) hsame, t,
    S.grows.trans S'.grows, ?_⟩
  rw [verdicts, hmt]

theorem checksBefore_eq_nil_of_mem_verdictsOn (hm : s'.func.access? y = none) :
    env.checksBefore f s'.func b y = [] := by
  obtain ⟨t, t', Wt, hvisit, S, S', rfl, hnone', hsame⟩ :=
    exists_visit hdistinct W hids hnodup hnone hy h hv
  have hindex := index_lt_of_mem_programInsts W.tidy hy
  have hmt : t.func.access? y = none := by
    rw [← hm, access?_eq_of_checkInst hvisit (hindex.trans_le Wt.grows.size_le)
      (S.grows.trans S'.grows)]
  rw [hsame, ← hnone']
  cases visit_of_checkInst Wt hindex hvisit with
  | aside _ _ G =>
    exact env.checksBefore_of_grows hdistinct (fun _ h => h) G Wt.func_tidy
      ((Wt.grows.instsOf_sublist W.tidy b).subset (List.mem_of_mem_filter hy))
  | guard hm' =>
    rw [hmt] at hm'
    cases hm'

end

end

/-! ### Nothing else is checked -/

/-- Every check stands in the gap in front of some instruction of the program. -/
def Placed (env : Env) (f g : Function) : Prop :=
  ∀ b x kind, x ∈ g.instsOf b → f.values.size ≤ x.index → g.kind? x = some kind →
    env.checksAccess kind → ∃ y ∈ f.programInsts b, x ∈ g.gapBefore b y

section

variable {q : Routine → Prop} {h : Function} (T : f.Tidy) (G : f.Grows env.routines q g)
  (G' : g.Grows env.routines p h)

include T G G'

theorem Placed.of_grows (hplaced : Placed env f g)
    (hnew : ∀ b x kind, x ∈ h.instsOf b → g.values.size ≤ x.index → h.kind? x = some kind →
      env.checksAccess kind → ∃ y ∈ f.programInsts b, x ∈ h.gapBefore b y) : Placed env f h := by
  intro b x kind hx hle hkind hcheck
  by_cases hold : x.index < g.values.size
  · have T' := G.tidy T
    have hxg : x ∈ g.instsOf b := by grind [Grows.filter_instsOf]
    rw [kind?_congr (G'.value?_eq hold)] at hkind
    obtain ⟨y, hy, hgap⟩ := hplaced b x kind hxg hle hkind hcheck
    have hyg := (G.instsOf_sublist T b).subset (List.mem_of_mem_filter hy)
    exact ⟨y, hy, G'.mem_gapBefore T' hyg hgap⟩
  · exact hnew b x kind hx (Nat.not_lt.mp hold) hkind hcheck

theorem Placed.of_grows_aside (hdistinct : env.Distinct)
    (hp : ∀ r : Routine, p r → r.checksAccess = false) (hplaced : Placed env f g) :
    Placed env f h := by
  refine hplaced.of_grows T G G' fun b x kind _ hnew hkind hcheck => ?_
  rw [env.checksAccess_eq_false hdistinct hp (G'.new_kind hkind hnew)] at hcheck
  cases hcheck

end

theorem Visit.placed (hdistinct : env.Distinct) (W : s.Woven env Any f)
    (hid : ∃ o, id ∈ f.programInsts o) (hplaced : Placed env f s.func) (V : Visit env id s s') :
    Placed env f s'.func := by
  cases V with
  | aside _ _ G => exact hplaced.of_grows_aside W.tidy W.grows G hdistinct (fun _ h => h)
  | @guard m md u c i given v hm G hlocate A hchecks hfunc hresolved =>
    have Gu : f.Grows env.routines Any u := W.grows.trans (G.mono fun _ _ => trivial)
    have T := Gu.tidy W.tidy
    have place := place_before hlocate
    have G' : u.Grows env.routines Any v.func := (A.grows (fun _ h => h.1) place).1
    rw [hfunc]
    have hplaced : Placed env f u :=
      hplaced.of_grows_aside W.tidy W.grows G hdistinct (fun _ h => h)
    refine hplaced.of_grows W.tidy Gu G' fun b x kind hx hnew hkind _ => ?_
    obtain ⟨o, hid⟩ := hid
    obtain ⟨before, after, hsplit, -⟩ := locate?_before hlocate
    obtain rfl := T.block_eq ((Gu.instsOf_sublist W.tidy o).subset (List.mem_of_mem_filter hid))
      (show id ∈ u.instsOf c by simp [hsplit])
    obtain ⟨inst, ty, -, hvalue⟩ := value?_of_kind? hkind
    have hgap := A.mem_gapBefore (fun _ h => h.1) T hlocate hnew hvalue
    -- what stands in the gap stands in the block of the access
    have hxo : x ∈ v.func.instsOf o :=
      List.takeWhile_subset _ ((List.rtakeWhile_suffix _ _).subset hgap)
    obtain rfl := (G'.tidy T).block_eq hx hxo
    exact ⟨id, hid, hgap⟩

theorem placed_of_visits (hdistinct : env.Distinct) (W : s.Woven env Any f)
    (hids : ∀ id ∈ ids, ∃ o, id ∈ f.programInsts o) (hplaced : Placed env f s.func)
    (h : (ids.forM (checkInst env)).Runs s ⟨⟩ s') : Placed env f s'.func := by
  refine visits_induction (I := fun _ t => Placed env f t.func) W (fun _ _ => trivial) hids h
    hplaced fun _ hc Wt _ hvisit hplaced => ?_
  have V := visit_of_checkInst Wt (index_lt_of_mem_programInsts Wt.tidy hc) hvisit
  exact V.placed hdistinct Wt ⟨_, hc⟩ hplaced

end Weaving

end PointerGuard
