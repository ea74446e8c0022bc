import PointerGuard.Proofs.Sources
import PointerGuard.Wrapping

/-!
# Readdressing

Addresses of library routines in a function may be replaced by those of their wrappers. That changes
operands of instructions and nothing else.
-/

namespace PointerGuard

variable {change : Operand → Operand} {v : ValueId} {kind : InstKind}

/-- A change of operands that leaves values alone, keeps the types of constants, and neither makes a
literal null nor hides one. -/
structure Operand.Readdressing (change : Operand → Operand) : Prop where
  value : ∀ v, change (.value v) = .value v
  const : ∀ c, ∃ c', change (.const c) = .const c' ∧ c'.ty = c.ty
  crossed : ∀ {c c'} objects, change (.const c) = .const c' → c'.crossed objects = c.crossed objects
  isNull : ∀ operand, (change operand).isNull = operand.isNull

theorem Operand.Readdressing.id : Operand.Readdressing fun operand => operand :=
  ⟨fun _ => rfl, fun c => ⟨c, rfl, rfl⟩, fun _ h => by rw [Operand.const.inj h], fun _ => rfl⟩

theorem Operand.Readdressing.eq_value (C : Operand.Readdressing change) {operand : Operand}
    (h : change operand = .value v) : operand = .value v := by
  cases operand with
  | value w => rw [← h, C.value]
  | const c =>
    obtain ⟨c', hc, -⟩ := C.const c
    rw [hc] at h
    cases h

/-- A value is used after the change where it was used before. -/
theorem Operand.Readdressing.mem_map_iff (C : Operand.Readdressing change)
    {operands : List Operand} :
    .value v ∈ operands.map change ↔ .value v ∈ operands := by
  rw [List.mem_map]
  constructor
  · rintro ⟨operand, hmem, h⟩
    rwa [← C.eq_value h]
  · exact fun h => ⟨_, h, C.value v⟩

theorem Constant.ty_redirect {map : FuncId → Option FuncId} {c : Constant} :
    (c.redirect map).1.ty = c.ty := by
  cases c with
  | func id t =>
    rw [redirect]
    split <;> rfl
  | _ => rfl

/-- The functions that a constant names do not matter to where it points. -/
theorem Constant.crossed_redirect {map : FuncId → Option FuncId} {objects : GlobalId → Option Ty} :
    ∀ c : Constant, (c.redirect map).1.crossed objects = c.crossed objects
  | .func id t => by
    rw [redirect]
    split <;> rfl
  | .gep base indices t => by
    show (base.redirect map).1.ty.pointee?.toList ++ (base.redirect map).1.crossed objects = _
    rw [ty_redirect, crossed_redirect base, crossed]
  | .cast .bitcast value t => crossed_redirect value
  | .cast .intToPtr _ _ | .cast .ptrToInt _ _ | .aggregate .. | .null _ | .undef _ | .zero _
  | .int .. | .global .. => rfl

theorem Redirection.readdressing (r : Redirection) :
    Operand.Readdressing fun operand => (r.onOperand operand).1 := by
  have hconst : ∀ c, (r.onOperand (.const c)).1 = .const (c.redirect fun id => r.lookup id).1 :=
    fun _ => rfl
  refine ⟨fun _ => rfl, fun c => ⟨_, hconst c, Constant.ty_redirect⟩, fun _ h => ?_,
    fun operand => ?_⟩
  · rw [← Operand.const.inj h, Constant.crossed_redirect]
  · cases operand with
    | value v => rfl
    | const c =>
      cases c with
      | func id t =>
        rw [hconst, Constant.redirect]
        split <;> rfl
      | _ => rfl

namespace InstKind

@[simp] theorem isTerminator_mapOperands :
    (kind.mapOperands change).isTerminator = kind.isTerminator := by
  cases kind <;> rfl

@[simp] theorem isPhi_mapOperands : (kind.mapOperands change).isPhi = kind.isPhi := by
  cases kind <;> rfl

@[simp] theorem successors_mapOperands :
    (kind.mapOperands change).successors = kind.successors := by
  cases kind <;> rfl

end InstKind

namespace Function

/-- One function is another with the operands of listed instructions changed. -/
structure Readdresses (change : Operand → Operand) (f g : Function) : Prop where
  id_eq : g.id = f.id
  signature_eq : g.signature = f.signature
  blocks_eq : g.blocks = f.blocks
  size_eq : g.values.size = f.values.size
  type_eq : ∀ v, g.valueType? v = f.valueType? v
  param : ∀ {v ty position}, f.value? v = some ⟨ty, .param position⟩ →
    g.value? v = some ⟨ty, .param position⟩
  inst : ∀ {b x inst}, x ∈ f.instsOf b → f.inst? x = some inst →
    g.inst? x = some { inst with kind := inst.kind.mapOperands change }

variable {f g h : Function} {b : BlockId} {x : ValueId}

/-! ### Redirecting is readdressing -/

section

variable {r : Redirection} {ids : List ValueId}

/-- Some instructions have been redirected, and nothing else has changed. -/
structure Redirected (r : Redirection) (f : Function) (ids : List ValueId) (g : Function) :
    Prop where
  id_eq : g.id = f.id
  signature_eq : g.signature = f.signature
  blocks_eq : g.blocks = f.blocks
  size_eq : g.values.size = f.values.size
  rest : ∀ v, v ∉ ids → g.value? v = f.value? v
  inst : ∀ {v ty inst}, v ∈ ids → f.value? v = some ⟨ty, .inst inst⟩ → g.value? v = some
    ⟨ty, .inst { inst with kind := inst.kind.mapOperands fun operand => (r.onOperand operand).1 }⟩

theorem redirected_redirectInst (hx : (f.inst? x).isSome) :
    Redirected r f [x] (f.redirectInst r x).1 := by
  obtain ⟨inst, hinst⟩ := Option.isSome_iff_exists.mp hx
  obtain ⟨ty, hvalue⟩ := inst?_eq_some_iff.mp hinst
  have heq : (f.redirectInst r x).1 = f.modifyInst x fun inst' =>
      { inst' with kind := inst.kind.mapOperands fun operand => (r.onOperand operand).1 } := by
    rw [redirectInst, kind?_of_inst? hinst]
  rw [heq]
  have hset := modifyInst.eq_def f x fun inst' =>
      { inst' with kind := inst.kind.mapOperands fun operand => (r.onOperand operand).1 }
  rw [hvalue] at hset
  refine ⟨by rw [hset], by rw [hset], by rw [hset], by rw [hset]; simp, fun v hv => ?_,
    fun {v ty' inst'} hv hvalue' => ?_⟩
  · exact value?_modifyInst_of_ne fun e => hv (by simp [e])
  · grind [value?_modifyInst]

theorem Redirected.cons (hx : x ∉ ids) (R : Redirected r f [x] g) (R' : Redirected r g ids h) :
    Redirected r f (x :: ids) h where
  id_eq := R'.id_eq.trans R.id_eq
  signature_eq := R'.signature_eq.trans R.signature_eq
  blocks_eq := R'.blocks_eq.trans R.blocks_eq
  size_eq := R'.size_eq.trans R.size_eq
  rest v hv := by
    rw [List.mem_cons, not_or] at hv
    rw [R'.rest v hv.2, R.rest v (by simpa using hv.1)]
  inst {v ty inst} hv hvalue := by
    rcases List.mem_cons.mp hv with rfl | hv
    · rw [R'.rest v hx, R.inst (List.mem_singleton_self v) hvalue]
    · grind [Redirected.inst, Redirected.rest]

theorem redirect_fst :
    (f.redirect r).1 = f.listedInsts.foldl (fun f x => (f.redirectInst r x).1) f :=
  (List.foldl_hom Prod.fst fun _ _ => rfl).symm

private theorem redirected_foldl (hnodup : ids.Nodup) (hids : ∀ x ∈ ids, (f.inst? x).isSome) :
    Redirected r f ids (ids.foldl (fun f x => (f.redirectInst r x).1) f) := by
  induction ids generalizing f with
  | nil => exact ⟨rfl, rfl, rfl, rfl, fun _ _ => rfl, fun h => by cases h⟩
  | cons x ids ih =>
    obtain ⟨hx, hnodup⟩ := List.nodup_cons.mp hnodup
    have R : Redirected r f [x] (f.redirectInst r x).1 :=
      redirected_redirectInst (hids x (.head _))
    refine R.cons hx (ih hnodup fun y hy => ?_)
    have hne : y ∉ [x] := fun e => hx (by rwa [← List.mem_singleton.mp e])
    rw [inst?_congr (R.rest y hne)]
    exact hids y (.tail _ hy)

/-- Redirecting a function redirects all of its listed instructions. -/
theorem redirected_redirect (T : f.Tidy) : Redirected r f f.listedInsts (f.redirect r).1 := by
  have hnodup : f.listedInsts.Nodup := T.nodup_listing.filter _
  rw [redirect_fst]
  exact redirected_foldl hnodup fun x hx => by simpa using (List.mem_filter.mp hx).2

/-- Redirecting the functions that are named in a function changes the operands of all listed
instructions. -/
theorem readdresses_redirect (T : f.Tidy) (r : Redirection) :
    f.Readdresses (fun operand => (r.onOperand operand).1) (f.redirect r).1 := by
  have R : Redirected r f f.listedInsts (f.redirect r).1 := redirected_redirect T
  have hinst : ∀ {v}, v ∈ f.listedInsts → ∃ ty inst, f.value? v = some ⟨ty, .inst inst⟩ := by
    intro v hv
    obtain ⟨inst, hinst⟩ := Option.isSome_iff_exists.mp (List.mem_filter.mp hv).2
    obtain ⟨ty, hvalue⟩ := inst?_eq_some_iff.mp hinst
    exact ⟨ty, inst, hvalue⟩
  refine ⟨R.id_eq, R.signature_eq, R.blocks_eq, R.size_eq, fun v => ?_,
    fun {v ty position} hvalue => ?_, fun {b x inst} hx hinst' => ?_⟩
  · by_cases hv : v ∈ f.listedInsts
    · obtain ⟨ty, inst, hvalue⟩ := hinst hv
      rw [valueType?, valueType?, R.inst hv hvalue, hvalue]
      rfl
    · rw [valueType?_congr (R.rest v hv)]
  · -- a parameter is not listed, so it is left alone
    grind [Redirected.rest]
  · obtain ⟨ty, hvalue⟩ := inst?_eq_some_iff.mp hinst'
    have hlisted : x ∈ f.listedInsts := by
      refine List.mem_filter.mpr ⟨List.mem_flatMap.mpr ⟨b, ?_, hx⟩, by simp [hinst']⟩
      exact mem_blockIds.mpr (index_lt_of_mem_instsOf hx)
    exact inst?_eq_some_iff.mpr ⟨ty, R.inst hlisted hvalue⟩

end

/-! ### What stays the same -/

namespace Readdresses

theorem instsOf_eq (R : f.Readdresses change g) : g.instsOf b = f.instsOf b := by
  rw [instsOf, instsOf, block?, block?, R.blocks_eq]

theorem kind? (R : f.Readdresses change g) (hx : x ∈ f.instsOf b) (h : f.kind? x = some kind) :
    g.kind? x = some (kind.mapOperands change) := by
  obtain ⟨inst, hinst, rfl⟩ := kind?_eq_some_iff.mp h
  exact kind?_eq_some_iff.mpr ⟨_, R.inst hx hinst, rfl⟩

theorem has_iff (R : f.Readdresses change g) : (g.value? v).isSome ↔ (f.value? v).isSome := by
  have htype := R.type_eq v
  rw [valueType?, valueType?] at htype
  cases hg : g.value? v <;> cases hf : f.value? v <;> simp_all

section

variable (T : f.Tidy)

include T

section

variable (R : f.Readdresses change g)

include R

theorem tidy : g.Tidy := by
  refine ⟨fun {b x} hx => ?_, fun b => ?_, fun {b c x} hb hc => ?_⟩
  · rw [R.instsOf_eq] at hx
    obtain ⟨inst, hinst⟩ := T.listed hx
    exact ⟨_, R.inst hx hinst⟩
  · rw [R.instsOf_eq]
    exact T.nodup b
  · rw [R.instsOf_eq] at hb hc
    exact T.block_eq hb hc

theorem programInsts_eq : g.programInsts b = f.programInsts b := by
  rw [programInsts, R.instsOf_eq]
  refine List.filter_congr fun x hx => ?_
  obtain ⟨inst, hinst⟩ := T.listed hx
  rw [isProgramInst, isProgramInst, R.inst hx hinst, hinst]

theorem successors_eq : g.successors b = f.successors b := by
  rw [successors, successors, terminator?, terminator?, R.instsOf_eq]
  cases hlast : (f.instsOf b).getLast? with
  | none => rfl
  | some last =>
    have hmem := List.mem_of_getLast? hlast
    obtain ⟨inst, hinst⟩ := T.listed hmem
    have hkind := kind?_of_inst? hinst
    have hkind' := R.kind? hmem hkind
    simp only [Option.bind_eq_bind, Option.bind_some, hkind, hkind',
      InstKind.isTerminator_mapOperands]
    cases inst.kind.isTerminator with
    | true => simp [hkind, hkind']
    | false => rfl

theorem flowGraph_eq : g.flowGraph = f.flowGraph := by
  have hsuccessors : g.successors = f.successors := funext fun b => R.successors_eq T
  have hpredecessors : g.predecessors = f.predecessors := funext fun b => by
    rw [predecessors, predecessors, blockIds, blockIds, R.blocks_eq, hsuccessors]
  rw [flowGraph, flowGraph, R.blocks_eq, hsuccessors, hpredecessors]

theorem shaped (S : f.Shaped b) : g.Shaped b := by
  refine ⟨by rw [R.instsOf_eq]; exact S.ne_nil, fun front x rest hsplit => ?_, fun c hc => ?_⟩
  · rw [R.instsOf_eq] at hsplit
    obtain ⟨inst, hinst, hblock, hout, hlast, hphi⟩ := S.insts front x rest hsplit
    have hx : x ∈ f.instsOf b := by simp [hsplit]
    refine ⟨_, R.inst hx hinst, hblock, hout, by rwa [InstKind.isTerminator_mapOperands],
      fun h y hy => ?_⟩
    rw [InstKind.isPhi_mapOperands] at h
    obtain ⟨edges, hedges⟩ := hphi h y hy
    exact ⟨_, R.kind? (b := b) (by simp [hsplit, hy]) hedges⟩
  · rw [R.successors_eq T] at hc
    rw [R.blocks_eq]
    exact S.targets c hc

theorem usesFit (C : Operand.Readdressing change) (U : f.UsesFit b x kind) :
    g.UsesFit b x (kind.mapOperands change) := by
  have hparam : ∀ {v}, f.IsParam v → g.IsParam v := fun ⟨ty, position, h⟩ =>
    ⟨ty, position, R.param h⟩
  have hdominates : ∀ {a c}, g.StrictlyDominates a c ↔ f.StrictlyDominates a c :=
    strictlyDominates_congr (R.flowGraph_eq T)
  have hreach : ∀ {a}, g.Reachable a ↔ f.Reachable a := reachable_congr (R.flowGraph_eq T)
  have hpredecessors : g.predecessors b = f.predecessors b := by
    simp only [predecessors, blockIds, R.blocks_eq, R.successors_eq T]
  -- control flow is the same, and operands are changed only where they name functions
  refine ⟨fun operand hoperand used e => ?_, fun hb edges hkind => ?_, fun hb hphi used hused => ?_⟩
  · subst e
    rw [InstKind.operands_mapOperands, C.mem_map_iff] at hoperand
    rw [R.type_eq]
    exact U.gives _ hoperand used rfl
  · cases kind with
    | phi incoming =>
      cases hkind
      have P := U.phi (hreach.mp hb) incoming rfl
      refine ⟨by rw [List.length_map, hpredecessors, P.length], fun operand a hmem => ?_, ?_,
        fun used a hmem ha => ?_⟩
      · grind [Prod.mk.inj, PhiFits.pred]
      · rw [List.map_map]
        exact P.nodup
      · -- an edge carries the value that it carried
        obtain ⟨⟨operand', a'⟩, hedge, h⟩ := List.mem_map.mp hmem
        obtain ⟨hused, rfl⟩ := Prod.mk.inj h
        obtain rfl := C.eq_value hused
        rcases P.defined used a' hedge (hreach.mp ha) with hp | hx | ⟨c, hx, hdom⟩
        · exact .inl (hparam hp)
        · exact .inr (.inl (by rwa [R.instsOf_eq]))
        · exact .inr (.inr ⟨c, by rwa [R.instsOf_eq], hdominates.mpr hdom⟩)
    | _ => cases hkind
  · rw [InstKind.operands_mapOperands, C.mem_map_iff] at hused
    rw [InstKind.isPhi_mapOperands] at hphi
    rcases U.before (hreach.mp hb) hphi used hused with hp | hx | ⟨a, c, ha, hc, hdom⟩
    · exact .inl (hparam hp)
    · refine .inr (.inl ?_)
      simpa only [Precedes, R.instsOf_eq] using hx
    · exact .inr (.inr ⟨a, c, by rwa [R.instsOf_eq], by rwa [R.instsOf_eq], hdominates.mpr hdom⟩)

end

omit T in
theorem valid (R : f.Readdresses change g) (C : Operand.Readdressing change) (V : f.Valid) :
    g.Valid := by
  refine ⟨fun b hb => ?_, fun {b x kind} hx hkind => ?_⟩
  · rw [R.blocks_eq] at hb
    exact R.shaped V.tidy (V.shaped b hb)
  · rw [R.instsOf_eq] at hx
    obtain ⟨inst, hinst⟩ := V.tidy.listed hx
    have hkind' := kind?_of_inst? hinst
    cases hkind.symm.trans (R.kind? hx hkind')
    exact R.usesFit V.tidy C (V.fits hx hkind')

end

end Readdresses

end Function

end PointerGuard
