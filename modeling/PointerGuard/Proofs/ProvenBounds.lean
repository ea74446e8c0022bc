import PointerGuard.Proofs.Addresses
import PointerGuard.Proofs.Modules
import PointerGuard.Proofs.Samples

/-!
# Accesses proven in bounds

A bounds check is left out where the extent of the pointer shows that the access lies inside its
object, and the bounds that the check would have compared with agree, wherever the objects are
placed. This needs that the result of a stack allocation is a pointer to the type it allocates.
-/

namespace PointerGuard

open PointerGuard.Function

variable {place : Placement} {offset : Int}

namespace Function

variable {g : Function} {i : Interface} {v : ValueId} {base past bound : Operand} {allocated : Ty}
  {copies : Option Operand} {size : Nat}

/-- The size of a stack allocation is what it takes, and how far it is to its bound. -/
theorem allocaSize?_eq_some (h : allocaSize? i.width allocated copies = some size)
    (hcopies : ∀ operand ∈ copies, operand.isProper i) :
    InstKind.allocatedBytes? i.width (.alloca allocated copies) = some (size : Int) ∧
      Layout.distance? i.width (.ptr allocated)
        [(copies.getD (.const (.int i.width.bits 1))).signed?] = some (size : Int) := by
  cases copies with
  -- a single element, whose count is the constant one
  | none =>
    have hsize : Layout.size i.width allocated = size := by
      simp only [allocaSize?, Option.bind_eq_bind, Option.bind_some] at h
      split at h
      · simpa using Option.some.inj h
      · cases h
    exact ⟨congrArg some (by rw [hsize]), hsize ▸ Layout.distance?_one⟩
  | some operand =>
    simp only [allocaSize?, Option.bind_eq_bind, Option.bind_eq_some_iff] at h
    obtain ⟨count, hcount, h⟩ := h
    split at h
    · rename_i hnonneg
      cases h
      have hsigned : operand.signed? = some count :=
        (Operand.signed?_eq (hcopies _ rfl)).trans hcount
      have hbytes : count * Layout.size i.width allocated =
          (Layout.size i.width allocated * count.toNat : Nat) := by grind
      simp [InstKind.allocatedBytes?, Layout.distance?, hsigned, hbytes, Ty.pointee?,
        Layout.walkDistance?]
    · cases h

theorem spans_of_alloca {p : ValueId → Prop} (hkind : g.kind? v = some (.alloca allocated copies))
    (htype : g.operandType (.value v) = .ok (.ptr allocated))
    (hcopies : ∀ operand ∈ copies, operand.isProper i)
    (hsize : allocaSize? i.width allocated copies = some size)
    (hfits : place.stack v + size ≤ i.width.maxAddress) (hbase : g.AsVoidPtr p (.value v) base)
    (hpast : g.Made p (.gep (.value v) [copies.getD (.const (.int i.width.bits 1))]) past)
    (hbound : g.AsVoidPtr p past bound) :
    g.Spans i place offset ⟨size, offset⟩ (.value v) base bound (place.stack v) := by
  have hstart : g.AddressOf i place (.value v) (place.stack v) := .alloca hkind
  obtain ⟨x, rfl, -, hgep⟩ := hpast
  have hend : g.AddressOf i place (.value x) (i.width.wrap (place.stack v + size)) :=
    .gep hgep htype (allocaSize?_eq_some hsize hcopies).2 hstart
  exact .of_start hstart (hstart.asVoidPtr hbase) (hend.asVoidPtr hbound) hfits

end Function

namespace Weaving

variable {env : Env} {p : Routine → Prop} {f : Function} {s : Weaving} {store : Store}
  {md : PointerMetadata} {spatial : Spatial}

/-- The bounds that are known of a pointer span the object of its extent. -/
theorem Gathered.spans (G : Gathered env p f (.start f store) s) (hf : f.WellFormed)
    (hstore : ∀ v, v.func = f.id → store.lookup v = none) (hproper : f.Proper env.interface)
    (htyped : f.AllocasTyped) (hplace : place.Fits f env.interface) {fuel : Nat} {extent : Extent}
    {ptr : Operand} (hptr : ptr.isProper env.interface) (hmd : s.resolved? env ptr = some md)
    (hspatial : md.spatial = some spatial)
    (hextent : s.func.extentWithin env.interface fuel offset ptr = some extent) :
    ∃ start, s.func.Spans env.interface place offset extent ptr spatial.base
      spatial.bound start := by
  have W : s.Woven env p f := Steps.woven G.steps ⟨hf.tidy, .refl⟩
  -- a recorded value is one of the function, and its operands are proper
  have hrecorded : ∀ {v kind}, s.func.kind? v = some kind → s.store.lookup v = some md →
      s.Recorded env f (fun v => (store.lookup v).isSome) v md ∧ f.kind? v = some kind ∧
        ∀ operand ∈ kind.operands, operand.isProper env.interface := by
    intro v kind hkind hlookup
    have hfunc : v.func = f.id := (index_lt_of_kind? hkind).1.trans W.grows.id_eq
    rcases G.records hlookup with hold | R
    · cases (hstore v hfunc).symm.trans hold
    · have hkind' : f.kind? v = some kind := (W.kind?_eq R.has.index_lt).symm.trans hkind
      exact ⟨R, hkind', hproper v kind hkind'⟩
  -- along the derivation of the pointer, which leads from record to record
  fun_induction extentWithin s.func env.interface fuel offset ptr with
  | case1 fuel offset c =>
    rw [resolved?] at hmd
    split at hmd
    · rename_i folded hfold
      obtain ⟨lock, -, rfl⟩ := Option.map_eq_some_iff.mp hmd
      rw [FoldedMetadata.materialize] at hspatial
      split at hspatial
      · cases hspatial
        exact spans_of_fold hplace hptr hextent hfold
      · cases hspatial
    · cases hmd
  | case2 offset v => cases hextent
  | case3 fuel offset v base indices hkind ih =>
    simp only [Option.bind_eq_bind, Option.bind_eq_some_iff] at hextent
    obtain ⟨ty, htype, offset', hadvance, hextent⟩ := hextent
    have htype : s.func.operandType base = .ok ty := by
      cases h : s.func.operandType base with
      | ok ty' => exact congrArg _ (Option.some.inj (by rwa [h] at htype))
      | error e => rw [h] at htype; cases htype
    obtain ⟨R, -, hoperands⟩ := hrecorded hkind hmd
    have hsource : s.func.derivedFrom? v = some base := by rw [derivedFrom?, hkind]
    obtain ⟨start, h⟩ := ih offset' (hoperands base (.head _))
      (R.produced.resolved_source hf.paramsFirst W hsource) hextent
    refine ⟨start, h.move fun haddress => .gep hkind htype ?_ haddress⟩
    have hindices : indices.map Operand.signed? = indices.map Operand.asInt? :=
      List.map_congr_left fun c hc =>
        Operand.signed?_eq (hoperands c (by simp [InstKind.operands, hc]))
    rw [hindices]
    exact Layout.distance?_of_advance? hadvance
  | case4 fuel offset v value hkind ih =>
    obtain ⟨R, -, hoperands⟩ := hrecorded hkind hmd
    have hsource : s.func.derivedFrom? v = some value := by rw [derivedFrom?, hkind]
    obtain ⟨start, h⟩ := ih (hoperands value (.head _))
      (R.produced.resolved_source hf.paramsFirst W hsource) hextent
    exact ⟨start, .cast hkind h.ptr, h.base, h.bound, h.fits⟩
  | case5 fuel offset v allocated copies hkind =>
    simp only [Option.bind_eq_bind, Option.bind_eq_some_iff] at hextent
    obtain ⟨size, hsize, hextent⟩ := hextent
    cases hextent
    obtain ⟨R, hkind', hoperands⟩ := hrecorded hkind hmd
    have hcopies : ∀ operand ∈ copies, operand.isProper env.interface := fun operand h =>
      hoperands operand (by simpa [InstKind.operands] using h)
    have htype : s.func.operandType (.value v) = .ok (.ptr allocated) := by
      rw [operandType_value_eq_ok, valueType?_congr (W.grows.value?_eq R.has.index_lt)]
      exact htyped v _ hkind' allocated rfl
    have hbytes := (allocaSize?_eq_some hsize hcopies).1
    have hfits := hplace.stack v _ hkind' _ hbytes
    obtain ⟨past, hbase, hpast, hbound⟩ :=
      R.produced.alloca_bounds hf.paramsFirst W hkind hspatial
    exact ⟨_, spans_of_alloca hkind htype hcopies hsize (by omega) hbase hpast hbound⟩
  | case6 => cases hextent

end Weaving

/-- If an access is proven in bounds, then wherever the objects of the program are placed, the
pointer and its bounds have addresses, and the bytes of the access lie between the bounds. -/
theorem Env.provenInBounds_sound {env : Env} {f : Function} {store : Store} {t s : Weaving}
    {place : Placement} {y : ValueId} {kind : InstKind} {ptr : Operand} {md : PointerMetadata}
    {spatial : Spatial} {n : Nat} (hf : f.WellFormed)
    (hstore : ∀ v, v.func = f.id → store.lookup v = none)
    (hcreate : (Weaving.createMetadata env).Runs (.start f store) ⟨⟩ t)
    (hresolve : (Weaving.resolveMetadata env).Runs t ⟨⟩ s) (hproper : f.Proper env.interface)
    (htyped : f.AllocasTyped) (hy : f.kind? y = some kind) (hptr : kind.accessedPointer? = some ptr)
    (hmd : s.resolved? env ptr = some md) (hspatial : md.spatial = some spatial)
    (hproven : s.func.provenInBounds env.interface ptr n) (hplace : place.Fits f env.interface) :
    ∃ a base bound, (∀ x, s.func.AddressOf env.interface place ptr x ↔ x = a) ∧
      (∀ x, s.func.AddressOf env.interface place spatial.base x ↔ x = base) ∧
      (∀ x, s.func.AddressOf env.interface place spatial.bound x ↔ x = bound) ∧
      base ≤ a ∧ a + n ≤ bound := by
  have G : Weaving.Gathered env Any f (.start f store) s :=
    Weaving.gathered hf.tidy hf.paramsFirst (fun v hv => hstore v hv.func_eq) (fun _ _ => trivial)
      hcreate hresolve
  have hmem : ptr ∈ kind.operands := by
    cases kind with
    | load => exact List.mem_singleton.mpr (Option.some.inj hptr).symm
    | store => exact List.mem_cons_of_mem _ (List.mem_singleton.mpr (Option.some.inj hptr).symm)
    | _ => cases hptr
  rw [Function.provenInBounds] at hproven
  split at hproven
  · rename_i extent hextent
    simp only [Bool.and_eq_true, decide_eq_true_eq] at hproven
    obtain ⟨start, h⟩ := G.spans hf hstore hproper htyped hplace (hproper y kind hy ptr hmem) hmd
      hspatial hextent
    obtain ⟨a, haddress, hle, hend⟩ := h.between hproven.1 hproven.2
    exact ⟨a, _, _, fun x => haddress.iff_eq, fun x => h.base.iff_eq, fun x => h.bound.iff_eq,
      hle, hend⟩
  · cases hproven

/-! ### The last of four numbers

A function that allocates four 32-bit numbers and reads the last one. Its allocation may be given
the type of a pointer to something else. -/

/-- Read the last of four numbers on the stack, which are allocated as pointers to `slot`. -/
def readLast (slot : Ty) : Function := .ofBlocks ⟨0⟩ "last" ⟨.void, [], false⟩ [
  [(.ptr slot, .alloca (.int 32) (some (.const (.int 64 4)))),
    (.ptr (.int 32), .cast .bitcast (val 0)), (.ptr (.int 32), .gep (val 1) [.const (.int 64 3)]),
    (.int 32, .load (val 2)), (.void, .ret none)]]

/-- The numbers start at address 4096. -/
def readLastPlacement : Placement := ⟨fun _ => 4096, fun _ => 0⟩

/-- Numbers that are allocated as such can be read without a check. -/
theorem provenInBounds_sound_readLast :
    let env := gatherEnv (readLast (.int 32))
    let t := gatherResolved (readLast (.int 32))
    t.resolved? env (val 2) = some ⟨some ⟨val 8, val 10⟩, some ⟨val 7, val 6⟩⟩ ∧
      t.func.provenInBounds env.interface (val 2) 4 ∧
      ∃ a base bound, (∀ x, t.func.AddressOf env.interface readLastPlacement (val 2) x ↔ x = a) ∧
        (∀ x, t.func.AddressOf env.interface readLastPlacement (val 8) x ↔ x = base) ∧
        (∀ x, t.func.AddressOf env.interface readLastPlacement (val 10) x ↔ x = bound) ∧
        base ≤ a ∧ a + 4 ≤ bound := by
  intro env t
  have hmd : t.resolved? env (val 2) = some ⟨some ⟨val 8, val 10⟩, some ⟨val 7, val 6⟩⟩ := by
    decide +kernel
  have hproven : t.func.provenInBounds env.interface (val 2) 4 := by decide +kernel
  have hplace : readLastPlacement.Fits (readLast (.int 32)) env.interface :=
    ⟨Function.forall_kind_iff.mpr (by decide +kernel), nofun⟩
  have hy : (readLast (.int 32)).kind? ⟨⟨0⟩, 3⟩ = some (.load (val 2)) := rfl
  exact ⟨hmd, hproven, Env.provenInBounds_sound (by decide +kernel) (fun _ _ => rfl)
    (runs_gatherCreated (by decide +kernel)) (runs_gatherResolved (by decide +kernel))
    (Function.forall_kind_iff.mpr (by decide +kernel))
    (Function.forall_kind_iff.mpr (by decide +kernel)) hy rfl hmd rfl hproven hplace⟩

/-- If the numbers are allocated as pointers to bytes, their bound lies behind the first of them.
The read of the last one is proven in bounds all the same, by the type that is allocated. -/
theorem provenInBounds_not_sound_readLast :
    let f := readLast (.int 8)
    let env := gatherEnv f
    let t := gatherResolved f
    f.WellFormed ∧ f.Proper env.interface ∧ readLastPlacement.Fits f env.interface ∧
      (Weaving.createMetadata env).Runs (.start f ⟨.bits64, []⟩) ⟨⟩ (gatherCreated f) ∧
      (Weaving.resolveMetadata env).Runs (gatherCreated f) ⟨⟩ t ∧
      f.kind? ⟨⟨0⟩, 3⟩ = some (.load (val 2)) ∧
      t.resolved? env (val 2) = some ⟨some ⟨val 0, val 8⟩, some ⟨val 7, val 6⟩⟩ ∧
      t.func.provenInBounds env.interface (val 2) 4 ∧
      ∃ a bound, (∀ x, t.func.AddressOf env.interface readLastPlacement (val 2) x ↔ x = a) ∧
        (∀ x, t.func.AddressOf env.interface readLastPlacement (val 8) x ↔ x = bound) ∧
        ¬a + 4 ≤ bound := by
  intro f env t
  have halloca : t.func.kind? ⟨⟨0⟩, 0⟩ = some (.alloca (.int 32) (some (.const (.int 64 4)))) := by
    decide +kernel
  have hcast : t.func.kind? ⟨⟨0⟩, 1⟩ = some (.cast .bitcast (val 0)) := by decide +kernel
  have hgep : t.func.kind? ⟨⟨0⟩, 2⟩ = some (.gep (val 1) [.const (.int 64 3)]) := by decide +kernel
  have hpast : t.func.kind? ⟨⟨0⟩, 8⟩ = some (.gep (val 0) [.const (.int 64 4)]) := by decide +kernel
  have hstart : t.func.AddressOf env.interface readLastPlacement (val 0) 4096 := .alloca halloca
  -- three numbers further on
  have hlast : t.func.AddressOf env.interface readLastPlacement (val 2) 4108 := by
    have htype : t.func.operandType (val 1) = .ok (.ptr (.int 32)) := by decide +kernel
    have hdistance : Layout.distance? .bits64 (.ptr (.int 32)) [some 3] = some 12 := by
      decide +kernel
    exact .gep hgep htype hdistance (.cast hcast hstart)
  -- four bytes further on
  have hbound : t.func.AddressOf env.interface readLastPlacement (val 8) 4100 := by
    have htype : t.func.operandType (val 0) = .ok (.ptr (.int 8)) := by decide +kernel
    have hdistance : Layout.distance? .bits64 (.ptr (.int 8)) [some 4] = some 4 := by decide +kernel
    exact .gep hpast htype hdistance hstart
  exact ⟨by decide +kernel, Function.forall_kind_iff.mpr (by decide +kernel),
    ⟨Function.forall_kind_iff.mpr (by decide +kernel), nofun⟩,
    runs_gatherCreated (by decide +kernel), runs_gatherResolved (by decide +kernel), rfl,
    by decide +kernel, by decide +kernel, 4108, 4100, fun _ => hlast.iff_eq, fun _ => hbound.iff_eq,
    by decide⟩

end PointerGuard
