import Mathlib.Data.List.Nodup
import PointerGuard.Routine

/-!
# Growth of functions

Instrumentation splices marked instructions of a few harmless kinds into blocks, and gives edges to
phis that it has spliced in. `Function.Grows` relates a function to what can be made of it in this
way; what follows from this alone is derived here by induction.
-/

namespace PointerGuard

variable {f h : Function} {x : ValueId} {c : BlockId}

/-- The condition that holds of everything. -/
@[simp] abbrev Any {α : Type} (_ : α) : Prop := True

/-- The condition that holds of nothing. -/
@[simp] abbrev Never {α : Type} (_ : α) : Prop := False

variable {info : ValueInfo} {inst : Instruction} {phi : ValueId} {ty : Ty}

namespace Function

variable {g : Function} {y : ValueId} {b : BlockId} {i : Nat} {kind : InstKind} {ty : Ty}

/-! ### Queries of a value -/

section

variable (heq : g.value? x = f.value? x)

include heq

theorem inst?_congr : g.inst? x = f.inst? x := by
  rw [inst?, inst?, heq]

theorem kind?_congr : g.kind? x = f.kind? x := by
  rw [kind?, kind?, inst?_congr heq]

theorem valueType?_congr : g.valueType? x = f.valueType? x := by
  rw [valueType?, valueType?, heq]

theorem isPointerValue_congr : g.isPointerValue x = f.isPointerValue x := by
  rw [isPointerValue, isPointerValue, valueType?_congr heq]

theorem isProgramInst_congr : g.isProgramInst x = f.isProgramInst x := by
  rw [isProgramInst, isProgramInst, inst?_congr heq]

end

theorem inst?_eq_some_iff : f.inst? x = some inst ↔ ∃ ty, f.value? x = some ⟨ty, .inst inst⟩ := by
  rw [inst?]
  constructor
  · grind
  · rintro ⟨ty, h⟩
    rw [h]

theorem kind?_eq_some_iff :
    f.kind? x = some kind ↔ ∃ inst, f.inst? x = some inst ∧ inst.kind = kind := by
  rw [kind?, Option.map_eq_some_iff]

theorem value?_of_kind? (h : f.kind? x = some kind) :
    ∃ inst ty, inst.kind = kind ∧ f.value? x = some ⟨ty, .inst inst⟩ := by
  obtain ⟨inst, hinst, hkind⟩ := kind?_eq_some_iff.mp h
  obtain ⟨ty, hvalue⟩ := inst?_eq_some_iff.mp hinst
  exact ⟨inst, ty, hkind, hvalue⟩

theorem kind?_of_inst? (h : f.inst? x = some inst) : f.kind? x = some inst.kind :=
  kind?_eq_some_iff.mpr ⟨inst, h, rfl⟩

theorem kind?_of_value? (h : f.value? x = some ⟨ty, .inst inst⟩) : f.kind? x = some inst.kind :=
  kind?_of_inst? (inst?_eq_some_iff.mpr ⟨ty, h⟩)

theorem isProgramInst_iff :
    f.isProgramInst x ↔ ∃ inst, f.inst? x = some inst ∧ inst.inserted = false := by
  rw [isProgramInst]
  cases f.inst? x <;> simp

theorem operandType_value_eq_ok : f.operandType (.value x) = .ok ty ↔ f.valueType? x = some ty := by
  rw [operandType]
  cases f.valueType? x <;> simp

theorem index_lt_of_value? (h : f.value? x = some info) :
    x.func = f.id ∧ x.index < f.values.size := by
  rw [value?] at h
  split at h
  · grind
  · cases h

theorem index_lt_of_inst? (h : f.inst? x = some inst) :
    x.func = f.id ∧ x.index < f.values.size := by
  obtain ⟨ty, hvalue⟩ := inst?_eq_some_iff.mp h
  exact index_lt_of_value? hvalue

theorem index_lt_of_kind? (h : f.kind? x = some kind) :
    x.func = f.id ∧ x.index < f.values.size := by
  obtain ⟨inst, hinst, -⟩ := kind?_eq_some_iff.mp h
  exact index_lt_of_inst? hinst

theorem value?_nextValue : f.value? f.nextValue = none := by
  simp [value?, nextValue, valueAt]

/-! ### One insertion -/

theorem value?_insertAt :
    (f.insertAt b i kind ty).value? x =
      if x = f.nextValue then some ⟨ty, .inst ⟨kind, b, true⟩⟩ else f.value? x := by
  obtain ⟨func, index⟩ := x
  simp only [value?, insertAt, nextValue, valueAt, Array.getElem?_push]
  split <;> split <;> simp_all

@[simp] theorem value?_insertAt_nextValue :
    (f.insertAt b i kind ty).value? f.nextValue = some ⟨ty, .inst ⟨kind, b, true⟩⟩ := by
  rw [value?_insertAt, if_pos rfl]

theorem value?_insertAt_of_ne (h : x ≠ f.nextValue) :
    (f.insertAt b i kind ty).value? x = f.value? x := by
  rw [value?_insertAt, if_neg h]

theorem value?_insertAt_of_some (h : f.value? x = some info) :
    (f.insertAt b i kind ty).value? x = f.value? x := by
  refine value?_insertAt_of_ne fun e => ?_
  rw [e, value?_nextValue] at h
  cases h

theorem inst?_insertAt_nextValue :
    (f.insertAt b i kind ty).inst? f.nextValue = some ⟨kind, b, true⟩ :=
  inst?_eq_some_iff.mpr ⟨ty, value?_insertAt_nextValue⟩

theorem inst?_insertAt_of_some (h : f.inst? x = some inst) :
    (f.insertAt b i kind ty).inst? x = some inst := by
  obtain ⟨ty, hvalue⟩ := inst?_eq_some_iff.mp h
  rw [inst?_congr (value?_insertAt_of_some hvalue), h]

@[simp] theorem size_values_insertAt :
    (f.insertAt b i kind ty).values.size = f.values.size + 1 := by
  simp [insertAt]

@[simp] theorem size_blocks_insertAt :
    (f.insertAt b i kind ty).blocks.size = f.blocks.size := by
  simp [insertAt]

theorem instsOf_insertAt (hb : b.index < f.blocks.size) :
    (f.insertAt b i kind ty).instsOf b =
      (f.instsOf b).take i ++ f.nextValue :: (f.instsOf b).drop i := by
  have hblock : (f.insertAt b i kind ty).block? b = (f.block? b).map fun block =>
      { block with insts := block.insts.take i ++ f.nextValue :: block.insts.drop i } := by
    simp only [block?, insertAt, Array.getElem?_modify, if_true]
  rw [instsOf, instsOf, hblock, block?, Array.getElem?_eq_getElem hb]
  rfl

theorem instsOf_insertAt_of_ne (h : c ≠ b) : (f.insertAt b i kind ty).instsOf c = f.instsOf c := by
  have hindex : b.index ≠ c.index := fun e => h (by cases b; cases c; simp_all)
  simp [instsOf, block?, insertAt, Array.getElem?_modify, hindex]

theorem index_lt_of_mem_instsOf (h : x ∈ f.instsOf b) : b.index < f.blocks.size := by
  by_contra hb
  simp [instsOf, block?, Array.getElem?_eq_none (Nat.not_lt.mp hb)] at h

theorem nodup_blockIds : f.blockIds.Nodup :=
  List.Nodup.map (fun m n h => by simpa using h) List.nodup_range

theorem mem_blockIds : b ∈ f.blockIds ↔ b.index < f.blocks.size := by
  rw [blockIds, List.mem_map]
  exact ⟨fun ⟨n, hn, e⟩ => by simpa [← e] using hn, fun h => ⟨b.index, by simpa using h, rfl⟩⟩

/-! ### One changed instruction -/

section

variable {change : Instruction → Instruction}

theorem value?_modifyInst (h : f.value? y = some ⟨ty, .inst inst⟩) :
    (f.modifyInst y change).value? x =
      if x = y then some ⟨ty, .inst (change inst)⟩ else f.value? x := by
  obtain ⟨hfunc, hindex⟩ := index_lt_of_value? h
  have hset : f.modifyInst y change =
      { f with values := f.values.setIfInBounds y.index ⟨ty, .inst (change inst)⟩ } := by
    rw [modifyInst, h]
  rw [hset, value?, value?]
  by_cases hx : x = y
  · subst hx
    simp [hfunc, hindex]
  · have hslot : x.func = f.id → y.index ≠ x.index := fun hx' e =>
      hx (by cases x; cases y; simp_all)
    split
    · grind
    · rfl

theorem value?_modifyInst_of_ne (h : x ≠ y) : (f.modifyInst y change).value? x = f.value? x := by
  cases hy : f.value? y with
  | none => rw [modifyInst, hy]
  | some info =>
    obtain ⟨ty, origin⟩ := info
    cases origin with
    | param position => rw [modifyInst, hy]
    | inst inst => rw [value?_modifyInst hy, if_neg h]

end

/-! ### One more edge -/

def withEdges (f : Function) (phi : ValueId) (incoming : List (Operand × BlockId)) : Function :=
  f.modifyInst phi fun inst => { inst with kind := .phi incoming }

variable {phi : ValueId} {incoming edges : List (Operand × BlockId)}

theorem addIncoming_eq_ok_iff {value : Operand} :
    f.addIncoming phi value b = .ok g ↔
      ∃ incoming, f.kind? phi = some (.phi incoming) ∧
        g = f.withEdges phi (incoming ++ [(value, b)]) := by
  rw [addIncoming]
  constructor
  · intro h
    split at h
    · rename_i incoming hkind
      exact ⟨incoming, hkind, (Except.ok.inj h).symm⟩
    · cases h
  · rintro ⟨incoming, hkind, rfl⟩
    rw [hkind, withEdges]

theorem value?_withEdges (h : f.value? phi = some ⟨ty, .inst inst⟩) :
    (f.withEdges phi edges).value? x =
      if x = phi then some ⟨ty, .inst { inst with kind := .phi edges }⟩ else f.value? x :=
  value?_modifyInst h

theorem value?_withEdges_of_ne (h : x ≠ phi) : (f.withEdges phi edges).value? x = f.value? x :=
  value?_modifyInst_of_ne h

theorem inst?_withEdges (h : f.inst? phi = some inst) :
    (f.withEdges phi edges).inst? x =
      if x = phi then some { inst with kind := .phi edges } else f.inst? x := by
  obtain ⟨ty, hvalue⟩ := inst?_eq_some_iff.mp h
  by_cases hx : x = phi
  · rw [if_pos hx, inst?, value?_withEdges hvalue, if_pos hx]
  · rw [if_neg hx, inst?_congr (value?_withEdges_of_ne hx)]

theorem isProgramInst_withEdges : (f.withEdges phi edges).isProgramInst x = f.isProgramInst x := by
  by_cases hx : x = phi
  · subst hx
    cases hinst : f.inst? x with
    | none =>
      have hsame : f.withEdges x edges = f := by
        rw [withEdges, modifyInst]
        split
        · rename_i hvalue
          rw [inst?_eq_some_iff.mpr ⟨_, hvalue⟩] at hinst
          cases hinst
        · rfl
      rw [hsame]
    | some inst => simp only [isProgramInst, inst?_withEdges hinst, if_pos, hinst]
  · rw [isProgramInst_congr (value?_withEdges_of_ne hx)]

theorem kind?_withEdges_of_ne (h : x ≠ phi) : (f.withEdges phi edges).kind? x = f.kind? x :=
  kind?_congr (value?_withEdges_of_ne h)

theorem kind?_withEdges (h : f.kind? phi = some (.phi incoming)) :
    (f.withEdges phi edges).kind? phi = some (.phi edges) := by
  obtain ⟨inst, hinst, -⟩ := kind?_eq_some_iff.mp h
  rw [kind?, inst?_withEdges hinst, if_pos rfl, Option.map_some]

theorem valueType?_withEdges (h : f.kind? phi = some (.phi incoming)) :
    (f.withEdges phi edges).valueType? x = f.valueType? x := by
  by_cases hx : x = phi
  · subst hx
    obtain ⟨inst, ty, -, hvalue⟩ := value?_of_kind? h
    rw [valueType?, valueType?, value?_withEdges hvalue, if_pos rfl, hvalue]
    rfl
  · rw [valueType?_congr (value?_withEdges_of_ne hx)]

@[simp] theorem instsOf_withEdges : (f.withEdges phi edges).instsOf b = f.instsOf b := by
  rw [withEdges, modifyInst]
  split <;> rfl

@[simp] theorem size_values_withEdges : (f.withEdges phi edges).values.size = f.values.size := by
  rw [withEdges, modifyInst]
  split <;> simp

@[simp] theorem size_blocks_withEdges : (f.withEdges phi edges).blocks.size = f.blocks.size := by
  rw [withEdges, modifyInst]
  split <;> rfl

end Function

/-! ### What is spliced in -/

theorem Routine.mem_all (r : Routine) : r ∈ Routine.all := by
  cases r <;> decide

/-- The kinds of instructions that are spliced in: derivations, choices, phis that have no edges
yet, parts of aggregates, and calls of some of the routines. -/
inductive InstKind.Weft (t : RoutineTable) (p : Routine → Prop) : InstKind → Prop
  | gep {base indices} : Weft t p (.gep base indices)
  | bitcast {value} : Weft t p (.cast .bitcast value)
  | select {cond ifTrue ifFalse} : Weft t p (.select cond ifTrue ifFalse)
  | phi : Weft t p (.phi [])
  | extract {aggregate index} : Weft t p (.extract aggregate index)
  | call {r args} : p r → Weft t p (.call (t.callee r) args (t.signature r))

variable {t : RoutineTable} {p q : Routine → Prop} {kind : InstKind}

theorem InstKind.Weft.not_isTerminator (h : kind.Weft t p) : kind.isTerminator = false := by
  cases h <;> rfl

theorem InstKind.Weft.mono (hpq : ∀ r, p r → q r) (h : kind.Weft t p) : kind.Weft t q := by
  cases h with
  | call hr => exact .call (hpq _ hr)
  | gep => exact .gep
  | bitcast => exact .bitcast
  | select => exact .select
  | phi => exact .phi
  | extract => exact .extract

namespace Function

/-- Every listed value is an instruction of the function, and none is listed twice. -/
structure Tidy (f : Function) : Prop where
  listed : ∀ {b x}, x ∈ f.instsOf b → ∃ inst, f.inst? x = some inst
  nodup : ∀ b, (f.instsOf b).Nodup
  block_eq : ∀ {b c x}, x ∈ f.instsOf b → x ∈ f.instsOf c → b = c

theorem Tidy.index_lt (T : f.Tidy) (h : x ∈ f.instsOf b) : x.index < f.values.size := by
  obtain ⟨inst, hinst⟩ := T.listed h
  exact (index_lt_of_inst? hinst).2

/-- All that the blocks of a function list. -/
def listing (f : Function) : List ValueId := f.blockIds.flatMap f.instsOf

theorem mem_listing : x ∈ f.listing ↔ ∃ b, x ∈ f.instsOf b := by
  rw [listing, List.mem_flatMap]
  exact ⟨fun ⟨b, _, h⟩ => ⟨b, h⟩,
    fun ⟨b, h⟩ => ⟨b, mem_blockIds.mpr (index_lt_of_mem_instsOf h), h⟩⟩

theorem Tidy.nodup_listing (T : f.Tidy) : f.listing.Nodup := by
  refine List.nodup_flatMap.mpr ⟨fun b _ => T.nodup b, ?_⟩
  exact nodup_blockIds.imp fun hne x hx hy => hne (T.block_eq hx hy)

/-- A place at which a block can take another instruction. It lies in front of some instruction, or
at the end of a block without a terminator. Only in a first block that has no instruction of the
program may it be anywhere. -/
structure Place (f : Function) (b : BlockId) (i : Nat) : Prop where
  block_lt : b.index < f.blocks.size
  le_length : i ≤ (f.instsOf b).length
  inner : i < (f.instsOf b).length ∨ f.terminator? b = none ∨ b.index = 0 ∧ f.programInsts b = []

theorem mem_instsOf_insertAt {b : BlockId} {i : Nat} (hb : b.index < f.blocks.size) :
    x ∈ (f.insertAt b i kind ty).instsOf c ↔ x ∈ f.instsOf c ∨ c = b ∧ x = f.nextValue := by
  by_cases hc : c = b
  · subst hc
    rw [instsOf_insertAt hb, List.perm_middle.mem_iff, List.take_append_drop, List.mem_cons]
    tauto
  · rw [instsOf_insertAt_of_ne hc]
    tauto

namespace Tidy

variable {b : BlockId} {i : Nat} {ty : Ty}

theorem nextValue_not_mem (T : f.Tidy) : f.nextValue ∉ f.instsOf b := by
  intro hmem
  obtain ⟨inst, hinst⟩ := T.listed hmem
  rw [inst?, value?_nextValue] at hinst
  cases hinst

theorem insertAt (T : f.Tidy) (place : f.Place b i) : (f.insertAt b i kind ty).Tidy := by
  constructor
  · intro c x hx
    rcases (mem_instsOf_insertAt place.block_lt).mp hx with hx | ⟨-, rfl⟩
    · grind [listed, inst?_insertAt_of_some]
    · exact ⟨_, inst?_insertAt_nextValue⟩
  · intro c
    by_cases hc : c = b
    · subst hc
      rw [instsOf_insertAt place.block_lt, List.perm_middle.nodup_iff, List.take_append_drop]
      exact List.nodup_cons.mpr ⟨T.nextValue_not_mem, T.nodup c⟩
    · rw [instsOf_insertAt_of_ne hc]
      exact T.nodup c
  · intro c d x hc hd
    rw [mem_instsOf_insertAt place.block_lt] at hc hd
    rcases hc with hc | ⟨rfl, rfl⟩ <;> rcases hd with hd | ⟨rfl, hd⟩
    · exact T.block_eq hc hd
    · exact absurd (hd ▸ hc) T.nextValue_not_mem
    · exact absurd hd T.nextValue_not_mem
    · rfl

theorem withEdges (T : f.Tidy) {incoming edges : List (Operand × BlockId)}
    (hphi : f.kind? phi = some (.phi incoming)) : (f.withEdges phi edges).Tidy := by
  obtain ⟨inst, hinst, -⟩ := kind?_eq_some_iff.mp hphi
  refine ⟨fun {c x} hx => ?_, fun c => ?_, fun {c d x} hc hd => ?_⟩
  · rw [instsOf_withEdges] at hx
    rw [inst?_withEdges hinst]
    split
    · exact ⟨_, rfl⟩
    · exact T.listed hx
  · rw [instsOf_withEdges]
    exact T.nodup c
  · rw [instsOf_withEdges] at hc hd
    exact T.block_eq hc hd

end Tidy

/-! ### Terminators -/

section Terminators

variable {g : Function} {phi : ValueId} {b : BlockId} {i : Nat} {ty : Ty}

theorem terminator?_eq_some_iff :
    f.terminator? b = some x ↔
      (f.instsOf b).getLast? = some x ∧ ∃ kind, f.kind? x = some kind ∧ kind.isTerminator := by
  simp only [terminator?, Option.bind_eq_bind, Option.bind_eq_some_iff]
  constructor
  · simp
  · simp

theorem terminator?_congr (hlast : (g.instsOf b).getLast? = (f.instsOf b).getLast?)
    (hkind : ∀ x, (f.instsOf b).getLast? = some x → g.kind? x = f.kind? x) :
    g.terminator? b = f.terminator? b := by
  ext x
  rw [terminator?_eq_some_iff, terminator?_eq_some_iff, hlast]
  exact and_congr_right fun h => by rw [hkind x h]

theorem terminator?_eq_none_of_last (hlast : (f.instsOf b).getLast? = some x)
    (hkind : f.kind? x = some kind) (hterm : kind.isTerminator = false) :
    f.terminator? b = none := by
  refine Option.eq_none_iff_forall_ne_some.mpr fun y hy => ?_
  obtain ⟨hlast', kind', hkind', hterm'⟩ := terminator?_eq_some_iff.mp hy
  cases hlast.symm.trans hlast'
  cases hkind.symm.trans hkind'
  rw [hterm] at hterm'
  cases hterm'

/-- An instruction at the end of a block that is no terminator leaves it without one. -/
theorem terminator?_insertAt_last (place : f.Place b i) (weft : kind.Weft t p)
    (hi : ¬i < (f.instsOf b).length) : (f.insertAt b i kind ty).terminator? b = none := by
  refine terminator?_eq_none_of_last ?_
    (kind?_eq_some_iff.mpr ⟨_, inst?_insertAt_nextValue, rfl⟩) weft.not_isTerminator
  rw [instsOf_insertAt place.block_lt, List.drop_eq_nil_of_le (Nat.not_lt.mp hi)]
  simp

theorem terminator?_insertAt (T : f.Tidy) (place : f.Place b i) (weft : kind.Weft t p)
    (c : BlockId) :
    (f.insertAt b i kind ty).terminator? c = f.terminator? c ∨
      c.index = 0 ∧ f.programInsts c = [] ∧ (f.insertAt b i kind ty).terminator? c = none := by
  have hkept : ∀ x, (f.instsOf c).getLast? = some x →
      (f.insertAt b i kind ty).kind? x = f.kind? x := by
    intro x hx
    obtain ⟨inst, hinst⟩ := T.listed (List.mem_of_getLast? hx)
    rw [kind?, kind?, inst?_insertAt_of_some hinst, hinst]
  by_cases hc : c = b
  · subst hc
    by_cases hi : i < (f.instsOf c).length
    · left
      refine terminator?_congr ?_ hkept
      have hrest : (f.instsOf c).drop i ≠ [] := by simpa using hi
      rw [instsOf_insertAt place.block_lt, List.getLast?_append_cons,
        List.getLast?_cons_of_ne_nil hrest, List.getLast?_drop, if_neg (by omega)]
    · -- at the end of a block, which has no terminator yet or is the first and empty of the program
      have hnone : (f.insertAt c i kind ty).terminator? c = none :=
        terminator?_insertAt_last place weft hi
      rcases place.inner.resolve_left hi with hterm | ⟨hentry, hprogram⟩
      · exact .inl (hnone.trans hterm.symm)
      · exact .inr ⟨hentry, hprogram, hnone⟩
  · exact .inl (terminator?_congr (by rw [instsOf_insertAt_of_ne hc]) hkept)

theorem Place.insertAt (place : f.Place b i) (weft : kind.Weft t p) :
    (f.insertAt b i kind ty).Place b (i + 1) := by
  have hlength : ((f.insertAt b i kind ty).instsOf b).length = (f.instsOf b).length + 1 := by
    rw [instsOf_insertAt place.block_lt, List.perm_middle.length_eq, List.take_append_drop,
      List.length_cons]
  have hle := place.le_length
  refine ⟨?_, by omega, ?_⟩
  · rw [size_blocks_insertAt]
    exact place.block_lt
  · by_cases hi : i < (f.instsOf b).length
    · exact .inl (by omega)
    · exact .inr (.inl (terminator?_insertAt_last place weft hi))

theorem terminator?_withEdges {incoming edges : List (Operand × BlockId)}
    (hphi : f.kind? phi = some (.phi incoming)) :
    (f.withEdges phi edges).terminator? b = f.terminator? b := by
  ext x
  rw [terminator?_eq_some_iff, terminator?_eq_some_iff, instsOf_withEdges]
  by_cases hx : x = phi
  · subst hx
    simp [kind?_withEdges hphi, hphi, InstKind.isTerminator]
  · rw [kind?_withEdges_of_ne hx]

end Terminators

/-- One function has grown into another by insertions and by edges on phis that are not values of
the first. -/
inductive Grows (t : RoutineTable) (p : Routine → Prop) (f : Function) : Function → Prop
  | refl : Grows t p f f
  | insert {g b i kind ty} : Grows t p f g → g.Place b i → kind.Weft t p →
      Grows t p f (g.insertAt b i kind ty)
  | edge {g phi incoming edges} : Grows t p f g → f.values.size ≤ phi.index →
      g.kind? phi = some (.phi incoming) → Grows t p f (g.withEdges phi edges)

namespace Grows

variable {g : Function} {b : BlockId}

theorem size_le (G : Grows t p f g) : f.values.size ≤ g.values.size := by
  induction G with
  | refl => exact Nat.le_refl _
  | insert _ _ _ ih =>
    rw [size_values_insertAt]
    omega
  | edge _ _ _ ih => rwa [size_values_withEdges]

theorem trans (hfg : Grows t p f g) (hgh : Grows t p g h) : Grows t p f h := by
  induction hgh with
  | refl => exact hfg
  | insert _ place weft ih => exact .insert ih place weft
  | edge _ hnew hphi ih => exact .edge ih (Nat.le_trans hfg.size_le hnew) hphi

theorem mono (hpq : ∀ r, p r → q r) (G : Grows t p f g) : Grows t q f g := by
  induction G with
  | refl => exact .refl
  | insert _ place weft ih => exact .insert ih place (weft.mono hpq)
  | edge _ hnew hphi ih => exact .edge ih hnew hphi

section

variable (G : Grows t p f g)

include G

/-- Only the values and the blocks can have changed. -/
theorem header : g = { f with values := g.values, blocks := g.blocks } := by
  induction G with
  | refl => rfl
  | @insert g b i kind ty _ _ _ ih =>
    rw [ih]
    rfl
  | @edge g phi incoming edges _ _ _ ih =>
    rw [ih, withEdges, modifyInst]
    split <;> rfl

theorem id_eq : g.id = f.id := by rw [G.header]

theorem size_blocks : g.blocks.size = f.blocks.size := by
  induction G with
  | refl => rfl
  | insert _ _ _ ih => rwa [size_blocks_insertAt]
  | edge _ _ _ ih => rwa [size_blocks_withEdges]

/-- What is known of a value of the original function stays. -/
theorem value?_eq (hx : x.index < f.values.size) : g.value? x = f.value? x := by
  induction G with
  | refl => rfl
  | insert G _ _ ih =>
    have hne : x ≠ nextValue _ := fun e => by
      have hsize := G.size_le
      rw [e] at hx
      exact absurd hx (Nat.not_lt.mpr hsize)
    rw [value?_insertAt_of_ne hne, ih]
  | @edge g phi _ _ _ hnew _ ih => grind [value?_withEdges_of_ne]

theorem tidy (T : f.Tidy) : g.Tidy := by
  induction G with
  | refl => exact T
  | insert _ place _ ih => exact ih.insertAt place
  | edge _ _ hphi ih => exact ih.withEdges hphi

/-- Values that are not in the original function are marked instructions, listed in their blocks. -/
theorem new_value (hvalue : g.value? x = some info) (hnew : f.values.size ≤ x.index) :
    ∃ inst, info.origin = .inst inst ∧ inst.inserted = true ∧
      (inst.kind.Weft t p ∨ inst.kind.isPhi) ∧ x ∈ g.instsOf inst.block := by
  induction G generalizing info with
  | refl => exact absurd (index_lt_of_value? hvalue).2 (Nat.not_lt.mpr hnew)
  | @insert g b i kind ty G place weft ih =>
    by_cases hx : x = g.nextValue
    · grind [value?_insertAt_nextValue, instsOf_insertAt, Place.block_lt]
    · grind [value?_insertAt_of_ne, mem_instsOf_insertAt, Place.block_lt]
  | @edge g phi incoming edges G hphi hkind ih =>
    obtain ⟨inst, ty, -, hphi⟩ := value?_of_kind? hkind
    simp only [instsOf_withEdges]
    rw [value?_withEdges hphi] at hvalue
    split at hvalue
    · -- the phi itself was new before, and with other edges it still is
      rename_i hx
      subst hx
      cases hvalue
      obtain ⟨inst', horigin, hinserted, -, hlisted⟩ := ih hphi
      cases horigin
      exact ⟨_, rfl, hinserted, .inr rfl, hlisted⟩
    · exact ih hvalue

theorem new_kind (hkind : g.kind? x = some kind) (hnew : f.values.size ≤ x.index) :
    kind.Weft t p ∨ kind.isPhi := by
  obtain ⟨inst, ty, rfl, hvalue⟩ := value?_of_kind? hkind
  obtain ⟨inst', horigin, -, hkinds, -⟩ := G.new_value hvalue hnew
  cases horigin
  exact hkinds

/-- The instructions of the original function stay, in order. -/
theorem filter_instsOf (T : f.Tidy) (b : BlockId) :
    (g.instsOf b).filter (·.index < f.values.size) = f.instsOf b := by
  induction G with
  | refl =>
    refine List.filter_eq_self.mpr fun x hx => decide_eq_true ?_
    exact T.index_lt hx
  | @insert g c i kind ty G place _ ih =>
    by_cases hb : b = c
    · subst hb
      have hnew : ¬g.nextValue.index < f.values.size := Nat.not_lt.mpr G.size_le
      rw [instsOf_insertAt place.block_lt, List.filter_append,
        List.filter_cons_of_neg (by simpa using hnew), ← List.filter_append,
        List.take_append_drop, ih]
    · rw [instsOf_insertAt_of_ne hb, ih]
  | edge _ _ _ ih => rw [instsOf_withEdges, ih]

theorem instsOf_sublist (T : f.Tidy) (b : BlockId) : (f.instsOf b).Sublist (g.instsOf b) := by
  rw [← G.filter_instsOf T b]
  exact List.filter_sublist

theorem isProgramInst_iff : g.isProgramInst x ↔ x.index < f.values.size ∧ f.isProgramInst x := by
  by_cases hx : x.index < f.values.size
  · grind [isProgramInst_congr, value?_eq]
  · refine iff_of_false (fun h => ?_) fun h => hx h.1
    obtain ⟨inst, hinst, hprogram⟩ := Function.isProgramInst_iff.mp h
    obtain ⟨ty, hvalue⟩ := inst?_eq_some_iff.mp hinst
    obtain ⟨inst', horigin, hinserted, -⟩ := G.new_value hvalue (Nat.not_lt.mp hx)
    cases horigin
    rw [hinserted] at hprogram
    cases hprogram

theorem not_isProgramInst (hx : f.values.size ≤ x.index) : g.isProgramInst x = false := by
  rw [Bool.eq_false_iff, Ne, G.isProgramInst_iff]
  exact fun h => absurd h.1 (Nat.not_lt.mpr hx)

theorem programInsts_eq (T : f.Tidy) (b : BlockId) : g.programInsts b = f.programInsts b := by
  rw [programInsts, programInsts, ← G.filter_instsOf T b, List.filter_filter]
  refine List.filter_congr fun x _ => ?_
  rw [Bool.eq_iff_iff, G.isProgramInst_iff]
  simp [and_comm]

/-- Control flow stays. Only if the first block has no instruction of the program may it have lost
its terminator, and with it all ways to leave it. -/
theorem terminator?_eq (T : f.Tidy) (b : BlockId) :
    g.terminator? b = f.terminator? b ∨
      b.index = 0 ∧ f.programInsts b = [] ∧ g.terminator? b = none := by
  induction G with
  | refl => exact .inl rfl
  | insert G place weft ih => grind [terminator?_insertAt, tidy, programInsts_eq]
  | edge _ _ hphi ih => rwa [terminator?_withEdges hphi]

theorem kind?_eq (h : f.kind? x = some kind) : g.kind? x = some kind := by
  rw [kind?_congr (G.value?_eq (index_lt_of_kind? h).2), h]

theorem operandType_eq {operand : Operand} (h : f.operandType operand = .ok ty) :
    g.operandType operand = .ok ty := by
  cases operand with
  | const c => exact h
  | value x =>
    rw [operandType_value_eq_ok] at h ⊢
    obtain ⟨info, hvalue, -⟩ := Option.map_eq_some_iff.mp h
    rw [valueType?_congr (G.value?_eq (index_lt_of_value? hvalue).2), h]

theorem kind?_terminator (T : f.Tidy) (h : f.terminator? b = some x) : g.kind? x = f.kind? x := by
  obtain ⟨hlast, -⟩ := terminator?_eq_some_iff.mp h
  exact kind?_congr (G.value?_eq (T.index_lt (List.mem_of_getLast? hlast)))

theorem successors_eq (T : f.Tidy) (b : BlockId) :
    g.successors b = f.successors b ∨
      b.index = 0 ∧ f.programInsts b = [] ∧ g.successors b = [] := by
  rcases G.terminator?_eq T b with hsame | ⟨hentry, hnone, hlost⟩
  · left
    cases hterm : f.terminator? b with
    | none => simp only [successors, hsame, hterm, Option.bind_none]
    | some x =>
      simp only [successors, hsame, hterm, Option.bind_some, G.kind?_terminator T hterm]
  · right
    exact ⟨hentry, hnone, by simp only [successors, hlost, Option.bind_none]⟩

end

end Grows

end Function

end PointerGuard
