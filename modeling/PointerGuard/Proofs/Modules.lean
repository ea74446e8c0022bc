import Mathlib.Data.List.Pairwise
import PointerGuard.Draft
import PointerGuard.Proofs.Gathering
import PointerGuard.Proofs.Outcomes

/-!
# Modules and their functions

A function stands where its handle says, its parameters come first among its values, and its blocks
list each of its instructions once. Drafting bodies and all operations on modules keep this.
-/

namespace PointerGuard

open PointerGuard.Function

variable {id : FuncId} {f g : Function} {name : String} {m : Module}

namespace Function

variable {h : Function} {b c : BlockId} {x phi : ValueId} {kind : InstKind} {ty : Ty}
  {p : Routine → Prop} {t : RoutineTable} {sig : Signature}

/-- The blocks list each instruction once, and the parameters are the first values. -/
structure WellFormed (f : Function) : Prop where
  tidy : f.Tidy
  paramsFirst : f.ParamsFirst

/-- The function under another name and with other flags. -/
def relabel (f : Function) (name : String) (flags : FunctionFlags) : Function :=
  { f with name := name, flags := flags }

theorem WellFormed.relabel {flags : FunctionFlags} (h : f.WellFormed) :
    (f.relabel name flags).WellFormed :=
  ⟨⟨h.tidy.listed, h.tidy.nodup, h.tidy.block_eq⟩, h.paramsFirst⟩

theorem WellFormed.of_grows (h : f.WellFormed) (G : f.Grows t p g) : g.WellFormed := by
  refine ⟨G.tidy h.tidy, fun v hv => ?_⟩
  have hparams : g.params = f.params := by rw [G.header]; rfl
  rw [hparams] at hv
  obtain ⟨ty, position, hvalue⟩ := h.paramsFirst v hv
  exact ⟨ty, position, (G.value?_eq (index_lt_of_value? hvalue).2).trans hvalue⟩

/-! ### Deciding whether a function is well-formed -/

theorem tidy_iff : f.Tidy ↔ f.listing.Nodup ∧ ∀ x ∈ f.listing, (f.inst? x).isSome := by
  constructor
  · grind [Tidy.nodup_listing, mem_listing, Tidy.listed]
  · rintro ⟨hnodup, hlisted⟩
    obtain ⟨hwithin, hacross⟩ := List.nodup_flatMap.mp hnodup
    refine ⟨fun hx => Option.isSome_iff_exists.mp (hlisted _ (mem_listing.mpr ⟨_, hx⟩)),
      fun b => ?_, fun {b c x} hb hc => ?_⟩
    · by_cases hb : b ∈ f.blockIds
      · exact hwithin b hb
      · have hnone : f.instsOf b = [] := List.eq_nil_iff_forall_not_mem.mpr fun x hx =>
          hb (mem_blockIds.mpr (index_lt_of_mem_instsOf hx))
        rw [hnone]
        exact List.nodup_nil
    · by_contra hne
      have : Std.Symm (Function.onFun List.Disjoint f.instsOf) := ⟨fun _ _ h _ hx hy => h hy hx⟩
      exact hacross.forall (mem_blockIds.mpr (index_lt_of_mem_instsOf hb))
        (mem_blockIds.mpr (index_lt_of_mem_instsOf hc)) hne hb hc

instance : Decidable f.Tidy := decidable_of_iff _ tidy_iff.symm

def isParam (f : Function) (v : ValueId) : Bool :=
  match f.value? v with
  | some ⟨_, .param _⟩ => true
  | _ => false

theorem isParam_iff : f.isParam x ↔ ∃ ty position, f.value? x = some ⟨ty, .param position⟩ := by
  rw [isParam]
  split
  · grind
  · grind

instance : Decidable f.ParamsFirst :=
  decidable_of_iff (∀ v ∈ f.params, f.isParam v)
    (forall_congr' fun _ => imp_congr_right fun _ => isParam_iff)

instance : Decidable f.WellFormed :=
  decidable_of_iff (f.Tidy ∧ f.ParamsFirst) ⟨fun h => ⟨h.1, h.2⟩, fun h => ⟨h.tidy, h.paramsFirst⟩⟩

/-- A property of all instructions is one of those in the table of values. -/
theorem forall_kind_iff {P : ValueId → InstKind → Prop} :
    (∀ v, ∀ kind ∈ f.kind? v, P v kind) ↔
      ∀ n < f.values.size, ∀ kind ∈ f.kind? ⟨f.id, n⟩, P ⟨f.id, n⟩ kind := by
  refine ⟨fun h n _ => h _, fun h v kind hkind => ?_⟩
  obtain ⟨hfunc, hlt⟩ := index_lt_of_kind? hkind
  obtain ⟨func, n⟩ := v
  obtain rfl : func = f.id := hfunc
  exact h n hlt kind hkind

/-! ### Drafting -/

theorem value?_declaration (id : FuncId) (name : String) {position : Nat}
    (h : position < sig.params.length) :
    ∃ ty, (declaration id name sig).value? ⟨id, position⟩ = some ⟨ty, .param position⟩ := by
  simp [value?, declaration, h]

theorem wellFormed_declaration : (declaration id name sig).WellFormed := by
  refine ⟨⟨fun {b x} hx => ?_, fun b => ?_, fun {b c x} hx => ?_⟩, fun v hv => ?_⟩
  · cases hx
  · exact List.nodup_nil
  · cases hx
  · obtain ⟨position, hposition, rfl⟩ := List.mem_map.mp hv
    obtain ⟨ty, hvalue⟩ := value?_declaration id name (List.mem_range.mp hposition)
    exact ⟨ty, position, hvalue⟩

theorem instsOf_ensureBlock : (f.ensureBlock b).instsOf c = f.instsOf c := by
  by_cases hc : c.index < f.blocks.size
  · rw [instsOf, instsOf, block?, block?, ensureBlock, Array.getElem?_append_left hc]
  · -- a block that is added is empty, and one that does not exist has no instructions either
    have hnone : f.block? c = none := Array.getElem?_eq_none (Nat.not_lt.mp hc)
    rw [instsOf, instsOf, hnone, block?, ensureBlock,
      Array.getElem?_append_right (Nat.not_lt.mp hc), Array.getElem?_replicate]
    by_cases hadded : c.index - f.blocks.size < b.index + 1 - f.blocks.size
    · rw [if_pos hadded]
    · rw [if_neg hadded]

theorem lt_size_ensureBlock : b.index < (f.ensureBlock b).blocks.size := by
  simp only [ensureBlock, Array.size_append, Array.size_replicate]
  omega

theorem WellFormed.ensureBlock (h : f.WellFormed) : (f.ensureBlock b).WellFormed := by
  refine ⟨⟨fun {c x} hx => ?_, fun c => ?_, fun {c d x} hc hd => ?_⟩, h.paramsFirst⟩
  · rw [instsOf_ensureBlock] at hx
    exact h.tidy.listed hx
  · rw [instsOf_ensureBlock]
    exact h.tidy.nodup c
  · rw [instsOf_ensureBlock] at hc hd
    exact h.tidy.block_eq hc hd

theorem value?_append :
    (f.append b kind ty).value? x =
      if x = f.nextValue then some ⟨ty, .inst ⟨kind, b, false⟩⟩ else f.value? x := by
  obtain ⟨func, index⟩ := x
  simp only [value?, append, ensureBlock, nextValue, valueAt,
    Array.getElem?_push]
  split <;> split <;> simp_all

theorem value?_append_of_some {info : ValueInfo} (h : f.value? x = some info) :
    (f.append b kind ty).value? x = some info := by
  rw [value?_append, if_neg, h]
  rintro rfl
  rw [value?_nextValue] at h
  cases h

theorem instsOf_append :
    (f.append b kind ty).instsOf c =
      if c = b then f.instsOf b ++ [f.nextValue] else f.instsOf c := by
  have hblock : (f.append b kind ty).block? c =
      if b.index = c.index then ((f.ensureBlock b).block? c).map fun block =>
        { block with insts := block.insts ++ [f.nextValue] } else (f.ensureBlock b).block? c := by
    simp only [block?, append, Array.getElem?_modify]
    rfl
  have hinsts := fun c => instsOf_ensureBlock (f := f) (b := b) (c := c)
  have hlt := lt_size_ensureBlock (f := f) (b := b)
  by_cases hc : c = b
  · subst hc
    rw [if_pos rfl, ← hinsts c, instsOf, instsOf, hblock, if_pos rfl, block?,
      Array.getElem?_eq_getElem hlt]
    rfl
  · have hne : b.index ≠ c.index := fun e => hc (by cases b; cases c; simp_all)
    rw [if_neg hc, ← hinsts c, instsOf, instsOf, hblock, if_neg hne]

/-- Drafting leaves the head of a function as it is. -/
def SameHead (f g : Function) : Prop :=
  g = { f with attrs := g.attrs, values := g.values, blocks := g.blocks }

theorem SameHead.refl : f.SameHead f := rfl

theorem SameHead.trans (H : f.SameHead g) (H' : g.SameHead h) : f.SameHead h := by
  rw [SameHead, H', H]

theorem Grows.sameHead (G : f.Grows t p g) : f.SameHead g := by
  have hattrs : g.attrs = f.attrs := by rw [G.header]
  rw [SameHead, hattrs]
  exact G.header

theorem sameHead_ensureBlock : f.SameHead (f.ensureBlock b) := rfl

theorem sameHead_append : f.SameHead (f.append b kind ty) := rfl

theorem WellFormed.append (h : f.WellFormed) : (f.append b kind ty).WellFormed := by
  have hmem : ∀ {c x}, x ∈ (f.append b kind ty).instsOf c →
      x ∈ f.instsOf c ∨ c = b ∧ x = f.nextValue := by grind [instsOf_append]
  refine ⟨⟨fun {c x} hx => ?_, fun c => ?_, fun {c d x} hc hd => ?_⟩, fun v hv => ?_⟩
  · rcases hmem hx with hx | ⟨-, rfl⟩
    · obtain ⟨inst, hinst⟩ := h.tidy.listed hx
      obtain ⟨ty', hvalue⟩ := inst?_eq_some_iff.mp hinst
      exact ⟨inst, inst?_eq_some_iff.mpr ⟨ty', value?_append_of_some hvalue⟩⟩
    · simp [inst?_eq_some_iff, value?_append]
  · rw [instsOf_append]
    split
    · rw [List.nodup_append_comm]
      exact List.nodup_cons.mpr ⟨h.tidy.nextValue_not_mem, h.tidy.nodup b⟩
    · exact h.tidy.nodup c
  · rcases hmem hc with hc | ⟨rfl, rfl⟩
    · rcases hmem hd with hd | ⟨-, rfl⟩
      · exact h.tidy.block_eq hc hd
      · exact absurd hc h.tidy.nextValue_not_mem
    · rcases hmem hd with hd | ⟨rfl, -⟩
      · exact absurd hd h.tidy.nextValue_not_mem
      · rfl
  · obtain ⟨ty', position, hvalue⟩ := h.paramsFirst v hv
    exact ⟨ty', position, value?_append_of_some hvalue⟩

theorem WellFormed.withEdges {incoming edges : List (Operand × BlockId)} (h : f.WellFormed)
    (hphi : f.kind? phi = some (.phi incoming)) : (f.withEdges phi edges).WellFormed := by
  obtain ⟨inst, ty, -, hvalue⟩ := value?_of_kind? hphi
  have hset := modifyInst.eq_def f phi fun inst => { inst with kind := .phi edges }
  rw [hvalue] at hset
  refine ⟨h.tidy.withEdges hphi, fun v hv => ?_⟩
  have hv : v ∈ f.params := by
    rw [Function.withEdges, hset] at hv
    exact hv
  obtain ⟨ty', position, hparam⟩ := h.paramsFirst v hv
  refine ⟨ty', position, ?_⟩
  rw [value?_withEdges_of_ne, hparam]
  rintro rfl
  rw [hvalue] at hparam
  cases hparam

end Function

namespace Draft

open Outcome

section

variable {P : Function → Prop} (attrs : ∀ {f given}, P f → P { f with attrs := given })
  (block : ∀ {f b}, P f → P (f.ensureBlock b))
  (edge : ∀ {f phi incoming edges}, f.kind? phi = some (.phi incoming) → P f →
    P (f.withEdges phi edges))
  (append : ∀ {f b kind ty}, P f → P (f.append b kind ty)) (hf : P f)

include attrs block edge append hf

theorem add_keeps {item : Item} {value : Option ValueId} (h : item.add m f = .ok (g, value)) :
    P g := by
  cases item with
  | attrs position given =>
    rw [Item.add] at h
    split at h
    · cases Except.ok.inj h
      exact attrs hf
    · cases h
  | block number =>
    cases Except.ok.inj h
    exact block hf
  | incoming phi value number =>
    obtain ⟨operand, -, h⟩ := bind_eq_ok.mp h
    split at h
    · rename_i edges hkind
      cases Except.ok.inj h
      exact edge hkind hf
    · cases h
  | inst number op =>
    obtain ⟨⟨kind, ty⟩, -, h⟩ := bind_eq_ok.mp h
    cases Except.ok.inj h
    exact append (block hf)

/-- What every item keeps is kept by a draft. -/
theorem build_keeps {items : List Item} {values : List (Option ValueId)}
    (h : build m f items = .ok (g, values)) : P g := by
  induction items generalizing f values with
  | nil =>
    cases Except.ok.inj h
    exact hf
  | cons item rest ih =>
    obtain ⟨⟨f', value⟩, hadd, h⟩ := bind_eq_ok.mp h
    obtain ⟨⟨g', values'⟩, hrest, h⟩ := bind_eq_ok.mp h
    cases Except.ok.inj h
    exact ih (add_keeps attrs block edge append hf hadd) hrest

end

theorem build_wellFormed {items : List Item} {values : List (Option ValueId)} (hf : f.WellFormed)
    (h : build m f items = .ok (g, values)) : g.WellFormed ∧ f.SameHead g := by
  refine build_keeps (P := fun g => g.WellFormed ∧ f.SameHead g) (fun ⟨hg, H⟩ => ?_)
    (fun ⟨hg, H⟩ => ⟨hg.ensureBlock, H.trans sameHead_ensureBlock⟩) (fun hkind ⟨hg, H⟩ => ?_)
    (fun ⟨hg, H⟩ => ⟨hg.append, H.trans sameHead_append⟩) ⟨hf, .refl⟩ h
  · exact ⟨⟨⟨hg.tidy.listed, hg.tidy.nodup, hg.tidy.block_eq⟩, hg.paramsFirst⟩, H.trans rfl⟩
  · obtain ⟨inst, ty, -, hvalue⟩ := value?_of_kind? hkind
    refine ⟨hg.withEdges hkind, H.trans ?_⟩
    rw [Function.withEdges, modifyInst, hvalue]
    rfl

end Draft

namespace Module

variable {other : FuncId}

theorem function_eq_ok_iff : m.function id = .ok f ↔ m.functions[id.index]? = some f := by
  rw [function]
  cases m.functions[id.index]? <;> simp

/-- Functions stand where their handles say, and are well-formed. -/
structure WellFormed (m : Module) : Prop where
  id_eq : ∀ {id f}, m.function id = .ok f → f.id = id
  wellFormed : ∀ {id f}, m.function id = .ok f → f.WellFormed

instance : Decidable m.WellFormed := by
  refine decidable_of_iff (∀ i, (h : i < m.functions.size) →
    m.functions[i].id = ⟨i⟩ ∧ m.functions[i].WellFormed) ⟨fun h => ?_, fun hm i hi => ?_⟩
  · have hall : ∀ {id f}, m.function id = .ok f → f.id = id ∧ f.WellFormed := by
      intro id f hf
      obtain ⟨hlt, rfl⟩ := Array.getElem?_eq_some_iff.mp (function_eq_ok_iff.mp hf)
      exact h id.index hlt
    exact ⟨fun hf => (hall hf).1, fun hf => (hall hf).2⟩
  · have hf : m.function ⟨i⟩ = .ok m.functions[i] :=
      function_eq_ok_iff.mpr (Array.getElem?_eq_getElem hi)
    exact ⟨hm.id_eq hf, hm.wellFormed hf⟩

def push (m : Module) (f : Function) : Module := { m with functions := m.functions.push f }

theorem function_push :
    (m.push f).function id = if id = m.nextFunction then .ok f else m.function id := by
  have hindex : id = m.nextFunction ↔ id.index = m.functions.size := by
    obtain ⟨index⟩ := id
    simp [nextFunction]
  simp only [function, push, Array.getElem?_push, hindex]
  by_cases h : id.index = m.functions.size
  · rw [if_pos h, if_pos h]
  · rw [if_neg h, if_neg h]

theorem function_push_of_eq_ok (h : m.function id = .ok f) : (m.push g).function id = .ok f := by
  rw [function_push, if_neg, h]
  rintro rfl
  rw [function_eq_ok_iff, nextFunction, Array.getElem?_eq_none (Nat.le_refl _)] at h
  cases h

theorem function_setFunction (h : m.function id = .ok f) :
    (m.setFunction id g).function other = if other = id then .ok g else m.function other := by
  obtain ⟨hlt, -⟩ := Array.getElem?_eq_some_iff.mp (function_eq_ok_iff.mp h)
  by_cases hother : other = id
  · subst hother
    rw [if_pos rfl, function_eq_ok_iff, setFunction]
    simp [hlt]
  · have hne : id.index ≠ other.index := fun e => hother (by cases id; cases other; simp_all)
    rw [if_neg hother, function, function, setFunction, Array.getElem?_setIfInBounds_ne hne]

theorem function_setFunction_self (h : m.function id = .ok f) :
    (m.setFunction id g).function id = .ok g := by
  rw [function_setFunction h, if_pos rfl]

/-- A function that is found by its name stands where its handle says. -/
theorem WellFormed.functionNamed? (hm : m.WellFormed) (h : m.functionNamed? name = some id) :
    ∃ f, m.function id = .ok f ∧ f.name = name := by
  obtain ⟨f, hfind, rfl⟩ := Option.map_eq_some_iff.mp h
  have hname := Array.find?_some hfind
  obtain ⟨i, hi, hget⟩ := Array.mem_iff_getElem.mp (Array.mem_of_find?_eq_some hfind)
  have hf : m.function ⟨i⟩ = .ok f :=
    function_eq_ok_iff.mpr (Array.getElem?_eq_some_iff.mpr ⟨hi, hget⟩)
  rw [hm.id_eq hf]
  exact ⟨f, hf, by simpa using hname⟩

theorem WellFormed.push (hm : m.WellFormed) (hid : f.id = m.nextFunction) (hf : f.WellFormed) :
    (m.push f).WellFormed := by
  constructor
  all_goals
    intro id g hg
    rw [function_push] at hg
    split at hg
  · rename_i hnext
    cases hg
    rw [hid, hnext]
  · exact hm.id_eq hg
  · cases hg
    exact hf
  · exact hm.wellFormed hg

theorem WellFormed.setFunction (hm : m.WellFormed) (h : m.function id = .ok f) (hid : g.id = f.id)
    (hg : g.WellFormed) : (m.setFunction id g).WellFormed := by
  constructor
  all_goals
    intro other g' hg'
    rw [function_setFunction h] at hg'
    split at hg'
  · rename_i hother
    cases hg'
    rw [hid, hother, hm.id_eq h]
  · exact hm.id_eq hg'
  · cases hg'
    exact hg
  · exact hm.wellFormed hg'

end Module

end PointerGuard
