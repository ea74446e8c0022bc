import PointerGuard.Proofs.Validity
import PointerGuard.Provenance

/-!
# Sources of pointers

The source of a pointer is found with a bounded number of steps. Here the bound is removed: a
pointer has a source exactly if a chain of derivations leads to it, and a chain never passes a value
twice. In a valid function a chain stays among values that are defined before it is used.
-/

namespace PointerGuard.Function

/-- A chain of derivations: the derived values it passes, in order, and what it ends in. -/
inductive Derives (f : Function) : Operand → List ValueId → Operand → Prop
  | const {c : Constant} : Derives f (.const c) [] (.const c.source)
  | stop {x} : f.derivedFrom? x = none → Derives f (.value x) [] (.value x)
  | next {x operand chain source} : f.derivedFrom? x = some operand →
      Derives f operand chain source → Derives f (.value x) (x :: chain) source

variable {f g : Function} {x y z : ValueId} {b : BlockId} {chain chain' : List ValueId}
  {operand source source' : Operand} {fuel : Nat}

namespace Derives

section

variable (D : f.Derives operand chain source)

include D

theorem unique (D' : f.Derives operand chain' source') : chain = chain' ∧ source = source' := by
  induction D generalizing chain' with
  | const =>
    cases D'
    exact ⟨rfl, rfl⟩
  | stop hnone =>
    cases D' with
    | stop => exact ⟨rfl, rfl⟩
    | next hsome => simp [hnone] at hsome
  | next hsome D ih =>
    cases D' with
    | stop hnone => simp [hsome] at hnone
    | next hsome' D' => grind

/-- The rest of a chain from a value on is the chain of the value. -/
theorem of_mem (hx : x ∈ chain) :
    ∃ rest, f.Derives (.value x) rest source ∧ rest.length ≤ chain.length := by
  induction D with
  | const => simp at hx
  | stop => simp at hx
  | @next z operand chain source hsome D ih =>
    rcases List.mem_cons.mp hx with rfl | hx
    · exact ⟨_, .next hsome D, Nat.le_refl _⟩
    · grind

/-- A chain that came back to a value would be as long as a part of itself. -/
theorem nodup : chain.Nodup := by
  induction D with
  | const => exact List.nodup_nil
  | stop => exact List.nodup_nil
  | next hsome D ih =>
    refine List.nodup_cons.mpr ⟨fun hx => ?_, ih⟩
    obtain ⟨rest, hrest, hle⟩ := D.of_mem hx
    obtain ⟨rfl, -⟩ := hrest.unique (.next hsome D)
    rw [List.length_cons] at hle
    omega

theorem mem_derived (hx : x ∈ chain) : ∃ next, f.derivedFrom? x = some next := by
  induction D with
  | const => simp at hx
  | stop => simp at hx
  | next hsome _ ih => grind

end

end Derives

theorem kind?_of_derivedFrom? (h : f.derivedFrom? x = some operand) :
    ∃ kind, f.kind? x = some kind ∧ kind.isPhi = false ∧ operand ∈ kind.operands := by
  rw [derivedFrom?] at h
  split at h
  · rename_i hkind
    cases h
    exact ⟨_, hkind, rfl, by simp [InstKind.operands]⟩
  · rename_i hkind
    cases h
    exact ⟨_, hkind, rfl, by simp [InstKind.operands]⟩
  · cases h

theorem length_le_of_derived (hnodup : chain.Nodup)
    (hderived : ∀ x ∈ chain, ∃ next, f.derivedFrom? x = some next) :
    chain.length ≤ f.values.size := by
  have hindex : ∀ x ∈ chain, x ∈ f.valueIds := by
    intro x hx
    obtain ⟨next, hnext⟩ := hderived x hx
    obtain ⟨kind, hkind, -⟩ := kind?_of_derivedFrom? hnext
    obtain ⟨hfunc, hlt⟩ := index_lt_of_kind? hkind
    refine List.mem_map.mpr ⟨x.index, List.mem_range.mpr hlt, ?_⟩
    rw [valueAt, ← hfunc]
  have hle := (hnodup.subperm hindex).length_le
  simpa [valueIds] using hle

theorem Derives.length_le (D : f.Derives operand chain source) : chain.length ≤ f.values.size :=
  length_le_of_derived D.nodup fun _ hx => D.mem_derived hx

/-! ### Bounded search -/

theorem derives_of_sourceWithin (h : f.sourceWithin fuel operand = some source) :
    ∃ chain, f.Derives operand chain source := by
  induction fuel generalizing operand with
  | zero =>
    cases operand with
    | const c =>
      cases h
      exact ⟨_, .const⟩
    | value x => simp [sourceWithin] at h
  | succ fuel ih =>
    cases operand with
    | const c =>
      cases h
      exact ⟨_, .const⟩
    | value x =>
      rw [sourceWithin] at h
      cases hnext : f.derivedFrom? x with
      | none =>
        rw [hnext] at h
        cases h
        exact ⟨_, .stop hnext⟩
      | some next =>
        rw [hnext] at h
        obtain ⟨chain, D⟩ := ih h
        exact ⟨_, .next hnext D⟩

theorem Derives.sourceWithin_eq (D : f.Derives operand chain source) (hlt : chain.length < fuel) :
    f.sourceWithin fuel operand = some source := by
  induction D generalizing fuel with
  | const => cases fuel <;> rfl
  | stop hnone =>
    obtain ⟨fuel, rfl⟩ := Nat.exists_eq_succ_of_ne_zero (Nat.ne_zero_of_lt hlt)
    rw [sourceWithin, hnone]
  | next hsome _ ih =>
    obtain ⟨fuel, rfl⟩ := Nat.exists_eq_succ_of_ne_zero (Nat.ne_zero_of_lt hlt)
    rw [sourceWithin, hsome]
    exact ih (by simpa using hlt)

/-- The source of a pointer is what a chain of derivations ends in. -/
theorem source?_eq_some_iff :
    f.source? operand = some source ↔ ∃ chain, f.Derives operand chain source := by
  constructor
  · exact derives_of_sourceWithin
  · rintro ⟨chain, D⟩
    exact D.sourceWithin_eq (Nat.lt_succ_of_le D.length_le)

/-! ### Sources in valid functions -/

/-- An operand that instructions in reachable blocks may use: a constant, a parameter, or a value
that is listed in such a block. -/
def Available (f : Function) (operand : Operand) : Prop :=
  ∀ x, operand = .value x → f.IsParam x ∨ ∃ b, x ∈ f.instsOf b ∧ f.Reachable b

/-- Whatever a reachable instruction other than a phi uses is available and defined before it. -/
theorem Valid.use (V : f.Valid) {kind : InstKind} (hb : f.Reachable b) (hy : y ∈ f.instsOf b)
    (hkind : f.kind? y = some kind) (hphi : kind.isPhi = false) (hused : .value x ∈ kind.operands) :
    f.Before x y ∧ f.Available (.value x) := by
  have hbefore := (V.fits hy hkind).before hb hphi x hused
  refine ⟨hbefore, fun x' e => ?_⟩
  cases e
  exact hbefore.cases hy hb V.tidy

theorem IsParam.derivedFrom? (h : f.IsParam x) : f.derivedFrom? x = none := by
  obtain ⟨ty, position, hvalue⟩ := h
  simp [Function.derivedFrom?, kind?, inst?, hvalue]

/-- The source of what is defined before an instruction is defined before it as well. -/
theorem Derives.before (V : f.Valid) (hy : y ∈ f.instsOf b) (hb : f.Reachable b)
    (D : f.Derives operand chain (.value z)) (hbefore : ∀ x, operand = .value x → f.Before x y) :
    f.Before z y := by
  generalize hz : Operand.value z = source at D
  induction D with
  | const => cases hz
  | stop =>
    cases hz
    exact hbefore z rfl
  | @next x operand chain source hsome D ih =>
    have hxy := hbefore x rfl
    obtain ⟨kind, hkind, hphi, hoperand⟩ := kind?_of_derivedFrom? hsome
    -- a derived value is not a parameter, so it is listed where control comes
    rcases hxy.cases hy hb V.tidy with hparam | ⟨a, hx, ha⟩
    · rw [hparam.derivedFrom?] at hsome
      cases hsome
    · refine ih (fun w e => ?_) hz
      subst e
      exact (V.use ha hx hkind hphi hoperand).1.trans V.tidy hxy hx

/-! ### Sources in what a function grows to -/

theorem Available.index_lt (V : f.Valid) (h : f.Available (.value x)) :
    x.index < f.values.size := by
  rcases h x rfl with ⟨_, _, hvalue⟩ | ⟨b, hx, -⟩
  · exact (index_lt_of_value? hvalue).2
  · exact V.tidy.index_lt hx

theorem Available.of_derivedFrom? (V : f.Valid) (h : f.Available (.value x))
    (hnext : f.derivedFrom? x = some operand) : f.Available operand := by
  obtain ⟨kind, hkind, hphi, hoperand⟩ := kind?_of_derivedFrom? hnext
  rcases h x rfl with hparam | ⟨b, hx, hb⟩
  · rw [hparam.derivedFrom?] at hnext
    cases hnext
  · intro z e
    subst e
    exact (V.use hb hx hkind hphi hoperand).2 z rfl

namespace Grows

variable {t : RoutineTable} {p : Routine → Prop}

theorem derivedFrom?_eq (G : Grows t p f g) (hx : x.index < f.values.size) :
    g.derivedFrom? x = f.derivedFrom? x := by
  rw [Function.derivedFrom?, Function.derivedFrom?, kind?_congr (G.value?_eq hx)]

private theorem derives_iff (G : Grows t p f g) (V : f.Valid) (h : f.Available operand) :
    g.Derives operand chain source ↔ f.Derives operand chain source := by
  constructor
  · intro D
    induction D with
    | const => exact .const
    | @stop x hnone => exact .stop (G.derivedFrom?_eq (h.index_lt V) ▸ hnone)
    | next hsome _ ih =>
      rw [G.derivedFrom?_eq (h.index_lt V)] at hsome
      exact .next hsome (ih (h.of_derivedFrom? V hsome))
  · intro D
    induction D with
    | const => exact .const
    | stop hnone => exact .stop ((G.derivedFrom?_eq (h.index_lt V)).trans hnone)
    | next hsome _ ih =>
      exact .next ((G.derivedFrom?_eq (h.index_lt V)).trans hsome) (ih (h.of_derivedFrom? V hsome))

/-- Growth does not change the sources of available operands. -/
theorem source?_eq_some_iff (G : Grows t p f g) (V : f.Valid) (h : f.Available operand) :
    g.source? operand = some source ↔ f.source? operand = some source := by
  rw [Function.source?_eq_some_iff, Function.source?_eq_some_iff]
  exact exists_congr fun chain => G.derives_iff V h

end Grows

end PointerGuard.Function

/-! ### Types on the way -/

namespace PointerGuard

variable {f : Function} {i : Interface} {ty : Ty} {offset : Int} {fuel : Nat} {ptr : Operand}

/-- The type of the value of a global. -/
def Interface.valueType? (i : Interface) (id : GlobalId) : Option Ty :=
  (i.globals[id.index]?).map GlobalInfo.valueType

/-- The types of the objects that a constant is computed from, and of what it is moved over. -/
def Constant.crossed (objects : GlobalId → Option Ty) : Constant → List Ty
  | .global id _ => (objects id).toList
  | .gep base _ _ => base.ty.pointee?.toList ++ base.crossed objects
  | .cast .bitcast value _ => value.crossed objects
  | _ => []

/-- To follow a pointer to its object is to cross a type: the type of the object, or of what an
address computation moves over. -/
inductive Function.Crosses (f : Function) (objects : GlobalId → Option Ty) : Operand → Ty → Prop
  | const {c ty} : ty ∈ c.crossed objects → Crosses f objects (.const c) ty
  | alloca {v ty copies} : f.kind? v = some (.alloca ty copies) → Crosses f objects (.value v) ty
  | moved {v base baseTy ty} : f.derivedFrom? v = some base → f.operandType base = .ok baseTy →
      baseTy.pointee? = some ty → Crosses f objects (.value v) ty
  | derived {v base ty} : f.derivedFrom? v = some base → Crosses f objects base ty →
      Crosses f objects (.value v) ty

/-- The type of what a load or a store reads or writes. -/
def Function.accessType? (f : Function) (id : ValueId) : InstKind → Option Ty
  | .load _ => f.valueType? id
  | .store value _ => (f.operandType value).toOption
  | _ => none

theorem Function.accessType?_store {id : ValueId} {value : Operand} :
    f.accessType? id (.store value ptr) = some ty ↔ f.operandType value = .ok ty := by
  rw [accessType?]
  cases f.operandType value <;> simp [Except.toOption]

theorem mem_strideType? {baseTy : Ty} {path : List (Option Int)}
    (h : ty ∈ (Function.strideType? baseTy path).toList) : baseTy.pointee? = some ty := by
  rw [Function.strideType?] at h
  split at h
  · cases h
  · simpa using h

theorem Constant.mem_crossed : ∀ {c : Constant} {offset : Int}, ty ∈ c.measured i offset →
    ty ∈ c.crossed i.valueType?
  | .global id _, _, h => by
    rw [measured] at h
    rw [crossed, Interface.valueType?]
    split at h <;> simp_all
  | .gep base indices _, _, h => by
    rw [crossed, List.mem_append]
    rcases List.mem_append.mp h with h | h
    · exact .inl (by simp [mem_strideType? h])
    · split at h
      · exact .inr (mem_crossed h)
      · cases h
  | .cast .bitcast value _, _, h => mem_crossed (c := value) h

/-- All sizes that the extent of a pointer rests on are those of types that are crossed. -/
theorem Function.crosses_of_mem_measured (h : ty ∈ f.measuredWithin i fuel offset ptr) :
    f.Crosses i.valueType? ptr ty := by
  induction fuel generalizing offset ptr with
  | zero =>
    cases ptr with
    | const c => exact .const (Constant.mem_crossed h)
    | value v => cases h
  | succ fuel ih =>
    cases ptr with
    | const c => exact .const (Constant.mem_crossed h)
    | value v =>
      rw [measuredWithin] at h
      split at h
      · rename_i base indices hkind
        have hbase : f.derivedFrom? v = some base := by rw [derivedFrom?, hkind]
        split at h
        · rcases List.mem_append.mp h with h | h
          · exact .moved hbase ‹_› (mem_strideType? h)
          · split at h
            · exact .derived hbase (ih h)
            · cases h
        · cases h
      · rename_i value hkind
        exact .derived (by rw [derivedFrom?, hkind]) (ih h)
      · rename_i allocated copies hkind
        split at h
        · exact .alloca (List.mem_singleton.mp h ▸ hkind)
        · cases h
      · cases h

theorem Function.crosses_of_oversized (h : f.oversized? i ptr = some ty) :
    f.Crosses i.valueType? ptr ty ∧ Layout.wordSize? i.width ty = none :=
  ⟨crosses_of_mem_measured (List.mem_of_find?_eq_some h), by simpa using List.find?_some h⟩

end PointerGuard
