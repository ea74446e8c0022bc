import PointerGuard.Proofs.Filling

/-!
# Grounded pointers

The derivation of a grounded pointer leads through values of the function to a constant, to a value
that is not derived, or to a value of another function. Nothing inserted can get into it, so the
source and the extent of such a pointer stay the same. Every pointer whose metadata is known is
grounded.
-/

namespace PointerGuard

variable {f : Function} {p : Routine → Prop} {operand : Operand}

namespace Function

variable {g : Function} {t : RoutineTable} {source : Operand} {known known' : ValueId → Prop}
  {v : ValueId}

theorem Rests.mono (h : f.Rests known operand) (hmono : ∀ v, known v → known' v) :
    f.Rests known' operand := by
  induction h with
  | const => exact .const
  | known h => exact .known (hmono _ h)
  | origin hhas hnone => exact .origin hhas hnone
  | derived hsource _ ih => exact .derived hsource ih

/-- The derivation of an operand ends, among values of the function or outside of it. -/
def Grounded (f : Function) (operand : Operand) : Prop := f.Rests (·.func ≠ f.id) operand

theorem kind?_of_foreign (h : v.func ≠ f.id) : f.kind? v = none := by
  cases hkind : f.kind? v with
  | none => rfl
  | some kind => exact absurd (index_lt_of_kind? hkind).1 h

theorem Grounded.of_derivedFrom? (h : f.Grounded (.value v))
    (hsource : f.derivedFrom? v = some source) :
    f.Grounded source := by
  cases h with
  | known hforeign => simp [derivedFrom?, kind?_of_foreign hforeign] at hsource
  | origin _ hnone => simp [hnone] at hsource
  | derived hsource' h =>
    cases hsource.symm.trans hsource'
    exact h

/-- Where a grounded operand names a value, growth leaves the value alone. -/
theorem Grounded.value?_eq (h : f.Grounded (.value v)) (G : f.Grows t p g) :
    g.value? v = f.value? v := by
  have hhas : ∀ {v}, f.Has v → g.value? v = f.value? v := fun h => G.value?_eq h.index_lt
  cases h with
  | known hforeign =>
    rw [value?, value?, if_neg hforeign, if_neg (by rwa [G.id_eq])]
  | origin h => exact hhas h
  | derived hsource => grind [kind?_of_derivedFrom?, has_of_kind?]

theorem Grounded.kind?_eq (h : f.Grounded (.value v)) (G : f.Grows t p g) : g.kind? v = f.kind? v :=
  kind?_congr (h.value?_eq G)

theorem Grounded.operandType_eq (h : f.Grounded operand) (G : f.Grows t p g) :
    g.operandType operand = f.operandType operand := by
  cases operand with
  | const c => rfl
  | value v =>
    have hname : g.name = f.name := by rw [G.header]
    rw [operandType, operandType, valueType?_congr (h.value?_eq G), hname]

/-- The derivation of a grounded operand stays the same, and ends in a grounded one. -/
theorem Grounded.derives (h : f.Grounded operand) :
    ∃ chain source, f.Derives operand chain source ∧ f.Grounded source ∧
      ∀ {t : RoutineTable} {p : Routine → Prop} {g : Function}, f.Grows t p g →
        g.Derives operand chain source := by
  induction h with
  | const => exact ⟨_, _, .const, .const, fun _ => .const⟩
  | @known v hforeign =>
    have hnone : ∀ {g : Function}, v.func ≠ g.id → g.derivedFrom? v = none := fun h => by
      rw [derivedFrom?, kind?_of_foreign h]
    exact ⟨_, _, .stop (hnone hforeign), .known hforeign,
      fun G => .stop (hnone (by rwa [G.id_eq]))⟩
  | origin hhas hnone =>
    exact ⟨_, _, .stop hnone, .origin hhas hnone,
      fun G => .stop ((G.derivedFrom?_eq hhas.index_lt).trans hnone)⟩
  | derived hsource _ ih =>
    obtain ⟨chain, source, D, hsource', hgrown⟩ := ih
    obtain ⟨kind, hkind, -⟩ := kind?_of_derivedFrom? hsource
    exact ⟨_, _, .next hsource D, hsource', fun G =>
      .next ((G.derivedFrom?_eq (has_of_kind? hkind).index_lt).trans hsource) (hgrown G)⟩

/-- A grounded pointer has a source, which is grounded, and growth does not change it. -/
theorem Grounded.source?_eq (h : f.Grounded operand) :
    ∃ source, f.source? operand = some source ∧ f.Grounded source ∧
      ∀ {t : RoutineTable} {p : Routine → Prop} {g : Function}, f.Grows t p g →
        g.source? operand = some source := by
  obtain ⟨chain, source, D, hsource, hgrown⟩ := h.derives
  exact ⟨source, source?_eq_some_iff.mpr ⟨chain, D⟩, hsource,
    fun G => source?_eq_some_iff.mpr ⟨chain, hgrown G⟩⟩

/-! ### Extents -/

variable {i : Interface} {offset : Int} {fuel : Nat}

/-- Once a derivation has been followed to its end, more steps do not matter. -/
theorem Derives.extentWithin_eq {fuel' : Nat} {chain : List ValueId}
    (D : f.Derives operand chain source) (hlt : chain.length < fuel) (hlt' : chain.length < fuel') :
    f.extentWithin i fuel offset operand = f.extentWithin i fuel' offset operand := by
  induction D generalizing fuel fuel' offset with
  | const => cases fuel <;> cases fuel' <;> rfl
  | stop hnone =>
    obtain ⟨fuel, rfl⟩ := Nat.exists_eq_succ_of_ne_zero (Nat.ne_zero_of_lt hlt)
    obtain ⟨fuel', rfl⟩ := Nat.exists_eq_succ_of_ne_zero (Nat.ne_zero_of_lt hlt')
    rw [extentWithin, extentWithin]
    -- neither an address computation nor a cast, so the search stops here
    rw [derivedFrom?] at hnone
    split at hnone
    · cases hnone
    · cases hnone
    · grind
  | @next x operand chain source hsome D ih =>
    obtain ⟨fuel, rfl⟩ := Nat.exists_eq_succ_of_ne_zero (Nat.ne_zero_of_lt hlt)
    obtain ⟨fuel', rfl⟩ := Nat.exists_eq_succ_of_ne_zero (Nat.ne_zero_of_lt hlt')
    rw [extentWithin, extentWithin]
    rw [derivedFrom?] at hsome
    split at hsome
    · grind
    · grind
    · cases hsome

theorem Grounded.extentWithin_eq (h : f.Grounded operand) (G : f.Grows t p g) :
    g.extentWithin i fuel offset operand = f.extentWithin i fuel offset operand := by
  induction h generalizing fuel offset with
  | const => cases fuel <;> rfl
  | known hforeign =>
    cases fuel with
    | zero => rfl
    | succ fuel =>
      rw [extentWithin, extentWithin, kind?_of_foreign hforeign,
        kind?_of_foreign (by rwa [G.id_eq])]
  | @origin v hhas hnone =>
    cases fuel with
    | zero => rfl
    | succ fuel =>
      rw [extentWithin, extentWithin, kind?_congr (G.value?_eq hhas.index_lt)]
      rw [derivedFrom?] at hnone
      split at hnone
      · cases hnone
      · cases hnone
      · grind
  | @derived v operand hsource hrest ih =>
    cases fuel with
    | zero => rfl
    | succ fuel =>
      obtain ⟨kind, hkind, -⟩ := kind?_of_derivedFrom? hsource
      rw [extentWithin, extentWithin, G.kind?_eq hkind, hkind]
      rw [derivedFrom?, hkind] at hsource
      split at hsource
      · cases hsource
        rename_i hkind'
        cases hkind'
        simp only [Grounded.operandType_eq hrest G, ih]
      · grind
      · cases hsource

/-- What constant indices prove of a grounded pointer does not change. -/
theorem Grounded.provenInBounds_eq (h : f.Grounded operand) (G : f.Grows t p g) (bytes : Nat) :
    g.provenInBounds i operand bytes = f.provenInBounds i operand bytes := by
  obtain ⟨chain, source, D, -, -⟩ := h.derives
  have hlen := D.length_le
  have hextent : g.extent? i operand = f.extent? i operand := by
    rw [extent?, h.extentWithin_eq G]
    exact D.extentWithin_eq (Nat.lt_succ_of_le (hlen.trans G.size_le)) (Nat.lt_succ_of_le hlen)
  rw [provenInBounds, provenInBounds, hextent]

end Function

/-! ### Pointers with metadata -/

namespace Weaving

variable {env : Env} {s t : Weaving} {md : PointerMetadata}

/-- Operands with metadata are grounded, if none of it was known of the function beforehand. -/
theorem Gathered.grounded (G : Gathered env p f s t)
    (hforeign : ∀ v md, s.store.lookup v = some md → v.func ≠ f.id)
    (h : t.resolved? env operand = some md) : f.Grounded operand := by
  cases operand with
  | const c => exact .const
  | value v =>
    rcases G.records h with hold | R
    · exact .known (hforeign v md hold)
    · refine R.rests.mono fun v hv => ?_
      obtain ⟨md, hmd⟩ := Option.isSome_iff_exists.mp hv
      exact hforeign v md hmd

end Weaving

end PointerGuard
