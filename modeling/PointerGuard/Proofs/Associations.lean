import PointerGuard.Proofs.Failures

/-!
# What an association leaves

A record is associated half by half, and each half is checked just before it is set. If a component
is of a wrong type, the error is about the first such component, and nothing has changed unless base
and bound had been set before the key or the lock was refused.
-/

namespace PointerGuard

open Edit Outcome PointerMetadata

/-- The place of a component among the checks. -/
def Component.position : Component → Nat
  | .base => 0
  | .bound => 1
  | .key => 2
  | .lock => 3

private theorem Outcome.bind_eq_error {ε α β : Type} {x : Except ε α} {f : α → Except ε β} {e : ε} :
    (x >>= f) = .error e ↔ x = .error e ∨ ∃ a, x = .ok a ∧ f a = .error e := by
  cases x <;> simp [bind, Except.bind]

namespace Store

variable {s s' u : Store} {f : Function} {id v : ValueId} {md : PointerMetadata} {c : Component}
  {operand : Operand} {e : Error}

/-- A component has the type it should have, if the record has it at all. -/
def Takes (s : Store) (f : Function) (md : PointerMetadata) (c : Component) : Prop :=
  ∀ operand, md.get? c = some operand → f.operandType operand = .ok (s.componentType c)

/-- A component is the first that is refused: its operand has no type, or not the one it should
have. -/
structure Refuses (s : Store) (f : Function) (id : ValueId) (md : PointerMetadata) (c : Component)
    (e : Error) : Prop where
  refused : ∃ operand, md.get? c = some operand ∧
    (f.operandType operand = .error e ∨
      ∃ found, f.operandType operand = .ok found ∧ found ≠ s.componentType c ∧
        e = .metadataType id c (s.componentType c) found)
  first : ∀ c', c'.position < c.position → s.Takes f md c'

/-- A record has been set over what a value had before, and nothing else has changed. -/
structure Records (s : Store) (id : ValueId) (md : PointerMetadata) (s' : Store) : Prop where
  width : s'.width = s.width
  lookup : s'.lookup id =
    if md.isEmpty then s.lookup id else some (md.overlay ((s.lookup id).getD {}))
  others : ∀ v, v ≠ id → s'.lookup v = s.lookup v

/-! ### Checks -/

private theorem checkComponent_eq_error {ty : Ty} :
    checkComponent f id c operand ty = .error e ↔
      f.operandType operand = .error e ∨
        ∃ found, f.operandType operand = .ok found ∧ found ≠ ty ∧
          e = .metadataType id c ty found := by
  rw [checkComponent, bind_eq_error]
  refine or_congr_right (exists_congr fun found => and_congr_right fun _ => ?_)
  by_cases h : found = ty
  · simp [h, pure, Except.pure]
  · simp only [h, ne_eq, not_false_eq_true, true_and]
    exact ⟨fun he => (Except.error.inj he).symm, fun he => congrArg Except.error he.symm⟩

/-- A half that is refused changes nothing, and one of its components is the first that is refused
if those before the half are taken. -/
theorem refuses_of_fails {half : Half} (h : (setHalf f id half).Fails u e s')
    (hhalf : half ∈ md.halves) (hwidth : u.width = s.width)
    (hbefore : ∀ c, c.position < half.first.1.position → s.Takes f md c) :
    s' = u ∧ ∃ c, (c = half.first.1 ∨ c = half.second.1) ∧ s.Refuses f id md c e := by
  obtain ⟨hfirst, hsecond⟩ := get?_of_mem_halves hhalf
  rw [setHalf, fails_get_bind, componentType_eq hwidth] at h
  simp only [fails_bind, fails_ofExcept, runs_ofExcept, not_fails_set, and_false, exists_false,
    or_false] at h
  rcases h with ⟨herror, rfl⟩ | ⟨_, _, ⟨hok, rfl⟩, herror, rfl⟩
  · exact ⟨rfl, _, .inl rfl, ⟨_, hfirst, checkComponent_eq_error.mp herror⟩, hbefore⟩
  · refine ⟨rfl, _, .inr rfl, ⟨_, hsecond, checkComponent_eq_error.mp herror⟩, fun c hc => ?_⟩
    -- the components of a half come one after the other
    have hlast : c.position < half.first.1.position ∨ c = half.first.1 := by
      simp only [halves, List.mem_append, Option.mem_toList,
        Option.map_eq_some_iff] at hhalf
      rcases hhalf with ⟨_, -, rfl⟩ | ⟨_, -, rfl⟩ <;> cases c <;> simp_all [Component.position]
    rcases hlast with hc | rfl
    · exact hbefore c hc
    · intro operand hget
      cases hfirst.symm.trans hget
      exact checkComponent_eq_ok.mp hok

theorem associate_records (h : (associate f id md).Runs s ⟨⟩ s') : Records s id md s' :=
  ⟨associate_width h, associate_lookup_over h, fun _ => associate_lookup_of_ne h⟩

/-- A failing association has set the first half, or has changed nothing. -/
theorem associate_refuses (h : (associate f id md).Fails s e s') :
    ∃ c, s.Refuses f id md c e ∧
      ((c = .base ∨ c = .bound ∨ md.spatial = none) ∧ s' = s ∨
        (c = .key ∨ c = .lock) ∧ md.spatial.isSome ∧
          (associate f id { md with temporal := none }).Runs s ⟨⟩ s') := by
  rw [associate_eq] at h
  obtain ⟨spatial, temporal⟩ := md
  have alone : ∀ {half u}, ([half].forM (setHalf f id)).Fails u e s' →
      (setHalf f id half).Fails u e s' := by simp
  have before : ∀ c : Component, c.position < 2 → c = .base ∨ c = .bound := by
    intro c hc
    cases c <;> simp_all [Component.position]
  cases spatial with
  | none =>
    cases temporal with
    | none => exact absurd h not_fails_pure
    | some keys =>
      obtain ⟨rfl, c, -, R⟩ : s' = s ∧ ∃ c, _ ∧ s.Refuses f id ⟨none, some keys⟩ c e := by
        refine refuses_of_fails (alone h) (List.mem_singleton_self _) rfl
          fun c hc operand hget => ?_
        rcases before c hc with rfl | rfl <;> cases hget
      exact ⟨c, R, .inl ⟨.inr (.inr rfl), rfl⟩⟩
  | some bounds =>
    rw [halves, Option.map_some, Option.toList_some, List.singleton_append,
      List.forM_eq_forM, List.forM_cons, fails_bind] at h
    rcases h with h | ⟨_, u, hset, h⟩
    · obtain ⟨rfl, c, hc, R⟩ : s' = s ∧ ∃ c, _ ∧ s.Refuses f id ⟨some bounds, temporal⟩ c e :=
        refuses_of_fails h (.head _) rfl fun c hc => absurd hc (Nat.not_lt_zero _)
      exact ⟨c, R, .inl ⟨hc.imp_right .inl, rfl⟩⟩
    · have hrun : (associate f id ⟨some bounds, none⟩).Runs s ⟨⟩ u := by
        rw [associate_eq]
        exact runs_forM_cons.mpr ⟨u, hset, runs_forM_nil.mpr rfl⟩
      cases temporal with
      | none => exact absurd h not_fails_pure
      | some keys =>
        obtain ⟨rfl, c, hc, R⟩ : s' = u ∧ ∃ c, _ ∧ s.Refuses f id ⟨some bounds, some keys⟩ c e := by
          refine refuses_of_fails (alone h) (.tail _ (List.mem_singleton_self _))
            (associate_width hrun) fun c hc operand hget => ?_
          rcases before c hc with rfl | rfl <;> exact associate_type hrun hget
        exact ⟨c, R, .inr ⟨hc, rfl, hrun⟩⟩

/-- Every association ends in one of three ways: it succeeds and the record is set, it fails and
changes nothing, or it fails at the second half when the first has been set. -/
theorem associate_outcomes (s : Store) (f : Function) (id : ValueId) (md : PointerMetadata) :
    ((∀ c, s.Takes f md c) ∧ ∃ s', (associate f id md).Runs s ⟨⟩ s' ∧ Records s id md s') ∨
      ∃ c e s', s.Refuses f id md c e ∧ (associate f id md).Fails s e s' ∧
        ((c = .base ∨ c = .bound ∨ md.spatial = none) ∧ s' = s ∨
          (c = .key ∨ c = .lock) ∧ md.spatial.isSome ∧
            (associate f id { md with temporal := none }).Runs s ⟨⟩ s' ∧
            Records s id { md with temporal := none } s') := by
  cases h : (associate f id md).apply s with
  | mk outcome s' =>
    cases outcome with
    | ok _ => exact .inl ⟨fun c operand => associate_type h, s', h, associate_records h⟩
    | error e =>
      obtain ⟨c, R, hcases⟩ := associate_refuses h
      refine .inr ⟨c, e, s', R, h, hcases.imp_right fun ⟨hc, hspatial, hrun⟩ => ?_⟩
      exact ⟨hc, hspatial, hrun, associate_records hrun⟩

/-- A function that takes an untyped pointer. -/
def taker : Function := .declaration ⟨0⟩ "f" ⟨.void, [.voidPtr], false⟩

/-- A record whose key is narrower than a pointer. -/
def narrowKeyed : PointerMetadata where
  spatial := some ⟨.value ⟨⟨0⟩, 0⟩, .value ⟨⟨0⟩, 0⟩⟩
  temporal := some ⟨.const (.int 32 1), .value ⟨⟨0⟩, 0⟩⟩

/-- The key is refused, and a value that had no metadata now has a base and a bound. -/
theorem associate_outcomes_narrowKeyed :
    ∃ s', (associate taker ⟨⟨0⟩, 0⟩ narrowKeyed).Fails { width := .bits64 }
        (.metadataType ⟨⟨0⟩, 0⟩ .key (.int 64) (.int 32)) s' ∧
      Store.has { width := .bits64 } ⟨⟨0⟩, 0⟩ = false ∧
      s'.lookup ⟨⟨0⟩, 0⟩ = some { narrowKeyed with temporal := none } := by
  have hfails : (associate taker ⟨⟨0⟩, 0⟩ narrowKeyed).Fails { width := .bits64 }
      (.metadataType ⟨⟨0⟩, 0⟩ .key (.int 64) (.int 32))
      ⟨.bits64, [(⟨⟨0⟩, 0⟩, { narrowKeyed with temporal := none })]⟩ := rfl
  rcases associate_outcomes { width := .bits64 } taker ⟨⟨0⟩, 0⟩ narrowKeyed with
    ⟨-, s', hrun, -⟩ | ⟨c, e, s', -, hfails', ⟨-, rfl⟩ | ⟨-, -, -, R⟩⟩
  · exact nomatch hfails.symm.trans hrun
  · exact nomatch hfails.symm.trans hfails'
  · obtain rfl : s' = _ := congrArg Prod.snd (hfails'.symm.trans hfails)
    exact ⟨_, hfails, rfl, R.lookup⟩

end Store

end PointerGuard
