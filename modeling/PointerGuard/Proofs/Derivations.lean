import PointerGuard.Proofs.Emission
import PointerGuard.Proofs.SharedRecords

/-!
# Where derivations end

A derivation that does not end leads to a value that is derived from itself. In a valid function no
such value is listed in a reachable block. In other blocks there may be one, and the check pass
cannot get past an access through it if a check is wanted.
-/

namespace PointerGuard

open Relation PointerGuard.Function

variable {f : Function} {b : BlockId}

namespace Function

variable {g : Function} {ptr operand source source' next : Operand} {x y : ValueId}
  {t : RoutineTable} {p : Routine → Prop} {fuel : Nat}

/-! ### Single steps -/

/-- What an operand is derived from in one step. -/
def peel? (f : Function) : Operand → Option Operand
  | .value x => f.derivedFrom? x
  | .const (.gep base _ _) => some (.const base)
  | .const (.cast .bitcast value _) => some (.const value)
  | .const _ => none

/-- One operand is derived from another in one step. -/
def Peels (f : Function) (operand next : Operand) : Prop := f.peel? operand = some next

/-- In a number of steps a derivation comes to an operand that is not derived. -/
def PeelsTo (f : Function) (ptr source : Operand) : Prop :=
  ReflTransGen f.Peels ptr source ∧ f.peel? source = none

/-- A derivation leads from a value back to it. -/
def SelfDerived (f : Function) (x : ValueId) : Prop := TransGen f.Peels (.value x) (.value x)

theorem Peels.eq (h : f.Peels operand source) (h' : f.Peels operand source') : source = source' :=
  Option.some.inj (h.symm.trans h')

theorem Peels.exists_eq_value (h : f.Peels operand (.value y)) : ∃ x, operand = .value x := by
  cases operand with
  | value x => exact ⟨x, rfl⟩
  | const c =>
    cases c with
    | cast op => cases op <;> cases h
    | _ => cases h

theorem PeelsTo.peel (h : f.Peels operand next) (h' : f.PeelsTo next source) :
    f.PeelsTo operand source :=
  ⟨.head h h'.1, h'.2⟩

private theorem peelsTo_const (c : Constant) : f.PeelsTo (.const c) (.const c.source) := by
  fun_induction Constant.source c with
  | case1 base indices ty ih => exact .peel rfl ih
  | case2 value ty ih => exact .peel rfl ih
  | case3 c hgep hcast =>
    refine ⟨.refl, ?_⟩
    cases c with
    | gep base indices ty => exact (hgep base indices ty rfl).elim
    | cast op value ty =>
      cases op with
      | bitcast => exact (hcast value ty rfl).elim
      | _ => rfl
    | _ => rfl

/-- The source of a pointer is what its derivation comes to in the end. -/
theorem peelsTo_iff : f.PeelsTo ptr source ↔ f.source? ptr = some source := by
  rw [source?_eq_some_iff]
  constructor
  · rintro ⟨steps, hlast⟩
    induction steps using ReflTransGen.head_induction_on with
    | refl =>
      cases source with
      | value x => exact ⟨[], .stop hlast⟩
      | const c =>
        -- a constant that cannot be peeled is its own source
        have hsource : c.source = c := by
          cases c with
          | gep => simp [peel?] at hlast
          | cast op value ty => cases op <;> first | rfl | simp [peel?] at hlast
          | _ => rfl
        have D : f.Derives (.const c) [] (.const c.source) := .const
        exact ⟨[], by rwa [hsource] at D⟩
    | @head operand next step _ ih =>
      obtain ⟨chain, D⟩ := ih
      cases operand with
      | value x => exact ⟨_, .next step D⟩
      | const c =>
        cases c with
        | gep base indices ty =>
          cases step
          cases D
          exact ⟨[], .const⟩
        | cast op value ty =>
          cases op with
          | bitcast =>
            cases step
            cases D
            exact ⟨[], .const⟩
          | _ => cases step
        | _ => cases step
  · rintro ⟨chain, D⟩
    induction D with
    | const => exact peelsTo_const _
    | stop hnone => exact ⟨.refl, hnone⟩
    | next hderived _ ih => exact .peel hderived ih

/-! ### Derivations without an end -/

theorem PeelsTo.of_reflTransGen (h : f.PeelsTo ptr source)
    (steps : ReflTransGen f.Peels ptr operand) :
    f.PeelsTo operand source := by
  induction steps with
  | refl => exact h
  | tail _ step ih =>
    obtain ⟨steps, hlast⟩ := ih
    rcases steps.cases_head with rfl | ⟨next, step', rest⟩
    · rw [Peels, hlast] at step
      cases step
    · obtain rfl := step.eq step'
      exact ⟨rest, hlast⟩

theorem PeelsTo.not_transGen (h : f.PeelsTo operand source) :
    ¬TransGen f.Peels operand operand := by
  obtain ⟨steps, hlast⟩ := h
  induction steps using ReflTransGen.head_induction_on with
  | refl =>
    intro hcycle
    obtain ⟨next, step, -⟩ := TransGen.head'_iff.mp hcycle
    rw [Peels, hlast] at step
    cases step
  | head step _ ih => grind [TransGen.head'_iff, Peels.eq, TransGen.tail']

/-- A search that runs out of steps has passed as many derived values, each leading to the next. -/
theorem exists_chain_of_sourceWithin (h : f.sourceWithin fuel ptr = none) :
    ∃ chain : List ValueId, chain.length = fuel ∧
      (∀ x ∈ chain, (∃ next, f.derivedFrom? x = some next) ∧ ReflTransGen f.Peels ptr (.value x)) ∧
      chain.Pairwise fun x y => TransGen f.Peels (.value x) (.value y) := by
  induction fuel generalizing ptr with
  | zero => exact ⟨[], rfl, by simp, .nil⟩
  | succ fuel ih =>
    cases ptr with
    | const c => cases h
    | value y =>
      rw [sourceWithin] at h
      cases hnext : f.derivedFrom? y with
      | none => simp [hnext] at h
      | some next =>
        rw [hnext] at h
        obtain ⟨chain, hlength, hchain, hleads⟩ := ih h
        have step : f.Peels (.value y) next := hnext
        refine ⟨y :: chain, by rw [List.length_cons, hlength], fun x hx => ?_,
          .cons (fun x hx => .head' step (hchain x hx).2) hleads⟩
        rcases List.mem_cons.mp hx with rfl | hx
        · exact ⟨⟨next, hnext⟩, .refl⟩
        · exact ⟨(hchain x hx).1, .head step (hchain x hx).2⟩

/-- A derivation ends unless it leads to a value that is derived from itself. -/
theorem exists_peelsTo_iff : (∃ source, f.PeelsTo ptr source) ↔
    ¬∃ x, ReflTransGen f.Peels ptr (.value x) ∧ f.SelfDerived x := by
  constructor
  · rintro ⟨source, h⟩ ⟨x, steps, hcycle⟩
    exact (h.of_reflTransGen steps).not_transGen hcycle
  · intro hcycle
    cases hsource : f.source? ptr with
    | some source => exact ⟨source, peelsTo_iff.mpr hsource⟩
    | none =>
      obtain ⟨chain, hlength, hchain, hleads⟩ := exists_chain_of_sourceWithin hsource
      -- a value that came twice would be derived from itself, and there are not enough others
      have hnodup : chain.Nodup := by
        refine hleads.imp_of_mem fun {x y} hx _ hxy => ?_
        rintro rfl
        exact hcycle ⟨x, (hchain x hx).2, hxy⟩
      have hle := length_le_of_derived hnodup fun x hx => (hchain x hx).1
      omega

/-! ### Valid functions -/

theorem Before.irrefl (T : f.Tidy) (hx : x ∈ f.instsOf b) : ¬f.Before x x := by
  rintro (h | h | ⟨a, c, ha, hc, hdom⟩)
  · exact h.not_mem T hx
  · exact Precedes.irrefl h
  · exact hdom.1 (T.block_eq ha hc)

theorem Available.peel (V : f.Valid) (h : f.Available operand) (step : f.Peels operand next) :
    f.Available next := by
  rintro y rfl
  obtain ⟨x, rfl⟩ := step.exists_eq_value
  exact h.of_derivedFrom? V step y rfl

theorem Available.of_reflTransGen (V : f.Valid) (h : f.Available ptr)
    (steps : ReflTransGen f.Peels ptr operand) : f.Available operand := by
  induction steps with
  | refl => exact h
  | tail _ step ih => exact ih.peel V step

/-- A value that is derived from an available one is listed in a reachable block, and what it is
derived from is defined before it. -/
theorem Available.use (V : f.Valid) (h : f.Available (.value x)) (step : f.Peels (.value x) next) :
    ∃ b, x ∈ f.instsOf b ∧ f.Reachable b ∧ ∀ y, next = .value y → f.Before y x := by
  obtain ⟨kind, hkind, hphi, hoperand⟩ := kind?_of_derivedFrom? step
  rcases h x rfl with hparam | ⟨b, hx, hb⟩
  · rw [Peels, peel?, hparam.derivedFrom?] at step
    cases step
  · grind [Valid.use]

/-- Where control comes nothing is derived from itself: it would be defined before itself. -/
theorem Valid.not_selfDerived (V : f.Valid) (hx : x ∈ f.instsOf b) (hb : f.Reachable b) :
    ¬f.SelfDerived x := by
  have hstart : f.Available (.value x) := by
    rintro y ⟨⟩
    exact .inr ⟨b, hx, hb⟩
  -- every step leads to something that is defined before, so a cycle would put `x` before itself
  have hbefore : ∀ {operand}, TransGen f.Peels (.value x) operand →
      f.Available operand ∧ ∀ y, operand = .value y → f.Before y x := by
    intro operand steps
    induction steps with
    | single step => grind [Available.use, Available.peel]
    | tail _ step ih =>
      obtain ⟨havailable, hbefore⟩ := ih
      refine ⟨havailable.peel V step, ?_⟩
      rintro y rfl
      obtain ⟨z, rfl⟩ := step.exists_eq_value
      obtain ⟨a, hz, -, huse⟩ := havailable.use V step
      exact (huse y rfl).trans V.tidy (hbefore z rfl) hz
  intro hcycle
  exact Before.irrefl V.tidy hx ((hbefore hcycle).2 x rfl)

/-- So the derivation of whatever may be used there ends. -/
theorem Valid.exists_peelsTo (V : f.Valid) (h : f.Available ptr) :
    ∃ source, f.PeelsTo ptr source := by
  rw [exists_peelsTo_iff]
  rintro ⟨x, steps, hcycle⟩
  obtain ⟨next, step, -⟩ := TransGen.head'_iff.mp hcycle
  obtain ⟨b, hx, hb, -⟩ := (h.of_reflTransGen V steps).use V step
  exact V.not_selfDerived hx hb hcycle

/-! ### Searches along derivations -/

/-- An extent is only found at the end of a derivation. -/
theorem exists_source_of_extentWithin {i : Interface} {offset : Int} {extent : Extent}
    (h : f.extentWithin i fuel offset ptr = some extent) :
    ∃ source, f.sourceWithin fuel ptr = some source := by
  induction fuel generalizing ptr offset with
  | zero =>
    cases ptr with
    | const c => exact ⟨_, rfl⟩
    | value x => cases h
  | succ fuel ih =>
    cases ptr with
    | const c => exact ⟨_, rfl⟩
    | value x =>
      -- the search for an extent goes on where that for a source does, or gives up
      rw [extentWithin] at h
      rw [sourceWithin, derivedFrom?]
      split at h
      · grind [Option.bind_eq_bind, Option.bind_eq_some_iff]
      · rename_i hkind
        simpa only [hkind] using ih h
      · rename_i hkind
        exact ⟨.value x, by rw [hkind]⟩
      · cases h

/-- If a derivation ends in what a function grows to, it ends in the function. -/
theorem Grows.exists_source (G : f.Grows t p g) (h : g.source? ptr = some source) :
    ∃ source', f.source? ptr = some source' := by
  obtain ⟨chain, D⟩ := Function.source?_eq_some_iff.mp h
  suffices hderives : ∃ chain source', f.Derives ptr chain source' by
    obtain ⟨chain, source', D⟩ := hderives
    exact ⟨source', Function.source?_eq_some_iff.mpr ⟨chain, D⟩⟩
  have hsame : ∀ {x operand}, f.derivedFrom? x = some operand →
      g.derivedFrom? x = some operand := by
    intro x operand hx
    obtain ⟨kind, hkind, -⟩ := kind?_of_derivedFrom? hx
    rw [G.derivedFrom?_eq (index_lt_of_kind? hkind).2, hx]
  clear h
  induction D with
  | const => exact ⟨_, _, .const⟩
  | @stop x hnone =>
    refine ⟨[], .value x, .stop (Option.eq_none_iff_forall_ne_some.mpr fun operand hx => ?_)⟩
    rw [hsame hx] at hnone
    cases hnone
  | @next x operand _ _ hsome _ ih =>
    cases hx : f.derivedFrom? x with
    | none => exact ⟨[], .value x, .stop hx⟩  -- the value is new in `g`
    | some operand' =>
      cases hsome.symm.trans (hsame hx)
      obtain ⟨chain, source', D⟩ := ih
      exact ⟨x :: chain, source', .next hx D⟩

end Function

namespace Weaving

open Edit

variable {env : Env} {s s' : Weaving} {id : ValueId} {m : MemoryAccess}

/-- A visit to an access of which a check is wanted follows the derivation of its pointer. -/
theorem exists_source_of_checkInst (hm : s.func.access? id = some m) (hnull : m.ptr.isNull = false)
    (hwants : m.kind.wantsSpatial env.config ∨ m.kind.wantsTemporal env.config)
    (h : (checkInst env id).Runs s ⟨⟩ s') : ∃ source, s.func.source? m.ptr = some source := by
  rcases checkInst_cases h with ⟨m', hm', C⟩ | ⟨hnone, -⟩
  swap
  · rw [hm] at hnone
    cases hnone
  cases hm.symm.trans hm'
  cases C with
  | inserted _ _ hsource => exact ⟨_, hsource⟩
  | nothing hbounds hkey =>
    -- nothing was inserted, so what is wanted was found not to be needed
    rcases hwants with hwants | hwants
    · simp only [boundsVerdict, hnull, hwants, Bool.not_true, Bool.or_self, Bool.false_eq_true,
        if_false] at hbounds
      split at hbounds
      · rename_i hproven
        rw [Bool.and_eq_true, provenInBounds] at hproven
        split at hproven
        · rename_i extent hextent
          exact exists_source_of_extentWithin hextent
        · cases hproven.2
      · cases hbounds
    · simp only [keyVerdict, hnull, hwants] at hkey
      cases hsource : s.func.source? m.ptr with
      | some source => exact ⟨source, rfl⟩
      | none =>
        rw [hsource] at hkey
        cases hkey

/-- The check pass comes to its end only if the derivations of all pointers end that are accessed in
any block of the function, as far as checks are wanted. -/
theorem exists_peelsTo_of_insertChecks {changed : Bool} (W : s.Woven env Any f)
    (h : (insertChecks env).Runs s changed s') (hid : id ∈ f.programInsts b)
    (hm : f.access? id = some m) (hnull : m.ptr.isNull = false)
    (hwants : m.kind.wantsSpatial env.config ∨ m.kind.wantsTemporal env.config) :
    ∃ source, f.PeelsTo m.ptr source := by
  obtain ⟨order, horder, hvisits⟩ := visits_of_insertChecks W (fun _ _ => trivial) h
  -- the pass comes to all blocks, reachable or not
  have hb : b ∈ order := by
    refine (checkOrder?_spec horder).2 b ?_
    rw [W.grows.size_blocks]
    exact index_lt_of_mem_instsOf (List.mem_of_mem_filter hid)
  obtain ⟨front, rest, hsplit⟩ := List.append_of_mem (List.mem_flatMap.mpr ⟨b, hb, hid⟩)
  rw [hsplit] at hvisits
  obtain ⟨t, hfront, hrest⟩ := runs_forM_append.mp hvisits
  obtain ⟨u, hvisit, -⟩ := runs_forM_cons.mp hrest
  have hids : ∀ x ∈ front, x.index < f.values.size := by
    intro x hx
    obtain ⟨a, -, hx⟩ := List.mem_flatMap.mp (hsplit ▸ List.mem_append_left _ hx)
    exact index_lt_of_mem_programInsts W.tidy hx
  have W' : Woven env Any f { s with covered := [] } := ⟨W.tidy, W.grows⟩
  have Wt := (visits_steps W' (fun _ _ => trivial) hids hfront).1.woven W'
  obtain ⟨ty, hm'⟩ := Wt.grows.access?_some hm
  obtain ⟨source, hsource⟩ := exists_source_of_checkInst hm' hnull hwants hvisit
  obtain ⟨source', hsource'⟩ := Wt.grows.exists_source hsource
  exact ⟨source', peelsTo_iff.mpr hsource'⟩

end Weaving

/-- In a valid function the derivation of a pointer that is accessed where control comes ends,
also in all that the function grows to, and both searches along it come to their ends. A
derivation that does not end leads to a value that is derived from itself, and such values are
listed in unreachable blocks only. The check pass never gets past an access through such a
pointer if a check is wanted. -/
theorem Function.derivations_end {f : Function} (hverify : f.verify = .ok ()) :
    (∀ b id m, f.Reachable b → id ∈ f.instsOf b → f.access? id = some m →
      ∃ source, ∀ t p g, f.Grows t p g → g.PeelsTo m.ptr source ∧ g.source? m.ptr = some source ∧
        ∀ i offset fuel, g.values.size < fuel → g.extentWithin i fuel offset m.ptr =
          g.extentWithin i (g.values.size + 1) offset m.ptr) ∧
    (∀ ptr, (¬∃ source, f.PeelsTo ptr source) ↔
      ∃ x, ReflTransGen f.Peels ptr (.value x) ∧ f.SelfDerived x) ∧
    (∀ b x, x ∈ f.instsOf b → f.SelfDerived x → ¬f.Reachable b) ∧
    ∀ (env : Env) (s s' : Weaving) (changed : Bool), s.Woven env (fun _ => True) f →
      (Weaving.insertChecks env).Runs s changed s' → ∀ b id m, id ∈ f.programInsts b →
      f.access? id = some m → m.ptr.isNull = false →
      m.kind.wantsSpatial env.config ∨ m.kind.wantsTemporal env.config →
        ∃ source, f.PeelsTo m.ptr source := by
  have V := valid_of_verify hverify
  refine ⟨fun b id m hb hid hm => ?_, fun ptr => by rw [exists_peelsTo_iff, not_not],
    fun b x hx hcycle hb => V.not_selfDerived hx hb hcycle,
    fun env s s' changed W h b id m hid hm hnull hwants =>
      Weaving.exists_peelsTo_of_insertChecks W h hid hm hnull hwants⟩
  obtain ⟨kind, hkind, hphi, -, hoperand⟩ := mem_operands_of_access? hm
  have havailable : f.Available m.ptr := by
    intro x hx
    exact (V.use hb hid hkind hphi (hx ▸ hoperand)).2 x rfl
  obtain ⟨source, hends⟩ := V.exists_peelsTo havailable
  refine ⟨source, fun t p g G => ?_⟩
  have hsource := (G.source?_eq_some_iff V havailable).mpr (peelsTo_iff.mp hends)
  obtain ⟨chain, D⟩ := Function.source?_eq_some_iff.mp hsource
  refine ⟨peelsTo_iff.mpr hsource, hsource, fun i offset fuel hfuel => ?_⟩
  have hlength := D.length_le
  exact D.extentWithin_eq (by omega) (by omega)

/-- Cast a pointer to itself where control never comes, and read through it. -/
def selfCast : Function := .ofBlocks ⟨0⟩ "f" ⟨.void, [], false⟩ [
  [(.void, .ret none)],
  [(.ptr (.int 32), .cast .bitcast (val 1)), (.int 32, .load (val 1)), (.void, .ret none)]]

/-- The function is valid, for the cast is in a block that cannot be reached. Metadata is gathered
for it, but the check pass does not come to its end. -/
theorem derivations_end_selfCast :
    selfCast.verify = .ok () ∧ selfCast.SelfDerived ⟨⟨0⟩, 1⟩ ∧ ¬selfCast.Reachable ⟨1⟩ ∧
      ((Weaving.resolveMetadata (gatherEnv selfCast)).apply
        (gatherCreated selfCast)).1.isOk ∧
      ∀ changed s', ¬(Weaving.insertChecks (gatherEnv selfCast)).Runs
        (gatherResolved selfCast) changed s' := by
  have hverify : selfCast.verify = .ok () := by decide +kernel
  have hcycle : selfCast.SelfDerived ⟨⟨0⟩, 1⟩ := .single rfl
  have hok : ((Weaving.resolveMetadata (gatherEnv selfCast)).apply
      (gatherCreated selfCast)).1.isOk := by decide +kernel
  obtain ⟨-, hends, hunreachable, hchecks⟩ := Function.derivations_end hverify
  refine ⟨hverify, hcycle, hunreachable ⟨1⟩ _ (by decide +kernel) hcycle, hok,
    fun changed s' h => ?_⟩
  have hf : selfCast.WellFormed := by decide +kernel
  have G := Weaving.gathered (p := Any) hf.tidy hf.paramsFirst (fun _ _ => rfl)
    (fun _ _ => trivial) (runs_gatherCreated (by decide +kernel))
    (runs_gatherResolved hok)
  have W := Weaving.Steps.woven G.steps ⟨hf.tidy, .refl⟩
  have hread := hchecks _ _ s' changed W h ⟨1⟩ ⟨⟨0⟩, 2⟩ ⟨.load, .value ⟨⟨0⟩, 1⟩, .int 32⟩
    (by decide +kernel) rfl rfl (by decide +kernel)
  exact (hends _).mpr ⟨_, .refl, hcycle⟩ hread

end PointerGuard
