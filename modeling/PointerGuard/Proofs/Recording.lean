import PointerGuard.Proofs.Gathering
import PointerGuard.Proofs.Sources

/-!
# Where records come from

Every record that is added to a weaving is made for a value of its own, with all components that are
tracked. When a derived pointer is given a record, the pointer it is derived from has one already.
So the derivations of all recorded pointers end among the values that were there from the beginning.
-/

namespace PointerGuard

open PointerGuard.Function

variable {env : Env} {p : Routine → Prop} {own : ValueId → Prop} {f : Function} {s u : Weaving}
  {store : Store} {spatial temporal : Option (ValueId × ValueId)}

/-- The derivation of an operand ends: in a constant, in a value known beforehand, or in a value of
the function that is not derived. -/
inductive Function.Rests (f : Function) (known : ValueId → Prop) : Operand → Prop
  | const {c} : Rests f known (.const c)
  | known {v} : known v → Rests f known (.value v)
  | origin {v} : f.Has v → f.derivedFrom? v = none → Rests f known (.value v)
  | derived {v operand} : f.derivedFrom? v = some operand → Rests f known operand →
      Rests f known (.value v)

namespace Weaving

open Edit

variable {q : ValueId → Prop} {g : Function} {t : Weaving} {v w : ValueId}
  {md md' : PointerMetadata} {known : ValueId → Prop} {incoming : List (Operand × BlockId)}
  {b : BlockId} {i : Nat}

/-- A record was made for a value of the program: it is what the definition of the value asks for,
and if the value is derived, its derivation ends. -/
structure Recorded (env : Env) (f : Function) (known : ValueId → Prop) (s : Weaving) (v : ValueId)
    (md : PointerMetadata) : Prop where
  has : f.Has v
  program : f.OfProgram v
  produced : s.Produced env f v md
  rests : f.Rests known (.value v)

theorem Recorded.of_kept (R : s.Recorded env f known v md) (K : Kept own s u) :
    u.Recorded env f known v md :=
  ⟨R.has, R.program, K.produced R.produced, R.rests⟩

/-- Recording adds one record, and it holds what has been given. -/
theorem lookup_of_associate {store' : Store} (h : (Store.associate g v md).Runs store ⟨⟩ store')
    (hnone : store.lookup v = none) (hlookup : store'.lookup w = some md') :
    store.lookup w = some md' ∨ w = v ∧ md' = md := by
  by_cases hw : w = v
  · subst hw
    rw [Store.associate_lookup h hnone] at hlookup
    split at hlookup
    · cases hlookup
    · exact .inr ⟨rfl, (Option.some.inj hlookup).symm⟩
  · rw [Store.associate_lookup_of_ne h hw] at hlookup
    exact .inl hlookup

theorem Woven.kind?_of_param (W : s.Woven env p f) (hfirst : f.ParamsFirst) {n position : Nat}
    (hparam : f.pointerParams[n]? = some (v, position)) : s.func.kind? v = none := by
  have hmem := List.mem_of_getElem? hparam
  simp only [pointerParams, List.mem_filter] at hmem
  have hv := List.fst_mem_of_mem_zipIdx hmem.1
  rw [W.kind?_eq (hfirst.has hv).index_lt, hfirst.kind? hv]

section

variable (h : s.Produced env f v md) (hfirst : f.ParamsFirst) (W : s.Woven env p f)

include h hfirst W

/-- The record of a derived pointer is the metadata of what it is derived from. -/
theorem Produced.resolved_source {source : Operand}
    (hsource : s.func.derivedFrom? v = some source) : s.resolved? env source = some md := by
  have hkind : ∀ {kind}, s.func.kind? v = some kind →
      (∀ base indices, kind ≠ .gep base indices) →
        (∀ value, kind ≠ .cast .bitcast value) → False := by
    intro kind hkind hgep hcast
    rw [derivedFrom?, hkind] at hsource
    split at hsource
    · exact hgep _ _ (Option.some.inj ‹_›)
    · exact hcast _ (Option.some.inj ‹_›)
    · cases hsource
  have hparam : ∀ {n position : Nat}, f.pointerParams[n]? = some (v, position) → False := by
    intro n position hparam
    rw [derivedFrom?, W.kind?_of_param hfirst hparam] at hsource
    cases hsource
  cases h with
  | slot h => exact (hparam h).elim
  | byval h => exact (hparam h).elim
  | derived hsource' hresolved =>
    cases hsource.symm.trans hsource'
    exact hresolved
  | alloca h => exact (hkind h (by simp) (by simp)).elim
  | load h => exact (hkind h (by simp) (by simp)).elim
  | select h => exact (hkind h (by simp) (by simp)).elim
  | phi h => exact (hkind h (by simp) (by simp)).elim
  | call h => exact (hkind h (by simp) (by simp)).elim
  | null h hnowhere =>
    refine (hkind h ?_ ?_).elim
    · rintro _ _ rfl
      cases hnowhere
    · rintro _ rfl
      cases hnowhere

/-- The bounds of a stack allocation are its start, and what lies as many values further on as are
allocated. -/
theorem Produced.alloca_bounds {allocated : Ty} {copies : Option Operand}
    (hkind : s.func.kind? v = some (.alloca allocated copies)) {spatial : Spatial}
    (hspatial : md.spatial = some spatial) :
    ∃ past, s.func.AsVoidPtr (s.func.Trails v) (.value v) spatial.base ∧
      s.func.Made (s.func.Trails v)
        (.gep (.value v) [copies.getD (.const (.int env.width.bits 1))]) past ∧
      s.func.AsVoidPtr (s.func.Trails v) past spatial.bound := by
  cases h with
  | slot hparam => cases hkind.symm.trans (W.kind?_of_param hfirst hparam)
  | byval hparam => cases hkind.symm.trans (W.kind?_of_param hfirst hparam)
  | alloca hkind' _ hbounds => grind
  | derived hsource => simp [derivedFrom?, hkind] at hsource
  | load hkind' => cases hkind.symm.trans hkind'
  | select hkind' => cases hkind.symm.trans hkind'
  | phi hkind' => cases hkind.symm.trans hkind'
  | call hkind' => cases hkind.symm.trans hkind'
  | null hkind' hnowhere =>
    cases hkind.symm.trans hkind'
    cases hnowhere

end

section

variable (W : s.Woven env p f) (hkind : s.func.kind? v = some (.phi incoming))
  (hlocate : s.func.locate? (.after v) = some (b, i))

include W hkind hlocate

theorem made_placeholders {w : Splice}
    (hphis : (placeholderPhis env).Runs ⟨s.func, b, i⟩ (spatial, temporal) w) :
    env.Consists (placeholderRecord spatial temporal) fun _ =>
      w.func.Made (w.func.Trails v) (.phi []) := by
  obtain ⟨A, hmade, -⟩ := Splice.Adds.placeholderPhis hphis
  have hweft : ∀ kind : InstKind, kind = .phi [] → kind.Weft env.routines p := by
    rintro _ rfl
    exact .phi
  have place := place_after hkind rfl hlocate
  exact Kept.consists (fun c operand h => h.imp fun x info hfresh hvalue =>
    A.trails hweft W.func_tidy place hlocate hfresh hvalue) hmade

private theorem produced_placeholders {w : Splice}
    (hphis : (placeholderPhis env).Runs ⟨s.func, b, i⟩ (spatial, temporal) w) :
    ({ s with func := w.func, store := store } : Weaving).Produced env f v
      (placeholderRecord spatial temporal) :=
  .phi ((Step.grows_of_placeholders (p := p) hkind hlocate hphis).kind?_eq hkind)
    (Kept.consists (fun _ _ h => ⟨[], h⟩) (made_placeholders W hkind hlocate hphis))

end

/-- One step records at most one value, with what its definition asks for; and if the value is
derived then from an operand that had metadata before. -/
theorem Step.recorded (step : Step env p f f.OfProgram s t) (W : s.Woven env p f)
    (hfirst : f.ParamsFirst) (h : t.store.lookup v = some md) :
    s.store.lookup v = some md ∨ f.OfProgram v ∧ t.Produced env f v md ∧
      ∀ source, s.func.derivedFrom? v = some source → ∃ md, s.resolved? env source = some md := by
  have K := step.kept W
  cases step with
  | shadows hown hnone hphi hkind hlocate hplace hassociate =>
    rcases lookup_of_associate hassociate hnone h with h | ⟨rfl, rfl⟩
    · exact .inl h
    · refine .inr ⟨hown, produced_placeholders W hkind hlocate hplace, fun source hsource => ?_⟩
      simp [derivedFrom?, hkind] at hsource
  | associate hown hnone hproduced hassociate =>
    rcases lookup_of_associate hassociate hnone h with h | ⟨rfl, rfl⟩
    · exact .inl h
    · exact .inr ⟨hown, K.produced hproduced, fun source hsource =>
        ⟨_, hproduced.resolved_source hfirst W hsource⟩⟩
  | other _ hstore =>
    rw [hstore] at h
    exact .inl h
  | _ => exact .inl h

/-- A record that a weaving did not start with was made on the way. -/
theorem Steps.recorded (S : Steps env p f f.OfProgram s t) (W : s.Woven env p f)
    (hfirst : f.ParamsFirst) (h : t.store.lookup v = some md) :
    s.store.lookup v = some md ∨ t.Recorded env f (fun v => (s.store.lookup v).isSome) v md := by
  induction S generalizing v md with
  | refl => exact .inl h
  | @tail t u S step ih =>
    have Wt := Steps.woven S W
    rcases step.recorded Wt hfirst h with h | ⟨hprogram, hproduced, hresolved⟩
    · exact (ih h).imp_right fun R => R.of_kept (step.kept Wt)
    have hhas := hprogram.has hfirst
    refine .inr ⟨hhas, hprogram, hproduced, ?_⟩
    cases hsource : f.derivedFrom? v with
    | none => exact .origin hhas hsource
    | some source =>
      refine .derived hsource ?_
      obtain ⟨md', hmd'⟩ :=
        hresolved source (Wt.grows.derivedFrom?_eq hhas.index_lt ▸ hsource)
      cases source with
      | const c => exact .const
      | value x =>
        rcases ih (show t.store.lookup x = some md' from hmd') with hold | R
        · exact .known (by rw [hold]; rfl)
        · exact R.rests

/-! ### Complete records -/

theorem complete_of_resolved? {operand : Operand}
    (hstore : ∀ v md, operand = .value v → s.store.lookup v = some md → env.Complete md)
    (h : s.resolved? env operand = some md) : env.Complete md := by
  cases operand with
  | value v => exact hstore v md rfl h
  | const c =>
    rw [resolved?] at h
    split at h
    · grind [Option.map_eq_some_iff, Env.complete_materialize]
    · cases h

theorem Produced.complete (h : s.Produced env f v md)
    (hsource : ∀ {kind operand record}, s.func.kind? v = some kind → kind.isPhi = false →
      operand ∈ kind.operands → s.resolved? env operand = some record → env.Complete record) :
    env.Complete md := by
  have any : ∀ {made : Component → Operand → Prop}, env.Consists md made → env.Complete md :=
    fun h => Kept.consists (fun _ _ _ => trivial) h
  cases h with
  | slot _ _ hmd => exact any hmd
  | byval => exact env.complete_materialize _ _
  | alloca _ hspatial _ htemporal =>
    exact .of_halves hspatial htemporal (fun _ _ => ⟨trivial, trivial⟩) fun _ _ =>
      ⟨trivial, trivial⟩
  | load _ _ _ hmd => exact any hmd
  | derived hderived hresolved => grind [kind?_of_derivedFrom?]
  | select hkind htrue hfalse hsome =>
    -- a component is there if both arms have it
    intro c
    have htrue := hsource hkind rfl (.tail _ (.head _)) htrue c
    have hfalse := hsource hkind rfl (by simp [InstKind.operands]) hfalse c
    by_cases htracks : env.tracks c
    · rw [if_pos htracks] at htrue hfalse ⊢
      obtain ⟨a, ha, -⟩ := htrue
      obtain ⟨b, hb, -⟩ := hfalse
      have hboth := hsome c
      rw [ha, hb] at hboth
      obtain ⟨operand, hoperand⟩ := Option.isSome_iff_exists.mp hboth
      exact ⟨operand, hoperand, trivial⟩
    · grind [Option.not_isSome_iff_eq_none]
  | phi _ hmd => exact any hmd
  | call _ _ hmd => exact any hmd
  | null => exact env.complete_materialize .null (.const .nullVoidPtr)

/-- If the records of some values are complete to begin with then they stay so, and so are those
that are added, provided these values take their metadata from each other. -/
theorem Steps.complete_on (S : Steps env p f own s u)
    (hsource : ∀ {t v kind w}, Steps env p f own s t → q v → t.func.kind? v = some kind →
      kind.isPhi = false → .value w ∈ kind.operands → q w)
    (hstore : ∀ v md, q v → s.store.lookup v = some md → env.Complete md) :
    ∀ v md, q v → u.store.lookup v = some md → env.Complete md := by
  induction S with
  | refl => exact hstore
  | tail S step ih =>
    intro v md hv hlookup
    cases step with
    | shadows _ hnone _ _ _ hplace hassociate =>
      rcases lookup_of_associate hassociate hnone hlookup with hlookup | ⟨rfl, rfl⟩
      · exact ih v md hv hlookup
      · obtain ⟨-, hmd, -⟩ := Splice.Adds.placeholderPhis hplace
        exact Kept.consists (fun _ _ _ => trivial) hmd
    | associate _ hnone hproduced hassociate =>
      rcases lookup_of_associate hassociate hnone hlookup with hlookup | ⟨rfl, rfl⟩
      · exact ih v md hv hlookup
      · refine hproduced.complete fun hkind hphi hoperand hresolved => ?_
        refine complete_of_resolved? (fun w record e => ih w record ?_) hresolved
        exact hsource S hv hkind hphi (e ▸ hoperand)
    | other _ hstore' => grind
    | _ => exact ih v md hv hlookup

end Weaving

/-- All records of a store are complete. -/
def Store.Complete (env : Env) (store : Store) : Prop :=
  ∀ v md, store.lookup v = some md → env.Complete md

theorem Weaving.Steps.complete (S : Weaving.Steps env p f own s u) (hstore : s.store.Complete env) :
    u.store.Complete env := fun v md =>
  Steps.complete_on (q := Any) S (fun _ _ _ _ _ => trivial)
    (fun v md _ => hstore v md) v md trivial

end PointerGuard
