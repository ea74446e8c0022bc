import PointerGuard.Proofs.Propagating

/-!
# Placeholders

A pointer phi is recorded with phis that have no edges yet. Each placeholder that waits stands for
the record of its phi, no shadow belongs to two of them, and every phi with a record has one.
-/

namespace PointerGuard

open PointerGuard.Function

variable {kind : InstKind} {f : Function} {s s' : Weaving} {ph : Placeholder} {env : Env}
  {p : Routine → Prop} {own : ValueId → Prop}

theorem InstKind.exists_of_isPhi (h : kind.isPhi) :
    ∃ incoming, kind = .phi incoming := by
  cases kind with
  | phi incoming => exact ⟨incoming, rfl⟩
  | _ => cases h

/-- A placeholder stands for the record of its phi: its shadows are the components, and they have no
edges yet. -/
structure Placeholder.Stands (f : Function) (s : Weaving) (ph : Placeholder) : Prop where
  phi : ∃ incoming, s.func.kind? ph.phi = some (.phi incoming)
  phi_lt : ph.phi.index < f.values.size
  pointer : f.isPointerValue ph.phi
  record : ∀ c x, (c, x) ∈ ph.shadows ↔
    ∃ md, s.store.lookup ph.phi = some md ∧ md.get? c = some (.value x)
  shadow : ∀ c x, (c, x) ∈ ph.shadows →
    f.values.size ≤ x.index ∧ s.func.kind? x = some (.phi [])

theorem Placeholder.Stands.size_le (h : ph.Stands f s) {x : ValueId}
    (hx : x ∈ ph.shadows.map Prod.snd) :
    f.values.size ≤ x.index := by
  obtain ⟨⟨c, y⟩, hy, rfl⟩ := List.mem_map.mp hx
  exact (h.shadow c y hy).1

/-- The shadows of placeholders. -/
def shadowIds (placeholders : List Placeholder) : List ValueId :=
  placeholders.flatMap fun ph => ph.shadows.map Prod.snd

namespace Weaving

theorem Woven.kind?_eq (W : s.Woven env p f) {v : ValueId} (hv : v.index < f.values.size) :
    s.func.kind? v = f.kind? v :=
  kind?_congr (W.grows.value?_eq hv)

end Weaving

/-- A placeholder goes on standing for its phi when records are given to other values. -/
theorem Placeholder.Stands.of_kept (h : ph.Stands f s) (K : Weaving.Kept own s s')
    (hphi : ¬own ph.phi)
    (hshadow : ∀ x, f.values.size ≤ x.index → x ∈ ph.shadows.map Prod.snd → ¬own x) :
    ph.Stands f s' := by
  obtain ⟨incoming, hkind⟩ := h.phi
  refine ⟨⟨incoming, K.kind? hkind fun _ => hphi⟩, h.phi_lt, h.pointer, fun c x => ?_,
    fun c x hx => ?_⟩
  · rw [h.record, K.lookup hphi]
  · grind [Placeholder.Stands.shadow, Weaving.Kept.kind?]

namespace Weaving

open Edit

/-- Edges are owed to exactly the phis that are recorded. -/
structure Pending (f : Function) (s : Weaving) : Prop where
  stands : ∀ ph ∈ s.placeholders, ph.Stands f s
  nodup : (shadowIds s.placeholders).Nodup
  complete : ∀ {v incoming md}, v.index < f.values.size →
    s.func.kind? v = some (.phi incoming) → s.store.lookup v = some md →
    ∃ ph ∈ s.placeholders, ph.phi = v

variable {id : ValueId} {incoming : List (Operand × BlockId)} {done : Bool}

theorem Pending.of_kept (P : s.Pending f) (K : Kept own s s') (W : s.Woven env p f)
    (W' : s'.Woven env p f) (hplaceholders : s'.placeholders = s.placeholders)
    (hown : ∀ v, own v → v.index < f.values.size ∧ ∀ edges, f.kind? v ≠ some (.phi edges)) :
    s'.Pending f := by
  constructor
  all_goals rw [hplaceholders]
  · intro ph hph
    have hstands := P.stands ph hph
    obtain ⟨incoming, hkind⟩ := hstands.phi
    refine hstands.of_kept K (fun hphi => ?_) fun x hle _ hx => ?_
    · exact (hown _ hphi).2 incoming (by rw [← W.kind?_eq hstands.phi_lt, hkind])
    · exact absurd (hown x hx).1 (Nat.not_lt.mpr hle)
  · exact P.nodup
  · intro v incoming md hv hkind hlookup
    -- a phi of the program is not among those that may have been given a record
    rw [W'.kind?_eq hv] at hkind
    have hv' : ¬own v := fun h => (hown v h).2 incoming hkind
    rw [K.lookup hv'] at hlookup
    exact P.complete hv (by rw [W.kind?_eq hv, hkind]) hlookup

/-! ### A phi -/

theorem propagatePhi_runs (h : (propagatePhi env id).Runs s ⟨⟩ s') :
    ∃ b i spatial temporal v store, s.func.locate? (.after id) = some (b, i) ∧
      (placeholderPhis env).Runs ⟨s.func, b, i⟩ (spatial, temporal) v ∧
      (Store.associate v.func id (placeholderRecord spatial temporal)).Runs s.store ⟨⟩ store ∧
      s'.func = v.func ∧ s'.store = store ∧ s'.globalLock = s.globalLock ∧
      s'.frameKey = s.frameKey ∧ s'.deferred = s.deferred ∧
      s'.report.tally = s.report.tally ∧
      s'.placeholders = s.placeholders ++ [⟨id, placeholderShadows spatial temporal⟩] := by
  simp only [propagatePhi, runs_bind, runs_splice, runs_associate, runs_modify, runs_count] at h
  obtain ⟨⟨spatial, temporal⟩, _, ⟨b, i, v, hlocate, hphis, rfl⟩, _, _, ⟨store, hstore, rfl⟩, _, _,
    rfl, rfl⟩ := h
  exact ⟨b, i, spatial, temporal, v, store, hlocate, hphis, hstore, rfl, rfl, rfl, rfl,
    rfl, rfl, rfl⟩

theorem propagatePhi_pending (W : s.Woven env p f) (hid : id.index < f.values.size)
    (hnone : s.store.lookup id = none) (hkind : s.func.kind? id = some (.phi incoming))
    (hpointer : s.func.isPointerValue id) (P : s.Pending f)
    (hfresh : ∀ ph ∈ s.placeholders, ph.phi ≠ id) (h : (propagatePhi env id).Runs s ⟨⟩ s') :
    Steps env p f (· = id) s s' ∧ s'.Pending f ∧ s'.deferred = s.deferred ∧
      ∀ ph ∈ s'.placeholders, ph ∈ s.placeholders ∨ ph.phi = id := by
  obtain ⟨b, i, spatial, temporal, v, store, hlocate, hphis, hassociate, hfunc, hstore, hlock,
    hframe, hdeferred, htally, hplaceholders⟩ := propagatePhi_runs h
  have step : Step env p f (· = id) s { s with func := v.func, store := store } :=
    .shadows rfl hnone hid hkind hlocate hphis hassociate
  have S : Steps env p f (· = id) s s' :=
    Relation.ReflTransGen.tail (.single step) (.other hfunc hstore hlock hframe (.inr htally))
  have K := S.kept W
  obtain ⟨A, hmade, hnodup, -⟩ := Splice.Adds.placeholderPhis hphis
  have hrecord := Store.associate_lookup hassociate hnone
  -- the new shadows are values that were not there before
  have hnew : ∀ c x, (c, x) ∈ placeholderShadows spatial temporal →
      s.func.values.size ≤ x.index ∧ s'.func.kind? x = some (.phi []) := by
    intro c x hx
    have hget := mem_placeholderShadows.mp hx
    have hc := hmade c
    split at hc
    · obtain ⟨operand, hoperand, y, rfl, hy, hy'⟩ := hc
      obtain rfl : y = x := by simpa using hoperand.symm.trans hget
      exact ⟨hy, by rw [hfunc, hy']⟩
    · rw [hc] at hget
      cases hget
  have hstands : Placeholder.Stands f s' ⟨id, placeholderShadows spatial temporal⟩ := by
    rw [isPointerValue_congr (W.grows.value?_eq hid)] at hpointer
    refine ⟨K.phi hkind, hid, hpointer, fun c x => ?_, fun c x hx => ?_⟩
    · grind [mem_placeholderShadows, PointerMetadata.get?_of_isEmpty]
    · obtain ⟨hle, hx⟩ := hnew c x hx
      exact ⟨W.grows.size_le.trans hle, hx⟩
  refine ⟨S, ⟨?_, ?_, ?_⟩, hdeferred, ?_⟩
  all_goals rw [hplaceholders]
  · intro ph hph
    rcases List.mem_append.mp hph with hph | hph
    · refine (P.stands ph hph).of_kept K (hfresh ph hph) fun x hle _ hx => ?_
      rw [hx] at hle
      exact absurd hid (Nat.not_lt.mpr hle)
    · exact List.mem_singleton.mp hph ▸ hstands
  · rw [shadowIds, List.flatMap_append, List.flatMap_singleton]
    refine List.nodup_append.mpr ⟨P.nodup, hnodup, ?_⟩
    rintro x hx _ hy rfl
    obtain ⟨ph, hph, hx⟩ := List.mem_flatMap.mp hx
    obtain ⟨⟨c, x⟩, hold, rfl⟩ := List.mem_map.mp hx
    obtain ⟨⟨c', y⟩, hyoung, hxy⟩ := List.mem_map.mp hy
    obtain rfl : y = x := hxy
    have hlt := (index_lt_of_kind? ((P.stands ph hph).shadow c y hold).2).2
    exact absurd hlt (Nat.not_lt.mpr (hnew c' y hyoung).1)
  · intro w incoming md hw hkind hlookup
    by_cases hwid : w = id
    · exact ⟨_, List.mem_append_right _ (List.mem_singleton_self _), hwid.symm⟩
    · rw [K.lookup hwid] at hlookup
      rw [(S.woven W).kind?_eq hw, ← W.kind?_eq hw] at hkind
      obtain ⟨ph, hph, hphi⟩ := P.complete hw hkind hlookup
      exact ⟨ph, List.mem_append_left _ hph, hphi⟩
  · grind

/-! ### Any instruction -/

/-- Propagation for a phi does not have to wait, and does nothing if the phi is no pointer. -/
theorem runs_propagate_phi (hkind : s.func.kind? id = some (.phi incoming))
    (h : (propagate env id).Runs s done s') :
    done = true ∧ (s.func.isPointerValue id ∧ (propagatePhi env id).Runs s ⟨⟩ s' ∨
      s.func.isPointerValue id = false ∧ s = s') := by
  rw [propagate, runs_get_bind] at h
  obtain ⟨⟨_, block, inserted⟩, ty, rfl, hvalue⟩ := value?_of_kind? hkind
  have hpointer : s.func.isPointerValue id = ty.isPointer := by
    rw [isPointerValue, valueType?, hvalue, Option.map_some]
  simp only [hvalue, runs_ite, runs_bind] at h
  rcases h with ⟨hty, _, _, hphi, rfl, rfl⟩ | ⟨hty, rfl, rfl⟩
  · exact ⟨rfl, .inl ⟨hpointer ▸ hty, hphi⟩⟩
  · grind

/-- Propagation gives a record to its instruction only, and to none if it has to wait. -/
theorem propagate_pending (W : s.Woven env p f) (hp : Lenient p) (hid : id.index < f.values.size)
    (hnone : s.store.lookup id = none) (hkind : f.kind? id = some kind) (P : s.Pending f)
    (hfresh : ∀ ph ∈ s.placeholders, ph.phi ≠ id) (h : (propagate env id).Runs s done s') :
    Steps env p f (fun v => v = id ∧ done) s s' ∧ s'.Pending f ∧ s'.deferred = s.deferred ∧
      ∀ ph ∈ s'.placeholders, ph ∈ s.placeholders ∨ ph.phi = id ∧ done := by
  have hkind' : s.func.kind? id = some kind := by rw [W.kind?_eq hid, hkind]
  cases hphi : kind.isPhi with
  | false =>
    obtain ⟨S, hqueues⟩ := propagate_steps W hid hnone (fun r h _ => hp r h) hkind' hphi h
    have hplaceholders : s'.placeholders = s.placeholders := congrArg Prod.fst hqueues
    refine ⟨S, P.of_kept (S.kept W) W (S.woven W) hplaceholders ?_,
      congrArg (fun q => q.2.1) hqueues, fun ph hph => .inl (hplaceholders ▸ hph)⟩
    rintro v ⟨rfl, -⟩
    refine ⟨hid, fun edges hedges => ?_⟩
    cases hkind.symm.trans hedges
    cases hphi
  | true =>
    obtain ⟨incoming, rfl⟩ := InstKind.exists_of_isPhi hphi
    obtain ⟨rfl, ⟨hpointer, hphi⟩ | ⟨-, rfl⟩⟩ := runs_propagate_phi hkind' h
    · grind [propagatePhi_pending, Steps.mono]
    · exact ⟨.refl, P, rfl, fun ph hph => .inl hph⟩

end Weaving

end PointerGuard
