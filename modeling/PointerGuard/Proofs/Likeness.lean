import PointerGuard.Proofs.Records
import PointerGuard.Proofs.Validity
import PointerGuard.Propagation.Resolve

/-!
# Weavings that are alike

Two states may differ in ways that an edit never looks at. Then its outcomes are the same in both,
and the states it leaves differ no more than those it found. Two weavings of one function are
*alike* if they differ only in what is recorded for values of other functions and, as long as no
checks are inserted, in the marks left over from the function before.
-/

namespace PointerGuard

open PointerGuard.Function

variable {id : ValueId} {own : ValueId → Prop}

namespace Edit

variable {σ τ α β : Type} {s t s' : σ} {R R' : σ → σ → Prop}

/-- An edit in one state and an edit in another have the same outcome and leave related states. -/
def Agree (x y : Edit σ α) (s t : σ) (R : σ → σ → Prop) : Prop :=
  (x.apply s).1 = (y.apply t).1 ∧ R (x.apply s).2 (y.apply t).2

namespace Agree

theorem runs {x y : Edit σ α} {a : α} (h : x.Agree y s t R) (hrun : x.Runs s a s') :
    ∃ t', y.Runs t a t' ∧ R s' t' := by
  obtain ⟨houtcome, hrel⟩ := h
  rw [hrun] at houtcome hrel
  exact ⟨(y.apply t).2, Prod.ext houtcome.symm rfl, hrel⟩

theorem mono {x y : Edit σ α} (hR : ∀ s t, R s t → R' s t) (h : x.Agree y s t R) :
    x.Agree y s t R' :=
  ⟨h.1, hR _ _ h.2⟩

/-- What comes second may rely on how what came first has ended. -/
theorem bind {x y : Edit σ α} {f g : α → Edit σ β} (h : x.Agree y s t R)
    (hf : ∀ a s' t', x.Runs s a s' → R s' t' → (f a).Agree (g a) s' t' R) :
    (x >>= f).Agree (y >>= g) s t R := by
  obtain ⟨houtcome, hrel⟩ := h
  rw [Agree, apply_bind, apply_bind]
  cases hx : x.apply s with
  | mk outcome s' =>
    cases hy : y.apply t with
    | mk outcome' t' =>
      rw [hx, hy] at houtcome hrel
      subst houtcome
      cases outcome with
      | ok a => exact hf a s' t' hx hrel
      | error e => exact ⟨rfl, hrel⟩

end Agree

theorem agree_pure {a : α} (h : R s t) : (pure a : Edit σ α).Agree (pure a) s t R := ⟨rfl, h⟩

theorem agree_throw {e : Error} (h : R s t) : (throw e : Edit σ α).Agree (throw e) s t R := ⟨rfl, h⟩

theorem agree_set {t' : σ} (h : R s' t') : (set s' : Edit σ PUnit).Agree (set t') s t R := ⟨rfl, h⟩

theorem agree_ofExcept {outcome : Except Error α} (h : R s t) :
    (ofExcept outcome : Edit σ α).Agree (ofExcept outcome) s t R := by
  cases outcome with
  | ok a => exact agree_pure h
  | error e => exact agree_throw h

theorem agree_ofOption {cause : Fault} {answer : Option α} (h : R s t) :
    (ofOption cause answer : Edit σ α).Agree (ofOption cause answer) s t R := by
  cases answer with
  | some a => exact agree_pure h
  | none => exact agree_throw h

theorem agree_get_bind {f g : σ → Edit σ β} (h : (f s).Agree (g t) s t R) :
    (get >>= f).Agree (get >>= g) s t R := by
  have happly : ∀ (k : σ → Edit σ β) (u : σ), (get >>= k).apply u = (k u).apply u := fun k u => by
    rfl
  rwa [Agree, happly]

theorem agree_modify_bind {change : σ → σ} {f g : PUnit → Edit σ β}
    (h : (f ⟨⟩).Agree (g ⟨⟩) (change s) (change t) R) :
    (modify change >>= f).Agree (modify change >>= g) s t R := by
  exact h

theorem agree_within {part : σ → τ} {put : τ → σ → σ} {Q : τ → τ → Prop} {x y : Edit τ α}
    (h : x.Agree y (part s) (part t) Q) (hput : ∀ u v, Q u v → R (put u s) (put v t)) :
    (within part put x).Agree (within part put y) s t R := by
  refine agree_get_bind ?_
  rw [Agree, apply_bind]
  rw [h.1]
  exact agree_ofExcept (hput _ _ h.2)

end Edit

open Edit

variable {operand : Operand} {f : Function}

theorem Function.func_eq_of_isPointerValue {v : ValueId} (h : f.isPointerValue v) :
    v.func = f.id := by
  rw [isPointerValue] at h
  split at h
  · rename_i ty hty
    obtain ⟨info, hinfo, -⟩ := Option.map_eq_some_iff.mp hty
    exact (index_lt_of_value? hinfo).1
  · cases h

/-- An operand that is no value of another function. -/
def Operand.BelongsTo (operand : Operand) (owner : FuncId) : Prop :=
  ∀ v, operand = .value v → v.func = owner

/-- Listed instructions use no values of other functions. -/
def Function.Enclosed (f : Function) : Prop :=
  ∀ b, ∀ x ∈ f.instsOf b, ∀ kind, f.kind? x = some kind → ∀ operand ∈ kind.operands,
    operand.BelongsTo f.id

theorem Function.Valid.enclosed (V : f.Valid) : f.Enclosed := by
  rintro b x hx kind hkind operand hoperand v rfl
  obtain ⟨ty, hty, -⟩ := (V.fits hx hkind).gives _ hoperand v rfl
  obtain ⟨info, hinfo, -⟩ := Option.map_eq_some_iff.mp hty
  exact (index_lt_of_value? hinfo).1

theorem Function.Enclosed.belongsTo {x : ValueId} {kind : InstKind} (F : f.Enclosed)
    (hx : x ∈ f.listing) (hkind : f.kind? x = some kind) (hoperand : operand ∈ kind.operands) :
    operand.BelongsTo f.id := by
  obtain ⟨b, hb⟩ := mem_listing.mp hx
  exact F b x hb kind hkind operand hoperand

/-! ### Stores -/

/-- Two stores that know the same of some values. -/
structure Store.LikeOn (own : ValueId → Prop) (s t : Store) : Prop where
  width_eq : t.width = s.width
  lookup_eq : ∀ v, own v → t.lookup v = s.lookup v

namespace Store

variable {s t : Store} {g : Function}

theorem LikeOn.symm (h : LikeOn own s t) : LikeOn own t s :=
  ⟨h.width_eq.symm, fun v hv => (h.lookup_eq v hv).symm⟩

theorem LikeOn.put {half : PointerMetadata → PointerMetadata} (h : LikeOn own s t) :
    LikeOn own (s.put id (half ((s.lookup id).getD {})))
    (t.put id (half ((t.lookup id).getD {}))) where
  width_eq := h.width_eq
  lookup_eq v hv := by
    rw [lookup_put, lookup_put]
    split
    · rename_i heq
      rw [h.lookup_eq id (heq ▸ hv)]
    · exact h.lookup_eq v hv

theorem associate_agree {md : PointerMetadata} (h : LikeOn own s t) :
    (Store.associate g id md).Agree (Store.associate g id md) s t (LikeOn own) := by
  rw [associate_eq]
  induction md.halves generalizing s t with
  | nil => exact agree_pure h
  | cons half rest ih =>
    refine Agree.bind (agree_get_bind ?_) fun _ _ _ _ h' => ih h'
    rw [componentType_eq h.width_eq]
    refine (agree_ofExcept h).bind fun _ _ _ _ h' => (agree_ofExcept h').bind fun _ _ _ _ _ => ?_
    exact agree_set h.put

end Store

namespace Weaving

variable {marked : Prop} {s t : Weaving}

/-! ### Weavings -/

/-- Two weavings of a function that differ only in what is recorded for values that are not `own`
and, unless `marked`, in the marks on accesses. -/
structure Alike (own : ValueId → Prop) (marked : Prop) (s t : Weaving) : Prop where
  func_eq : t.func = s.func
  store : Store.LikeOn own s.store t.store
  report_eq : t.report = s.report
  globalLock_eq : t.globalLock = s.globalLock
  frameKey_eq : t.frameKey = s.frameKey
  placeholders_eq : t.placeholders = s.placeholders
  deferred_eq : t.deferred = s.deferred
  covered_eq : marked → t.covered = s.covered

theorem Alike.has_eq (h : s.Alike own marked t) (hid : own id) :
    t.store.has id = s.store.has id := by
  rw [Store.has, Store.has, h.store.lookup_eq id hid]

theorem Alike.firstUnresolved_eq (h : s.Alike own marked t)
    (hown : ∀ v : ValueId, v.func = s.func.id → own v) :
    t.firstUnresolved id = s.firstUnresolved id := by
  rw [firstUnresolved, firstUnresolved, h.func_eq, ← List.head?_filter, ← List.head?_filter]
  refine congrArg (fun found : List ValueId => found.head?.getD id)
    (List.filter_congr fun used _ => ?_)
  by_cases hpointer : s.func.isPointerValue used
  · rw [h.has_eq (hown used (func_eq_of_isPointerValue hpointer))]
  · simp [hpointer]

end Weaving

end PointerGuard
