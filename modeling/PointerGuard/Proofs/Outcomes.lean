import PointerGuard.Proofs.Edits

/-!
# Edits, whatever their outcome

`Edit.EndsIn` says that what an edit leaves satisfies an invariant, whether it succeeds or fails,
and that only certain failures are possible. There is one rule for each way in which edits are put
together; with no failure allowed, they show that an edit succeeds.
-/

namespace PointerGuard

variable {cause : Fault} {e : Error}

/-- The error does not say that a function body breaks a rule. -/
def Error.NoViolation (e : Error) : Prop :=
  ∀ function violation, e ≠ .verification function violation

/-- Is the error neither a rule that a body breaks nor a fault? -/
def Error.isOrdinary : Error → Bool
  | .verification .. | .fault _ => false
  | _ => true

theorem Error.NoViolation.of_isOrdinary (h : e.isOrdinary) : e.NoViolation := by
  rintro _ _ rfl
  cases h

theorem Error.NoViolation.fault : (Error.fault cause).NoViolation := by
  rintro _ _ ⟨⟩

namespace Outcome

variable {α β : Type} {f : α → Except Error β} {x : Except Error α}

/-- A failure is ordinary. -/
def Ordinary (outcome : Except Error α) : Prop := ∀ e, outcome = .error e → e.isOrdinary

theorem ordinary_ok {a : α} : Ordinary (.ok a) := by
  rintro _ ⟨⟩

theorem ordinary_error (h : e.isOrdinary) : Ordinary (.error e : Except Error α) := by
  intro e' he'
  cases he'
  exact h

theorem Ordinary.bind (hx : Ordinary x) (hf : ∀ a, x = .ok a → Ordinary (f a)) :
    Ordinary (x >>= f) := by
  cases x with
  | ok a => exact hf a rfl
  | error e => exact ordinary_error (hx e rfl)

theorem Ordinary.map {f : α → β} (hx : Ordinary x) : Ordinary (x.map f) := by
  cases x with
  | ok a => exact ordinary_ok
  | error e => exact ordinary_error (hx e rfl)

theorem ordinary_mapM {items : List α} (h : ∀ a ∈ items, Ordinary (f a)) :
    Ordinary (items.mapM f) := by
  induction items with
  | nil =>
    exact ordinary_ok
  | cons a rest ih =>
    rw [List.mapM_cons]
    refine (h a (.head _)).bind fun _ _ => ?_
    exact (ih fun b hb => h b (.tail _ hb)).bind fun _ _ => ordinary_ok

end Outcome

namespace Edit

variable {σ τ α β : Type} {s s' : σ} {I J : σ → Prop} {E E' : Error → Prop} {f : α → Edit σ β}
  {edit x : Edit σ α} {a : α}

/-- Whatever the outcome, the state that is left satisfies `I`, and a failure satisfies `E`. -/
def EndsIn (edit : Edit σ α) (s : σ) (I : σ → Prop) (E : Error → Prop) : Prop :=
  I (edit.apply s).2 ∧ ∀ e, (edit.apply s).1 = .error e → E e

namespace EndsIn

theorem of_runs (h : edit.EndsIn s I E) (hrun : edit.Runs s a s') : I s' := by
  have hleft := h.1
  rwa [hrun] at hleft

theorem of_end (hrun : edit.Runs s a s') (h : I s') : edit.EndsIn s I E := by
  rw [EndsIn, hrun]
  refine ⟨h, ?_⟩
  rintro _ ⟨⟩

theorem mono (hI : ∀ s, I s → J s) (hE : ∀ e, E e → E' e) (h : edit.EndsIn s I E) :
    edit.EndsIn s J E' :=
  ⟨hI _ h.1, fun e he => hE e (h.2 e he)⟩

theorem bind (h : x.EndsIn s I E) (hf : ∀ a t, x.Runs s a t → I t → (f a).EndsIn t I E) :
    (x >>= f).EndsIn s I E := by
  cases hx : x.apply s with
  | mk outcome t =>
    cases outcome with
    | ok a =>
      have hnext := hf a t hx (h.of_runs hx)
      rwa [EndsIn, apply_bind, hx]
    | error e =>
      rw [EndsIn, hx] at h
      rw [EndsIn, apply_bind, hx]
      refine ⟨h.1, fun e' he' => h.2 e' ?_⟩
      cases he'
      rfl

theorem map {f : α → β} (h : x.EndsIn s I E) : (f <$> x).EndsIn s I E := by
  rw [map_eq_pure_bind]
  exact h.bind fun a t _ ht => .of_end (runs_pure.mpr ⟨rfl, rfl⟩) ht

end EndsIn

/-! ### The parts of an edit -/

theorem endsIn_pure (h : I s) : (pure a : Edit σ α).EndsIn s I E :=
  .of_end (runs_pure.mpr ⟨rfl, rfl⟩) h

theorem endsIn_throw (h : I s) (he : E e) : (throw e : Edit σ α).EndsIn s I E := by
  refine ⟨h, fun e' he' => ?_⟩
  cases he'
  exact he

theorem endsIn_throw_bind (h : I s) (he : E e) : (throw e >>= f).EndsIn s I E :=
  (endsIn_throw h he).bind fun _ _ hrun _ => absurd hrun runs_throw

theorem endsIn_get_bind {f : σ → Edit σ β} (h : (f s).EndsIn s I E) : (get >>= f).EndsIn s I E := by
  rwa [EndsIn, apply_bind]

theorem endsIn_set {t : σ} (h : I t) : (set t : Edit σ PUnit).EndsIn s I E :=
  .of_end (a := ⟨⟩) (runs_set.mpr rfl) h

theorem endsIn_modify {change : σ → σ} (h : I (change s)) :
    (modify change : Edit σ PUnit).EndsIn s I E :=
  .of_end (a := ⟨⟩) (runs_modify.mpr rfl) h

theorem endsIn_ofExcept {outcome : Except Error α} (h : I s)
    (he : ∀ e, outcome = .error e → E e) : (ofExcept outcome : Edit σ α).EndsIn s I E := by
  cases outcome with
  | ok a => exact endsIn_pure h
  | error e => exact endsIn_throw h (he e rfl)

theorem endsIn_ofOption {answer : Option α} (h : I s) (he : answer = none → E (.fault cause)) :
    (ofOption cause answer : Edit σ α).EndsIn s I E := by
  cases answer with
  | some a => exact endsIn_pure h
  | none => exact endsIn_throw h (he rfl)

theorem endsIn_within {part : σ → τ} {put : τ → σ → σ} {edit : Edit τ α}
    (h : edit.EndsIn (part s) (fun t => I (put t s)) E) : (within part put edit).EndsIn s I E := by
  exact endsIn_ofExcept h.1 h.2

/-! ### Invariants

Most edits keep an invariant from wherever it holds. Then the rules need not mention the states. -/

/-- Wherever `I` holds the edit keeps it, whatever the outcome, and a failure satisfies `E`. -/
def Upholds (edit : Edit σ α) (I : σ → Prop) (E : Error → Prop) : Prop :=
  ∀ s, I s → edit.EndsIn s I E

namespace Upholds

theorem bind (h : x.Upholds I E) (hf : ∀ a, (f a).Upholds I E) : (x >>= f).Upholds I E :=
  fun s hs => (h s hs).bind fun a t _ => hf a t

end Upholds

theorem upholds_pure : (pure a : Edit σ α).Upholds I E := fun _ => endsIn_pure

end Edit

end PointerGuard
