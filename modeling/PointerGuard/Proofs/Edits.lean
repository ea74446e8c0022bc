import Mathlib.Data.List.Forall2
import PointerGuard.Edit

/-!
# Successful runs of edits

The rules below say what the success of an edit means for its parts, one rule for each way in which
edits are put together.
-/

namespace PointerGuard

variable {c : Prop}

/-! ### Outcomes -/

namespace Outcome

variable {ε α β ε' : Type} {f : α → Except ε β} {items : List α} {x y : Except ε α} {a : α}

theorem bind_eq_ok {b : β} : (x >>= f) = .ok b ↔ ∃ a, x = .ok a ∧ f a = .ok b := by
  cases x <;> simp [bind, Except.bind]

theorem pure_eq_ok {b : α} : (pure a : Except ε α) = .ok b ↔ a = b := by
  simp [pure, Except.pure]

theorem throw_ne_ok {e : ε} : (throw e : Except ε α) ≠ .ok a := by
  simp

theorem ite_eq_ok [Decidable c] :
    (if c then x else y) = .ok a ↔ (c ∧ x = .ok a) ∨ (¬c ∧ y = .ok a) := by
  split <;> simp [*]

theorem mapError_eq_ok {change : ε → ε'} : x.mapError change = .ok a ↔ x = .ok a := by
  cases x <;> simp [Except.mapError]

/-- A check of a list of things passes if each of them does. -/
theorem forM_eq_ok {check : α → Except ε Unit} {u : Unit} :
    items.forM check = .ok u ↔ ∀ a ∈ items, check a = .ok () := by
  induction items with
  | nil => simp [pure, Except.pure]
  | cons a rest ih =>
    rw [List.forM_eq_forM] at ih ⊢
    rw [List.forM_cons, bind_eq_ok, List.forall_mem_cons, ← ih]
    exact ⟨fun ⟨_, h⟩ => h, fun h => ⟨_, h⟩⟩

theorem mapM_eq_ok {out : List β} :
    items.mapM f = .ok out ↔ List.Forall₂ (fun a b => f a = .ok b) items out := by
  induction items generalizing out with
  | nil => rw [List.mapM_nil, pure_eq_ok, List.forall₂_nil_left_iff, eq_comm]
  | cons a rest ih =>
    simp only [List.mapM_cons, bind_eq_ok, pure_eq_ok, List.forall₂_cons_left_iff]
    constructor
    · grind
    · grind

theorem exists_mapM_eq_ok (h : ∀ a ∈ items, ∃ b, f a = .ok b) : ∃ out, items.mapM f = .ok out := by
  induction items with
  | nil => exact ⟨[], rfl⟩
  | cons a rest ih =>
    obtain ⟨b, hb⟩ := h a (.head _)
    obtain ⟨out, hout⟩ := ih fun a ha => h a (.tail _ ha)
    refine ⟨b :: out, ?_⟩
    rw [mapM_eq_ok] at hout ⊢
    exact .cons hb hout

end Outcome

namespace Edit

variable {σ τ α β : Type} {s s' : σ} {body : α → Edit σ PUnit} {edit x : Edit σ α} {u : PUnit}
  {test : α → Edit σ Bool} {rest items kept front : List α} {out : List β} {a : α}

/-- The edit succeeds in a state, with a result and a state it leaves. -/
def Runs (edit : Edit σ α) (s : σ) (a : α) (s' : σ) : Prop := edit.apply s = (.ok a, s')

theorem Runs.unique {b : α} {t : σ} (h : edit.Runs s a s') (h' : edit.Runs s b t) :
    a = b ∧ s' = t := by
  have := h.symm.trans h'
  simpa using this

theorem exists_runs (h : (edit.apply s).1.isOk) : ∃ a, edit.Runs s a (edit.apply s).2 := by
  cases hedit : edit.apply s with
  | mk outcome s' =>
    rw [hedit] at h
    cases outcome with
    | ok a => exact ⟨a, hedit⟩
    | error e => cases h

theorem exists_runs_of_map {view : α → β} {b : β}
    (h : (edit.apply s).1.toOption.map view = some b) :
    ∃ a, edit.Runs s a (edit.apply s).2 ∧ view a = b := by
  obtain ⟨a, hoption, hview⟩ := Option.map_eq_some_iff.mp h
  cases houtcome : (edit.apply s).1 with
  | ok a' =>
    rw [houtcome] at hoption
    obtain rfl := Option.some.inj hoption
    exact ⟨a', Prod.ext houtcome rfl, hview⟩
  | error e =>
    rw [houtcome] at hoption
    cases hoption

/-! ### The parts of a run -/

@[simp] theorem runs_pure {a b : α} : (pure a : Edit σ α).Runs s b s' ↔ a = b ∧ s = s' := by
  have happly : (pure a : Edit σ α).apply s = (.ok a, s) := rfl
  simp [Runs, happly]

/-- What comes second is done only if what comes first succeeds. -/
theorem apply_bind {f : α → Edit σ β} :
    (x >>= f).apply s =
      match x.apply s with
      | (.ok a, t) => (f a).apply t
      | (.error e, t) => (.error e, t) := by
  simp only [apply, ExceptT.run, StateT.run, bind, ExceptT.bind, ExceptT.mk, StateT.bind]
  cases hx : x s with
  | mk outcome t => cases outcome <;> rfl

@[simp] theorem runs_bind {x : Edit σ α} {f : α → Edit σ β} {b : β} :
    (x >>= f).Runs s b s' ↔ ∃ a t, x.Runs s a t ∧ (f a).Runs t b s' := by
  rw [Runs, apply_bind]
  constructor
  · intro h
    cases hx : x.apply s with
    | mk outcome t =>
      rw [hx] at h
      cases outcome with
      | ok a => exact ⟨a, t, hx, h⟩
      | error e => simp at h
  · rintro ⟨a, t, hx, hf⟩
    rw [hx]
    exact hf

@[simp] theorem runs_map {x : Edit σ α} {f : α → β} {b : β} :
    (f <$> x).Runs s b s' ↔ ∃ a, x.Runs s a s' ∧ f a = b := by
  rw [map_eq_pure_bind, runs_bind]
  constructor
  · simp
  · simp

@[simp] theorem runs_get {a : σ} : (get : Edit σ σ).Runs s a s' ↔ a = s ∧ s = s' := by
  have happly : (get : Edit σ σ).apply s = (.ok s, s) := rfl
  simp [Runs, happly, eq_comm]

theorem runs_get_bind {f : σ → Edit σ β} {b : β} : (get >>= f).Runs s b s' ↔ (f s).Runs s b s' := by
  simp only [runs_bind, runs_get]
  constructor
  · rintro ⟨_, _, ⟨rfl, rfl⟩, h⟩
    exact h
  · exact fun h => ⟨s, s, ⟨rfl, rfl⟩, h⟩

@[simp] theorem runs_set {t : σ} {a : PUnit} : (set t : Edit σ PUnit).Runs s a s' ↔ t = s' := by
  have happly : (set t : Edit σ PUnit).apply s = (.ok ⟨⟩, t) := rfl
  simp [Runs, happly]

@[simp] theorem runs_modify {change : σ → σ} {a : PUnit} :
    (modify change : Edit σ PUnit).Runs s a s' ↔ change s = s' := by
  have happly : (modify change : Edit σ PUnit).apply s = (.ok ⟨⟩, change s) := rfl
  simp [Runs, happly]

@[simp] theorem runs_throw {e : Error} {a : α} : ¬(throw e : Edit σ α).Runs s a s' := by
  have happly : (throw e : Edit σ α).apply s = (.error e, s) := rfl
  simp [Runs, happly]

@[simp] theorem runs_ofExcept {outcome : Except Error α} {a : α} :
    (ofExcept outcome : Edit σ α).Runs s a s' ↔ outcome = .ok a ∧ s = s' := by
  cases outcome <;> simp [ofExcept]

@[simp] theorem runs_ofOption {cause : Fault} {answer : Option α} {a : α} :
    (ofOption cause answer : Edit σ α).Runs s a s' ↔ answer = some a ∧ s = s' := by
  cases answer <;> simp [ofOption]

@[simp] theorem runs_refuse {cause : α → Fault} {found : Option α} {a : Unit} :
    (refuse cause found : Edit σ Unit).Runs s a s' ↔ found = none ∧ s = s' := by
  cases found <;> simp [refuse]

@[simp] theorem runs_within {part : σ → τ} {put : τ → σ → σ} {edit : Edit τ α} {a : α} :
    (within part put edit).Runs s a s' ↔ ∃ t, edit.Runs (part s) a t ∧ put t s = s' := by
  simp only [within, runs_bind, runs_get, runs_set, runs_ofExcept]
  constructor
  · rintro ⟨_, _, ⟨rfl, rfl⟩, _, _, rfl, houtcome, rfl⟩
    exact ⟨_, Prod.ext houtcome rfl, rfl⟩
  · rintro ⟨t, hrun, rfl⟩
    refine ⟨s, s, ⟨rfl, rfl⟩, ⟨⟩, _, rfl, ?_, ?_⟩
    all_goals rw [hrun]

@[simp] theorem runs_ite [Decidable c] {x y : Edit σ α} {a : α} :
    (if c then x else y).Runs s a s' ↔ (c ∧ x.Runs s a s') ∨ (¬c ∧ y.Runs s a s') := by
  split <;> simp [*]

/-! ### Loops -/

theorem runs_forM_nil : (([] : List α).forM body).Runs s u s' ↔ s = s' := by
  simp

theorem runs_forM_cons :
    ((a :: rest).forM body).Runs s u s' ↔
      ∃ t, (body a).Runs s ⟨⟩ t ∧ (rest.forM body).Runs t u s' := by
  rw [List.forM_eq_forM, List.forM_cons, runs_bind]
  exact ⟨fun ⟨_, t, h⟩ => ⟨t, h⟩, fun ⟨t, h⟩ => ⟨_, t, h⟩⟩

theorem runs_forM_append :
    ((front ++ rest).forM body).Runs s u s' ↔
      ∃ t, (front.forM body).Runs s ⟨⟩ t ∧ (rest.forM body).Runs t u s' := by
  induction front generalizing s with
  | nil => simp
  | cons a front ih => grind [runs_forM_cons]

theorem runs_mapM_nil {body : α → Edit σ β} :
    (([] : List α).mapM body).Runs s out s' ↔ out = [] ∧ s = s' := by
  rw [List.mapM_nil, runs_pure, eq_comm]

theorem runs_mapM_cons {body : α → Edit σ β} :
    ((a :: rest).mapM body).Runs s out s' ↔
      ∃ b t outs, (body a).Runs s b t ∧ (rest.mapM body).Runs t outs s' ∧ out = b :: outs := by
  simp only [List.mapM_cons, runs_bind, runs_pure]
  constructor
  · grind
  · grind

/-- What holds at the start of a loop and is kept by each of its rounds holds at its end. What holds
may speak of the elements that are still to come. -/
theorem Runs.forM_induction (h : (items.forM body).Runs s u s') (P : List α → σ → Prop)
    (start : P items s)
    (step : ∀ a rest t t', P (a :: rest) t → (body a).Runs t ⟨⟩ t' → P rest t') : P [] s' := by
  induction items generalizing s with
  | nil => exact runs_forM_nil.mp h ▸ start
  | cons a rest ih => grind [runs_forM_cons]

/-- What a loop that selects elements keeps. It may speak of those selected so far and of those
still to come. -/
theorem Runs.filterM_induction (h : (items.filterM test).Runs s kept s')
    (P : List α → List α → σ → Prop) (start : P [] items s)
    (step : ∀ kept a rest b t t', P kept (a :: rest) t → (test a).Runs t b t' →
      P (if b then kept ++ [a] else kept) rest t') : P kept [] s' := by
  -- the loop collects what it selects in reverse
  have loop : ∀ (items : List α) {acc out : List α} {t t' : σ},
      (items.filterAuxM test acc).Runs t out t' → P acc.reverse items t → P out.reverse [] t' := by
    intro items
    induction items with
    | nil =>
      intro acc out t t' hrun hacc
      obtain ⟨rfl, rfl⟩ := runs_pure.mp hrun
      exact hacc
    | cons a rest ih =>
      intro acc out t t' hrun hacc
      rw [List.filterAuxM, runs_bind] at hrun
      obtain ⟨b, w, htest, hrest⟩ := hrun
      have hw := step _ a rest b t w hacc htest
      cases b with
      | true => exact ih hrest (by simpa using hw)
      | false => exact ih hrest hw
  rw [List.filterM, runs_bind] at h
  obtain ⟨out, t, hrun, hpure⟩ := h
  obtain ⟨rfl, rfl⟩ := runs_pure.mp hpure
  exact loop items hrun start

theorem Runs.filterM_subset (h : (items.filterM test).Runs s kept s') : kept ⊆ items := by
  have hall := h.filterM_induction (fun kept rest _ => kept ⊆ items ∧ rest ⊆ items)
    ⟨List.nil_subset _, List.Subset.refl _⟩ fun kept a rest b _ _ hsub _ => ?_
  · exact hall.1
  · grind

end Edit

theorem exists_of_forall₂ {α β : Type} {R : α → β → Prop} {l : List α} {l' : List β} {b : β}
    (h : List.Forall₂ R l l') (hb : b ∈ l') : ∃ a ∈ l, R a b := by
  induction h with
  | nil => cases hb
  | cons hab _ ih => grind

end PointerGuard
