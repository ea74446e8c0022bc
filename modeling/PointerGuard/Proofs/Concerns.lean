import PointerGuard.Proofs.Likeness
import PointerGuard.Proofs.Outcomes

/-!
# What edits heed

Three things are asked of an edit at once: whatever its outcome it leads from a state to certain
others only; it fails in certain ways only; and it cannot tell certain states apart. A *concern*
says which these are. It is heeded in all states that a given one leads to, as other edits may come
in between.
-/

namespace PointerGuard.Edit

/-- Where edits may lead, how they may fail, and which states they must not tell apart. -/
structure Concern (σ : Type) where
  leads : σ → σ → Prop
  fails : Error → Prop
  twin : σ → σ → Prop
  trans : ∀ {s t u}, leads s t → leads t u → leads s u
  arrive : ∀ {s t}, leads s t → leads t t

/-- In one state an edit heeds a concern, with results that satisfy `P`. -/
structure GivesAt {σ α : Type} (edit : Edit σ α) (C : Concern σ) (s : σ) (P : α → σ → Prop) :
    Prop where
  endsIn : edit.EndsIn s (C.leads s) C.fails
  result : ∀ a t, edit.Runs s a t → P a t
  agree : ∀ t, C.twin s t → edit.Agree edit s t C.twin

/-- In all states that `s` leads to an edit heeds a concern, with results that satisfy `P`. -/
def Gives {σ α : Type} (edit : Edit σ α) (C : Concern σ) (s : σ) (P : α → σ → Prop) : Prop :=
  ∀ t, C.leads s t → edit.GivesAt C t P

/-- In all states that `s` leads to an edit heeds a concern. -/
abbrev Heeds {σ α : Type} (edit : Edit σ α) (C : Concern σ) (s : σ) : Prop :=
  edit.Gives C s fun _ _ => True

variable {σ α β : Type} {C : Concern σ} {s t : σ} {edit x : Edit σ α} {P P' : α → σ → Prop}
  {Q : β → σ → Prop} {items : List α} {f body : α → Edit σ β} {e : Error}

namespace Gives

section

variable (h : edit.Gives C s P)

include h

theorem later (ht : C.leads s t) : edit.Gives C t P :=
  fun u hu => h u (C.trans ht hu)

/-- What is known of successful runs is known of results. -/
theorem also (hP : ∀ t a u, C.leads s t → edit.Runs t a u → P a u → P' a u) : edit.Gives C s P' :=
  fun t ht => { h t ht with result := fun a u hrun => hP t a u ht hrun ((h t ht).result a u hrun) }

theorem mono (hP : ∀ a t, C.leads s t → P a t → P' a t) : edit.Gives C s P' :=
  h.also fun t a u ht hrun => hP a u (C.trans ht ((h t ht).endsIn.of_runs hrun))

theorem heeds : edit.Heeds C s := h.mono fun _ _ _ _ => trivial

end

theorem bind (h : x.Gives C s P) (hf : ∀ a t, C.leads s t → P a t → (f a).Gives C t Q) :
    (x >>= f).Gives C s Q := by
  intro t ht
  have first := h t ht
  have second : ∀ a u, x.Runs t a u → (f a).GivesAt C u Q := fun a u hrun =>
    have hu := first.endsIn.of_runs hrun
    hf a u (C.trans ht hu) (first.result a u hrun) u (C.arrive hu)
  refine ⟨first.endsIn.bind fun a u hrun hu => ?_, fun b v hrun => ?_, fun u htu => ?_⟩
  · exact (second a u hrun).endsIn.mono (fun _ => C.trans hu) fun _ he => he
  · grind [runs_bind, GivesAt.result]
  · exact (first.agree u htu).bind fun a v w hrun => (second a v hrun).agree w

/-- What comes second may rely on nothing but what was known before. -/
theorem andThen (h : x.Gives C s P) (hf : ∀ a, (f a).Gives C s Q) : (x >>= f).Gives C s Q :=
  h.bind fun a _ ht _ => (hf a).later ht

theorem map {f : α → β} (h : x.Gives C s fun a t => Q (f a) t) : (f <$> x).Gives C s Q := by
  intro t ht
  refine ⟨(h t ht).endsIn.map, fun b u hrun => ?_, fun u htu => ?_⟩
  · obtain ⟨a, hx, rfl⟩ := runs_map.mp hrun
    exact (h t ht).result a u hx
  · exact ((h t ht).agree u htu).bind fun _ _ _ _ => agree_pure

end Gives

/-! ### The parts of an edit -/

theorem gives_pure {a : α} (h : ∀ t, C.leads s t → P a t) : (pure a : Edit σ α).Gives C s P := by
  refine fun t ht => ⟨endsIn_pure (C.arrive ht), fun b u hrun => ?_, fun _ => agree_pure⟩
  obtain ⟨rfl, rfl⟩ := runs_pure.mp hrun
  exact h t ht

theorem heeds_pure {a : α} : (pure a : Edit σ α).Heeds C s := gives_pure fun _ _ => trivial

theorem Gives.done {b : α → β} (h : x.Gives C s P) : (x >>= fun a => pure (b a)).Heeds C s :=
  h.andThen fun _ => heeds_pure

theorem gives_throw (he : C.fails e) : (throw e : Edit σ α).Gives C s P :=
  fun _ ht => ⟨endsIn_throw (C.arrive ht) he, fun _ _ hrun => absurd hrun runs_throw,
    fun _ => agree_throw⟩

/-- States that are not told apart are looked at for what they have in common. -/
theorem gives_get_bind {f : σ → Edit σ β} (hsame : ∀ t u, C.leads t t → C.twin t u → f u = f t)
    (h : ∀ t, C.leads s t → (f t).Gives C t Q) : (get >>= f).Gives C s Q := by
  intro t ht
  have rest := h t ht t (C.arrive ht)
  refine ⟨endsIn_get_bind rest.endsIn, fun b u hrun => rest.result b u (runs_get_bind.mp hrun),
    fun u htu => agree_get_bind ?_⟩
  rw [hsame t u (C.arrive ht) htu]
  exact rest.agree u htu

theorem heeds_modify {change : σ → σ} (h : ∀ t, C.leads s t → C.leads t (change t))
    (htwin : ∀ t u, C.twin t u → C.twin (change t) (change u)) :
    (modify change : Edit σ PUnit).Heeds C s :=
  fun t ht => ⟨endsIn_modify (h t ht), fun _ _ _ => trivial, fun u htu => ⟨rfl, htwin t u htu⟩⟩

theorem gives_ofExcept {outcome : Except Error α} (he : ∀ e, outcome = .error e → C.fails e) :
    (ofExcept outcome : Edit σ α).Gives C s fun a _ => outcome = .ok a :=
  fun _ ht => ⟨endsIn_ofExcept (C.arrive ht) he, fun _ _ hrun => (runs_ofExcept.mp hrun).1,
    fun _ => agree_ofExcept⟩

theorem gives_ofOption {cause : Fault} {answer : Option α}
    (he : answer = none → C.fails (.fault cause)) :
    (ofOption cause answer : Edit σ α).Gives C s fun a _ => answer = some a :=
  fun _ ht => ⟨endsIn_ofOption (C.arrive ht) he, fun _ _ hrun => (runs_ofOption.mp hrun).1,
    fun _ => agree_ofOption⟩

section

variable {c : Prop} [Decidable c] {rest : PUnit → Edit σ β} {y : Edit σ α}

theorem gives_ite (hx : x.Gives C s P) (hy : y.Gives C s P) : (if c then x else y).Gives C s P := by
  split
  · exact hx
  · exact hy

theorem gives_ite_bind {rest : α → Edit σ β} (hx : x.Gives C s P) (hy : y.Gives C s P)
    (hrest : ∀ a t, C.leads s t → P a t → (rest a).Gives C t Q) :
    (if c then x >>= rest else y >>= rest).Gives C s Q :=
  gives_ite (hx.bind hrest) (hy.bind hrest)

theorem gives_when {x : Edit σ PUnit} (hx : x.Heeds C s) (hrest : ∀ u, (rest u).Gives C s Q) :
    (if c then x >>= rest else rest ⟨⟩).Gives C s Q :=
  gives_ite (hx.andThen hrest) (hrest _)

theorem gives_unless (he : C.fails e) (hrest : ∀ u, (rest u).Gives C s Q) :
    (if c then rest ⟨⟩ else throw e >>= rest).Gives C s Q :=
  gives_ite (hrest _) (Gives.andThen (P := fun _ _ => True) (gives_throw he) hrest)

end

/-! ### Loops -/

theorem heeds_forM {body : α → Edit σ PUnit} (hbody : ∀ a ∈ items, (body a).Heeds C s) :
    (items.forM body).Heeds C s := by
  induction items with
  | nil => exact heeds_pure
  | cons a rest ih =>
    refine (hbody a (.head _)).andThen fun _ => ?_
    exact ih fun b hb => hbody b (.tail _ hb)

theorem heeds_mapM (hbody : ∀ a ∈ items, (body a).Heeds C s) : (items.mapM body).Heeds C s := by
  induction items with
  | nil =>
    exact heeds_pure
  | cons a rest ih => grind [Gives.andThen, heeds_pure]

theorem gives_filterM {test : α → Edit σ Bool} (htest : ∀ a ∈ items, (test a).Heeds C s) :
    (items.filterM test).Gives C s fun kept _ => kept ⊆ items := by
  -- the loop collects what it selects in reverse
  have loop : ∀ (items acc : List α), (∀ a ∈ items, (test a).Heeds C s) →
      (items.filterAuxM test acc).Heeds C s := by
    intro items
    induction items with
    | nil => exact fun acc _ => heeds_pure
    | cons a rest ih =>
      intro acc htest
      refine (htest a (.head _)).andThen fun b => ?_
      exact ih _ fun b hb => htest b (.tail _ hb)
  have whole : (items.filterM test).Heeds C s :=
    (loop items [] htest).andThen fun _ => heeds_pure
  exact whole.also fun _ _ _ _ hrun _ => hrun.filterM_subset

end PointerGuard.Edit
