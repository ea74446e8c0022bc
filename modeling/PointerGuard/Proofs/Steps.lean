import Mathlib.Logic.Relation
import PointerGuard.Proofs.Insertions

/-!
# Steps of weaving

Whatever the passes do to a weaving is a sequence of steps: they splice instructions in at an
anchored point, put shadow phis behind a phi and give them edges, record metadata, and remember the
two requests made at the top. What holds of the outcome is then derived by induction. Looking up the
metadata of an operand is a step as well: the lock of the globals may have to be requested.
-/

namespace PointerGuard

open PointerGuard.Function

variable {s : Weaving} {phi y : ValueId} {kind : InstKind} {operand used result lock : Operand}
  {own place place' : ValueId → Prop} {f : Function} {p : Routine → Prop} {folded : FoldedMetadata}
  {env : Env} {md : PointerMetadata} {incoming edges : List (Operand × BlockId)}

/-- What the checks of loads and stores are counted in. -/
def FunctionReport.tally (r : FunctionReport) : List Nat :=
  [r.spatialChecks, r.temporalChecks, r.spatialEliminatedConstantIndex,
    r.temporalEliminatedTrivial, r.temporalEliminatedBlock, r.temporalEliminatedFunction]

namespace Weaving

/-- The operands that may be used next to an instruction: its own operands and their metadata, and
the key of the frame. -/
def Serves (s : Weaving) (env : Env) (y : ValueId) (operand : Operand) : Prop :=
  (∃ kind, s.func.kind? y = some kind ∧ (operand ∈ kind.operands ∨ ∃ used md c,
    used ∈ kind.operands ∧ s.resolved? env used = some md ∧ md.get? c = some operand)) ∨
  ∃ frameKey, s.frameKey = some frameKey ∧ operand = frameKey.key

section

variable (hkind : s.func.kind? y = some kind)

include hkind

theorem Serves.of_operand (h : operand ∈ kind.operands) :
    s.Serves env y operand :=
  .inl ⟨kind, hkind, .inl h⟩

theorem Serves.of_component {c : Component} (hused : used ∈ kind.operands)
    (hmd : s.resolved? env used = some md) (h : md.get? c = some operand) :
    s.Serves env y operand :=
  .inl ⟨kind, hkind, .inr ⟨used, md, c, hused, hmd, h⟩⟩

/-- What is passed on for a component of an operand may be used, or is a constant. -/
theorem serves_component (hused : used ∈ kind.operands) (hmd : s.resolved? env used = some md)
    (c : Component) :
    s.Serves env y (md.component env.width c) ∨ (md.component env.width c).value? = none := by
  rcases md.component_eq env.width c with hget | hconst
  · exact .inl (.of_component hkind hused hmd hget)
  · exact .inr hconst

end

/-- The operands that insertions at a point may use. -/
def Given (s : Weaving) (env : Env) : InsertPoint → Operand → Prop
  | .before y, operand => s.Serves env y operand
  | .after y, operand => s.Serves env y operand ∨ operand = .value y ∧ s.func.isPointerValue y
  | .prologue, operand => ∃ v ∈ s.func.params, operand = .value v ∧ s.func.isPointerValue v
  | _, _ => False

/-- What one step of weaving does. Instructions spliced in call routines that satisfy `p`, and only
the values of `own` are given records, shadows or edges; `f` is the function that is woven into. As
long as no routine that checks accesses may be called, such checks are not counted either. -/
inductive Step (env : Env) (p : Routine → Prop) (f : Function) (own : ValueId → Prop)
    (s : Weaving) : Weaving → Prop
  | splice {point b i v} : point.Anchored f s.func → s.func.locate? point = some (b, i) →
      env.Adds p (s.Given env point) ⟨s.func, b, i⟩ v →
      Step env p f own s { s with func := v.func }
  | shadows {phi incoming b i spatial temporal v store} : own phi → s.store.lookup phi = none →
      phi.index < f.values.size → s.func.kind? phi = some (.phi incoming) →
      s.func.locate? (.after phi) = some (b, i) →
      (placeholderPhis env).Runs ⟨s.func, b, i⟩ (spatial, temporal) v →
      (Store.associate v.func phi (placeholderRecord spatial temporal)).Runs s.store ⟨⟩ store →
      Step env p f own s { s with func := v.func, store := store }
  | edge {shadow incoming edges} : own shadow → f.values.size ≤ shadow.index →
      s.func.kind? shadow = some (.phi incoming) →
      Step env p f own s { s with func := s.func.withEdges shadow edges }
  | associate {v md store} : own v → s.store.lookup v = none → s.Produced env f v md →
      (Store.associate s.func v md).Runs s.store ⟨⟩ store →
      Step env p f own s { s with store := store }
  | lock {x} : s.globalLock = none →
      s.func.Made s.func.Early (env.callOf .globalLock []) (.value x) →
      s.func.operandType (.value x) = .ok .voidPtr →
      Step env p f own s { s with globalLock := some (.value x) }
  | frame {pair frameKey} : s.frameKey = none →
      s.func.Made (fun x => s.func.Early x ∧ f.values.size ≤ x.index)
        (env.callOf .stackAllocation []) pair →
      s.func.Made s.func.Early (.extract pair Routine.frameLockField) frameKey.lock →
      s.func.Made s.func.Early (.extract pair Routine.frameKeyField) frameKey.key →
      s.func.operandType frameKey.lock = .ok .voidPtr →
      s.func.operandType frameKey.key = .ok env.routines.width.keyTy →
      Step env p f own s { s with frameKey := some frameKey }
  | other {u} : u.func = s.func → u.store = s.store → u.globalLock = s.globalLock →
      u.frameKey = s.frameKey →
      (∃ r : Routine, r.checksAccess ∧ p r) ∨ u.report.tally = s.report.tally →
      Step env p f own s u

/-- A weaving has become another in some steps. -/
abbrev Steps (env : Env) (p : Routine → Prop) (f : Function) (own : ValueId → Prop) :
    Weaving → Weaving → Prop :=
  Relation.ReflTransGen (Step env p f own)

/-- The function of a weaving has grown out of one that is tidy. -/
structure Woven (env : Env) (p : Routine → Prop) (f : Function) (s : Weaving) : Prop where
  tidy : f.Tidy
  grows : f.Grows env.routines p s.func

/-- What is left alone when a weaving changes. -/
structure Kept (own : ValueId → Prop) (s u : Weaving) : Prop where
  trails : ∀ {v x}, s.func.Trails v x → u.func.Trails v x
  early : ∀ {x}, s.func.Early x → u.func.Early x
  kind? : ∀ {x kind}, s.func.kind? x = some kind → (kind.isPhi → ¬own x) →
    u.func.kind? x = some kind
  phi : ∀ {x edges}, s.func.kind? x = some (.phi edges) →
    ∃ edges', u.func.kind? x = some (.phi edges')
  operandType : ∀ {operand ty}, s.func.operandType operand = .ok ty →
    u.func.operandType operand = .ok ty
  lookup : ∀ {v}, ¬own v → u.store.lookup v = s.store.lookup v
  record : ∀ {v md}, s.store.lookup v = some md → u.store.lookup v = some md
  width : u.store.width = s.store.width
  globalLock : ∀ {lock}, s.globalLock = some lock → u.globalLock = some lock
  frameKey : ∀ {frameKey}, s.frameKey = some frameKey → u.frameKey = some frameKey

namespace Kept

variable {env : Env} {g : Function} {u w : Weaving} {md : PointerMetadata} {source : Operand}
  {v shadow : ValueId}

theorem refl : Kept own s s :=
  ⟨id, id, fun h _ => h, fun h => ⟨_, h⟩, id, fun _ => rfl, id, rfl, id, id⟩

theorem trans (K : Kept own s u) (K' : Kept own u w) : Kept own s w where
  trails h := K'.trails (K.trails h)
  early h := K'.early (K.early h)
  kind? h hphi := K'.kind? (K.kind? h hphi) hphi
  phi h := by
    obtain ⟨edges, hedges⟩ := K.phi h
    exact K'.phi hedges
  operandType h := K'.operandType (K.operandType h)
  lookup h := (K'.lookup h).trans (K.lookup h)
  record h := K'.record (K.record h)
  width := K'.width.trans K.width
  globalLock h := K'.globalLock (K.globalLock h)
  frameKey h := K'.frameKey (K.frameKey h)

theorem nonphi (K : Kept own s u) (h : s.func.kind? v = some kind) (hphi : kind.isPhi = false) :
    u.func.kind? v = some kind :=
  K.kind? h fun h' => by simp [hphi] at h'

theorem of_grows {t : RoutineTable} (T : s.func.Tidy) (G : s.func.Grows t p g) :
    Kept own s { s with func := g } :=
  ⟨G.trails T, G.early T, fun h _ => G.kind?_eq h, fun h => ⟨_, G.kind?_eq h⟩, G.operandType_eq,
    fun _ => rfl, id, rfl, id, id⟩

theorem of_edge (hown : own shadow) (hshadow : s.func.kind? shadow = some (.phi incoming)) :
    Kept own s { s with func := s.func.withEdges shadow edges } := by
  refine ⟨fun h => h.withEdges, fun h => h.withEdges, fun {x kind} h hphi => ?_,
    fun {x edges'} h => ?_, fun {operand ty} h => ?_, fun _ => rfl, id, rfl, id, id⟩
  · have hne : x ≠ shadow := fun e => by
      subst e
      cases h.symm.trans hshadow
      exact hphi rfl hown
    rw [kind?_withEdges_of_ne hne, h]
  · grind [kind?_withEdges, kind?_withEdges_of_ne]
  · cases operand with
    | const c => exact h
    | value x =>
      rw [operandType_value_eq_ok] at h ⊢
      rw [valueType?_withEdges hshadow, h]

theorem of_associate {store : Store} (hown : own v) (hnone : s.store.lookup v = none)
    (h : (Store.associate g v md).Runs s.store ⟨⟩ store) :
    Kept own s { s with store := store } := by
  refine { Kept.refl with
    lookup := fun {v} hv => ?_
    record := fun {v md} hv => ?_
    width := Store.associate_width h }
  · exact Store.associate_lookup_of_ne h fun e => hv (e ▸ hown)
  · grind [Store.associate_lookup_of_ne]

/-! What was said of operands and records in terms of what is kept stays true. -/

theorem made (K : Kept own s u) (hkind : kind.isPhi = false) (hplace : ∀ x, place x → place' x)
    (h : s.func.Made place kind operand) :
    u.func.Made place' kind operand := by
  obtain ⟨x, hoperand, hx, hkind?⟩ := h
  exact ⟨x, hoperand, hplace x hx, K.kind? hkind? fun h => by rw [hkind] at h; cases h⟩

theorem asVoidPtr (K : Kept own s u) (hplace : ∀ x, place x → place' x)
    (h : s.func.AsVoidPtr place operand result) : u.func.AsVoidPtr place' operand result :=
  h.map K.operandType (K.made rfl hplace)

theorem lockFor? (K : Kept own s u) (h : s.lockFor? env folded = some lock) :
    u.lockFor? env folded = some lock := by
  rw [Weaving.lockFor?] at h ⊢
  split at h
  · rename_i hneeds
    rw [if_pos hneeds, K.globalLock h]
  · rename_i hneeds
    rw [if_neg hneeds, h]

theorem resolved? (K : Kept own s u) (h : s.resolved? env operand = some md) :
    u.resolved? env operand = some md := by
  cases operand with
  | value v => exact K.record h
  | const c =>
    simp only [Weaving.resolved?] at h ⊢
    split at h
    · obtain ⟨lock, hlock, hmd⟩ := Option.map_eq_some_iff.mp h
      rw [K.lockFor? hlock, Option.map_some, hmd]
    · cases h

theorem consists {made made' : Component → Operand → Prop}
    (hmade : ∀ c operand, made c operand → made' c operand) (h : env.Consists md made) :
    env.Consists md made' := by
  intro c
  have hc := h c
  split at hc
  · grind
  · rename_i htracks
    rw [if_neg htracks]
    exact hc

theorem derivedFrom? (K : Kept own s u) (h : s.func.derivedFrom? v = some source) :
    u.func.derivedFrom? v = some source := by
  rw [Function.derivedFrom?] at h ⊢
  split at h
  · rename_i hkind
    rw [K.nonphi hkind rfl]
    exact h
  · rename_i hkind
    rw [K.nonphi hkind rfl]
    exact h
  · cases h

theorem produced (K : Kept own s u) (h : s.Produced env f v md) : u.Produced env f v md := by
  have htrails : ∀ x, s.func.Trails v x → u.func.Trails v x := fun x hx => K.trails hx
  have hkept : ∀ {kind : InstKind}, kind.isPhi = false → s.func.kind? v = some kind →
      u.func.kind? v = some kind := fun hphi h => K.kind? h fun h' => by rw [hphi] at h'; cases h'
  cases h with
  | slot hparam hbyval hmd =>
    exact .slot hparam hbyval (consists (fun c _ => K.made rfl fun _ => K.early) hmd)
  | byval hparam hbyval hlock => exact .byval hparam hbyval (K.lockFor? hlock)
  | alloca hkind hspatial hmade htemporal hframe =>
    refine .alloca (hkept rfl hkind) hspatial (fun spatial h => ?_) htemporal
      fun temporal h => K.frameKey (hframe temporal h)
    obtain ⟨past, hbase, hpast, hbound⟩ := hmade spatial h
    exact ⟨past, K.asVoidPtr htrails hbase, K.made rfl htrails hpast, K.asVoidPtr htrails hbound⟩
  | load hkind haddress hrecord hmd =>
    exact .load (hkept rfl hkind) (K.asVoidPtr htrails haddress) (K.made rfl htrails hrecord)
      (consists (fun c _ => K.made rfl htrails) hmd)
  | derived hsource hresolved => exact .derived (K.derivedFrom? hsource) (K.resolved? hresolved)
  | select hkind htrue hfalse hsome hmade =>
    exact .select (hkept rfl hkind) (K.resolved? htrue) (K.resolved? hfalse) hsome
      fun c a b operand ha hb hget => K.made rfl htrails (hmade c a b operand ha hb hget)
  | phi hkind hmd =>
    obtain ⟨incoming', hkind'⟩ := K.phi hkind
    refine .phi hkind' (consists (fun c operand h => ?_) hmd)
    obtain ⟨edges, x, hoperand, hx, hx'⟩ := h
    obtain ⟨edges', hedges'⟩ := K.phi hx'
    exact ⟨edges', x, hoperand, htrails x hx, hedges'⟩
  | call hkind hcallee hmd =>
    exact .call (hkept rfl hkind) hcallee (consists (fun c _ => K.made rfl htrails) hmd)
  | null hkind hnowhere =>
    exact .null (hkept (InstKind.isPhi_of_fromNowhere hnowhere) hkind) hnowhere

end Kept

namespace Step

variable {env : Env} {u : Weaving}

theorem grows_of_placeholders {b : BlockId} {i : Nat}
    {spatial temporal : Option (ValueId × ValueId)} {v : Splice}
    (hkind : s.func.kind? phi = some (.phi incoming))
    (hlocate : s.func.locate? (.after phi) = some (b, i))
    (h : (placeholderPhis env).Runs ⟨s.func, b, i⟩ (spatial, temporal) v) :
    s.func.Grows env.routines p v.func := by
  refine ((Splice.Adds.placeholderPhis h).1.grows ?_ (place_after hkind rfl hlocate)).1
  rintro _ rfl
  exact .phi

/-- The function grows, or a shadow phi is given edges. -/
theorem grows (h : Step env p f own s u) :
    s.func.Grows env.routines p u.func ∨
      ∃ shadow incoming edges, own shadow ∧ f.values.size ≤ shadow.index ∧
        s.func.kind? shadow = some (.phi incoming) ∧ u.func = s.func.withEdges shadow edges := by
  cases h with
  | splice hpoint hlocate hadds =>
    exact .inl (hadds.grows (fun _ h => h.1) (.of_anchored hpoint hlocate)).1
  | shadows hown hnone hphi hkind hlocate hplace =>
    exact .inl (grows_of_placeholders hkind hlocate hplace)
  | edge hown hnew hkind => exact .inr ⟨_, _, _, hown, hnew, hkind, rfl⟩
  | associate => exact .inl .refl
  | lock => exact .inl .refl
  | frame => exact .inl .refl
  | other hfunc => exact .inl (hfunc ▸ .refl)

theorem woven (h : Step env p f own s u) (W : s.Woven env p f) : u.Woven env p f := by
  refine ⟨W.tidy, ?_⟩
  rcases h.grows with G | ⟨shadow, incoming, edges, -, hnew, hkind, hfunc⟩
  · exact W.grows.trans G
  · rw [hfunc]
    exact .edge W.grows hnew hkind

theorem kept (h : Step env p f own s u) (W : s.Woven env p f) : Kept own s u := by
  have T := W.grows.tidy W.tidy
  cases h with
  | splice hpoint hlocate hadds =>
    exact .of_grows T (hadds.grows (fun _ h => h.1) (.of_anchored hpoint hlocate)).1
  | shadows hown hnone hphi hkind hlocate hplace hassociate =>
    exact (Kept.of_grows T (grows_of_placeholders (p := p) hkind hlocate hplace)).trans
      (.of_associate hown hnone hassociate)
  | edge hown _ hkind => exact .of_edge hown hkind
  | associate hown hnone _ hassociate => exact .of_associate hown hnone hassociate
  | lock hnone => exact { Kept.refl with globalLock := fun h => by rw [hnone] at h; cases h }
  | frame hnone => exact { Kept.refl with frameKey := fun h => by rw [hnone] at h; cases h }
  | other hfunc hstore hlock hframe =>
    constructor
    all_goals simp only [hfunc, hstore, hlock, hframe]
    · exact id
    · exact id
    · exact fun h _ => h
    · exact fun h => ⟨_, h⟩
    · exact id
    · exact fun _ => trivial
    · exact id
    · exact id
    · exact id

end Step

namespace Steps

variable {env : Env} {own' : ValueId → Prop} {u : Weaving}

theorem woven (S : Steps env p f own s u) (W : s.Woven env p f) : u.Woven env p f := by
  induction S with
  | refl => exact W
  | tail _ step ih => exact step.woven ih

theorem kept (S : Steps env p f own s u) (W : s.Woven env p f) : Kept own s u := by
  induction S with
  | refl => exact .refl
  | tail S step ih => exact ih.trans (step.kept (Steps.woven S W))

theorem mono (hown : ∀ v, own v → own' v) (S : Steps env p f own s u) : Steps env p f own' s u := by
  refine Relation.ReflTransGen.mono (fun s u step => ?_) s u S
  cases step with
  | splice hpoint hlocate hadds => exact .splice hpoint hlocate hadds
  | shadows hphi hnone hindex hkind hlocate hplace hassociate =>
    exact .shadows (hown _ hphi) hnone hindex hkind hlocate hplace hassociate
  | edge hshadow hnew hkind => exact .edge (hown _ hshadow) hnew hkind
  | associate hv hnone hmade hassociate => exact .associate (hown _ hv) hnone hmade hassociate
  | lock hnone hmade htype => exact .lock hnone hmade htype
  | frame hnone hpair hlock hkey htype htype' =>
    exact .frame hnone hpair hlock hkey htype htype'
  | other hfunc hstore hlock hframe htally => exact .other hfunc hstore hlock hframe htally

/-- Steps that give nothing edges let the function grow. -/
theorem grows (S : Steps env p f Never s u) : s.func.Grows env.routines p u.func := by
  induction S with
  | refl => exact .refl
  | tail _ step ih => grind [Step.grows, Grows.trans]

/-- Steps that give nothing a record may be taken wherever some are given one. -/
theorem any (S : Steps env p f Never s u) : Steps env p f own s u :=
  S.mono fun _ h => h.elim

/-- Steps that insert no checks of loads and stores count none. -/
theorem tally_eq (hp : ∀ r : Routine, p r → r.checksAccess = false) (S : Steps env p f own s u) :
    u.report.tally = s.report.tally := by
  induction S with
  | refl => rfl
  | tail _ step ih =>
    cases step with
    | other _ _ _ _ htally => grind
    | _ => exact ih

end Steps

/-! ### Requests and lookups -/

open Edit

variable {env : Env} {s' u : Weaving} {a : Unit} {id : ValueId} {md : PointerMetadata}

theorem runs_splice {α : Type} {point : InsertPoint} {body : Edit Splice α} {a : α} :
    (splice point body).Runs s a s' ↔
      ∃ b i u, s.func.locate? point = some (b, i) ∧ body.Runs ⟨s.func, b, i⟩ a u ∧
        { s with func := u.func } = s' := by
  simp only [splice, runs_within, Function.runs_splice]
  constructor
  · grind
  · grind

theorem runs_associate :
    (associate id md).Runs s a s' ↔
      ∃ store, (Store.associate s.func id md).Runs s.store ⟨⟩ store ∧
        { s with store := store } = s' := by
  simp only [associate, runs_get_bind, runs_within]

theorem runs_count {change : FunctionReport → FunctionReport} :
    (count change).Runs s a s' ↔ { s with report := change s.report } = s' :=
  runs_modify

theorem runs_operandType {ty : Ty} :
    (operandType operand).Runs s ty s' ↔ s.func.operandType operand = .ok ty ∧ s = s' := by
  simp only [operandType, runs_get_bind, runs_ofExcept]

/-- What has been set aside for later. -/
def queues (s : Weaving) : List Placeholder × List ValueId × List (ValueId × Tier) :=
  (s.placeholders, s.deferred, s.covered)

/-- Nothing was recorded, counted or set aside. -/
structure Steady (s s' : Weaving) : Prop where
  store : s'.store = s.store
  report : s'.report = s.report
  queues : s'.queues = s.queues

theorem Steady.refl : Steady s s := ⟨rfl, rfl, rfl⟩

theorem Steady.trans (h : Steady s u) (h' : Steady u s') : Steady s s' :=
  ⟨h'.store.trans h.store, h'.report.trans h.report, h'.queues.trans h.queues⟩

section

variable (S : Steps env p f own s u) (hqueues : u.queues = s.queues) (hown : own id)
  (hnone : u.store.lookup id = none) (hmd : u.Produced env f id md)

include S hqueues hown hnone hmd

theorem Steps.associate (h : (Weaving.associate id md).Runs u a s') :
    Steps env p f own s s' ∧ s'.queues = s.queues := by
  obtain ⟨store, hstore, rfl⟩ := runs_associate.mp h
  exact ⟨S.tail (.associate hown hnone hmd hstore), hqueues⟩

theorem Steps.count_associate {report : FunctionReport}
    (h : (Weaving.associate id md).Runs { u with report := report } a s')
    (htally : report.tally = u.report.tally) : Steps env p f own s s' ∧ s'.queues = s.queues := by
  have K : Kept Never u { u with report := report } :=
    ⟨fun h => h, fun h => h, fun h _ => h, fun h => ⟨_, h⟩, fun h => h, fun _ => rfl, fun h => h,
      rfl, fun h => h, fun h => h⟩
  have step : Step env p f own u { u with report := report } := .other rfl rfl rfl rfl (.inr htally)
  have S := S.tail step
  exact Steps.associate S hqueues hown hnone (K.produced hmd) h

end

/-! ### Where spliced values stand -/

namespace Woven

variable {given : Operand → Prop} {b : BlockId} {i : Nat} {u : Splice} {x : ValueId}

theorem func_tidy (W : s.Woven env p f) : s.func.Tidy := W.grows.tidy W.tidy

theorem made_early (W : s.Woven env p f) (hlocate : s.func.locate? .prologue = some (b, i))
    (A : env.Adds p given ⟨s.func, b, i⟩ u)
    (h : u.func.Made (Splice.Fresh ⟨s.func, b, i⟩) kind operand) :
    u.func.Made u.func.Early kind operand :=
  h.imp fun _ _ hfresh hvalue => A.early (fun _ h => h.1) W.func_tidy hlocate hfresh hvalue

variable (W : s.Woven env p f) (hpoint : InsertPoint.Anchored f s.func (.after y))
  (hlocate : s.func.locate? (.after y) = some (b, i)) (A : env.Adds p given ⟨s.func, b, i⟩ u)

include W hpoint hlocate A

theorem trails_of_fresh {info : ValueInfo} (hfresh : Splice.Fresh ⟨s.func, b, i⟩ x)
    (hvalue : u.func.value? x = some info) : u.func.Trails y x :=
  A.trails (fun _ h => h.1) W.func_tidy (.of_anchored hpoint hlocate) hlocate hfresh hvalue

theorem made_trails (h : u.func.Made (Splice.Fresh ⟨s.func, b, i⟩) kind operand) :
    u.func.Made (u.func.Trails y) kind operand :=
  h.imp fun _ _ => W.trails_of_fresh hpoint hlocate A

theorem asVoidPtr_trails (h : u.func.AsVoidPtr (Splice.Fresh ⟨s.func, b, i⟩) operand result) :
    u.func.AsVoidPtr (u.func.Trails y) operand result :=
  h.imp fun _ _ => W.trails_of_fresh hpoint hlocate A

end Woven

/-! ### Requests -/

theorem Step.prologue {b : BlockId} {i : Nat} {u : Splice}
    (hlocate : s.func.locate? .prologue = some (b, i))
    (A : env.Adds p (s.Given env .prologue) ⟨s.func, b, i⟩ u) :
    Step env p f own s { s with func := u.func } := by
  have anchored : InsertPoint.Anchored f s.func .prologue := trivial
  exact .splice anchored hlocate A

/-- Asking for metadata that has to exist is looking it up and finding it. -/
theorem runs_resolve : (resolve env operand).Runs s md s' ↔
    (tryResolve env operand).Runs s (some md) s' := by
  cases operand with
  | const c => simp [resolve, tryResolve, runs_bind]
  | value id =>
    rw [resolve, tryResolve, runs_get_bind, runs_get_bind, runs_ofExcept, runs_pure, Store.get]
    cases s.store.lookup id <;> simp

section

variable (W : s.Woven env p f)

include W

/-- The lock of the globals is there once it has been asked for. -/
theorem requestGlobalLock_steps (hp : p .globalLock) (h : (requestGlobalLock env).Runs s lock s') :
    Steps env p f Never s s' ∧ s'.globalLock = some lock ∧ Steady s s' := by
  rw [requestGlobalLock, runs_get_bind] at h
  split at h
  · obtain ⟨rfl, rfl⟩ := runs_pure.mp h
    exact ⟨.refl, ‹_›, .refl⟩
  · rename_i hnone
    simp only [runs_bind, runs_splice, runs_modify] at h
    obtain ⟨x, _, ⟨b, i, u, hlocate, hcall, rfl⟩, _, _, rfl, rfl, rfl⟩ := h
    have start : env.Adds p (s.Given env .prologue) ⟨s.func, b, i⟩ ⟨s.func, b, i⟩ := .refl
    obtain ⟨A, -, N⟩ := start.call hcall hp (by simp)
    have hmade := W.made_early hlocate A N.made
    exact ⟨.tail (.single (.prologue hlocate A)) (.lock hnone hmade N.operandType), rfl,
      rfl, rfl, rfl⟩

/-- The key of the frame is there once it has been asked for. -/
theorem requestFrameKey_steps {frameKey : Temporal} (hp : p .stackAllocation)
    (h : (requestFrameKey env).Runs s frameKey s') :
    Steps env p f Never s s' ∧ s'.frameKey = some frameKey ∧ Steady s s' := by
  rw [requestFrameKey, runs_get_bind] at h
  split at h
  · obtain ⟨rfl, rfl⟩ := runs_pure.mp h
    exact ⟨.refl, ‹_›, .refl⟩
  · rename_i hnone
    simp only [runs_bind, runs_splice, runs_modify] at h
    obtain ⟨_, _, ⟨b, i, u, hlocate, ⟨pair, _, hcall, lock, _, hlock, key, _, hkey, rfl, rfl⟩,
      rfl⟩, _, _, rfl, rfl, rfl⟩ := h
    have start : env.Adds p (s.Given env .prologue) ⟨s.func, b, i⟩ ⟨s.func, b, i⟩ := .refl
    obtain ⟨A, -, N⟩ := start.call hcall hp (by simp)
    -- lock and key are the two fields of what the routine returns
    obtain ⟨B, E, _, _, htype, hfield, L⟩ := A.extract hlock (N.usable rfl)
    obtain ⟨C, E', _, _, htype', hfield', K⟩ := B.extract hkey ((N.mono E).usable rfl)
    cases N.operandType.symm.trans htype
    cases (N.mono E).operandType.symm.trans htype'
    cases hfield
    cases hfield'
    obtain ⟨_, ⟨⟩, hearly, hkind⟩ := W.made_early hlocate C ((E.trans E').made N.made)
    have hnew : f.values.size ≤ pair.index := W.grows.size_le.trans N.size_le
    refine ⟨.tail (.single (.prologue hlocate C))
      (.frame hnone ⟨pair, rfl, ⟨hearly, hnew⟩, hkind⟩ ?_ ?_
      (L.mono E').operandType K.operandType), rfl, rfl, rfl, rfl⟩
    · exact W.made_early hlocate C (E'.made L.made)
    · exact W.made_early hlocate C K.made

theorem materialize_steps (hp : p .globalLock) (h : (materialize env folded).Runs s md s') :
    Steps env p f Never s s' ∧
      (∃ lock, s'.lockFor? env folded = some lock ∧ md = folded.materialize env.width
        env.config.spatialSafety env.config.temporalSafety lock) ∧
      Steady s s' := by
  by_cases hneeds : env.config.temporalSafety && folded.needsGlobalLock
  · simp only [materialize, hneeds, if_true, runs_bind] at h
    obtain ⟨lock, _, hlock, rfl, rfl⟩ := h
    obtain ⟨S, hsome, hsteady⟩ := requestGlobalLock_steps W hp hlock
    exact ⟨S, ⟨lock, by rw [lockFor?, if_pos hneeds, hsome], rfl⟩, hsteady⟩
  · simp only [materialize, hneeds] at h
    obtain ⟨rfl, rfl⟩ := h
    exact ⟨.refl, ⟨_, by rw [lockFor?, if_neg hneeds], rfl⟩, .refl⟩

/-- Looking up an operand leaves it resolved, or finds that it has no metadata yet. -/
theorem tryResolve_steps {found : Option PointerMetadata} (hp : p .globalLock)
    (h : (tryResolve env operand).Runs s found s') :
    Steps env p f Never s s' ∧ s'.resolved? env operand = found ∧ Steady s s' := by
  cases operand with
  | const c =>
    simp only [tryResolve, runs_bind, runs_ofExcept] at h
    obtain ⟨folded, _, ⟨hfold, rfl⟩, md, _, hmd, rfl, rfl⟩ := h
    obtain ⟨S, ⟨lock, hlock, rfl⟩, hsteady⟩ := materialize_steps W hp hmd
    refine ⟨S, ?_, hsteady⟩
    rw [resolved?, hfold]
    simp [hlock]
  | value id =>
    obtain ⟨rfl, rfl⟩ := h
    exact ⟨.refl, rfl, .refl⟩

theorem resolve_steps (hp : p .globalLock) (h : (resolve env operand).Runs s md s') :
    Steps env p f Never s s' ∧ s'.resolved? env operand = some md ∧ Steady s s' :=
  tryResolve_steps W hp (runs_resolve.mp h)

end

end Weaving

end PointerGuard
