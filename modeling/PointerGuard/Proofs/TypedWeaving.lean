import PointerGuard.Proofs.Additions

/-!
# Weavings of functions that use only their own values

If a function uses no values of others then no pass looks at their metadata. The metadata of an
operand is of the right type because the store takes nothing else, constants fold to nothing else,
and the operand is not a value of another function, for which the store may hold anything.
-/

namespace PointerGuard

open Edit PointerGuard.Function

/-- The sizes that calls which copy memory are given. -/
def Function.copySizes (f : Function) (i : Interface) : List Operand :=
  f.listing.filterMap fun x => match f.kind? x with
    | some (.call callee (_ :: _ :: size :: _) _) => if i.isCopy callee then some size else none
    | _ => none

theorem Function.mem_copySizes {f : Function} {i : Interface} {x : ValueId}
    {callee target source size : Operand}
    {rest : List Operand} {sig : Signature} (hx : x ∈ f.listing)
    (hkind : f.kind? x = some (.call callee (target :: source :: size :: rest) sig))
    (hcopy : i.isCopy callee) : size ∈ f.copySizes i :=
  List.mem_filterMap.mpr ⟨x, hx, by simp [hkind, hcopy]⟩

namespace Weaving

variable {env : Env} {f g : Function} {s t : Weaving} {id : ValueId} {own : ValueId → Prop}
  {marked typed : Prop}

/-- Everything that is remembered of the function has the type it should have, and so have the
operands of all instructions that were spliced in. -/
structure WellTyped (env : Env) (f : Function) (s : Weaving) : Prop where
  width : s.store.width = env.width
  added : s.func.WellTypedFrom env.routines (· ∈ f.copySizes env.interface) f.values.size
  record : ∀ v md, v.func = f.id → s.store.lookup v = some md → md.TypedIn env.width s.func
  lock : ∀ lock, s.globalLock = some lock → s.func.operandType lock = .ok .voidPtr
  frame : ∀ keys, s.frameKey = some keys → s.func.operandType keys.key = .ok env.width.keyTy
  shadows : ∀ ph ∈ s.placeholders, ∀ c x, (c, x) ∈ ph.shadows →
    s.func.operandType (.value x) = .ok (c.type env.width)

private theorem WellTyped.withFunc (hs : s.WellTyped env f) (hkept : s.func.KeepsTypes g)
    (hadded : g.WellTypedFrom env.routines (· ∈ f.copySizes env.interface) f.values.size) :
    WellTyped env f { s with func := g } :=
  ⟨hs.width, hadded, fun v md hv hmd => (hs.record v md hv hmd).mono hkept,
    fun lock hlock => hkept (hs.lock lock hlock), fun keys hkeys => hkept (hs.frame keys hkeys),
    fun ph hph c x hx => hkept (hs.shadows ph hph c x hx)⟩

/-- One weaving has become another that is intact, If types are
followed it is well typed, and operands have kept their types. -/
structure Advances (env : Env) (f : Function) (typed : Prop) (s t : Weaving) : Prop where
  intact : t.Intact env f
  kept : typed → s.func.KeepsTypes t.func
  wellTyped : typed → t.WellTyped env f

theorem advances_start {store : Store} {covered : List (ValueId × Tier)} (T : f.Tidy)
    (htyped : typed → WellTyped env f { start f store with covered := covered }) :
    Advances env f typed { start f store with covered := covered }
      { start f store with covered := covered } := by
  refine ⟨⟨⟨T, .refl⟩, ?_, ?_, ?_⟩, fun _ _ _ h => h, htyped⟩
  all_goals simp [start]

/-- What passes do to a function that uses only its own values. -/
def enclosedRegime (env : Env) (F : f.Enclosed) (marked : Prop) (hown : ∀ v, v.func = f.id → own v)
    (howner : typed → ∀ v, own v → v.func = f.id)
    (hwidth : typed → env.routines.width = env.width) : Regime env where
  terms := ⟨fun _ => True, typed, (· ∈ f.copySizes env.interface)⟩
  leads := Advances env f typed
  fails _ := True
  visits := (intactRegime env f).visits
  places := (intactRegime env f).places
  shadows := (intactRegime env f).shadows
  own := own
  marked := marked
  trans h h' := { h' with kept := fun ht _ _ htype => h'.kept ht (h.kept ht htype) }
  arrive h := { h with kept := fun _ _ _ htype => htype }
  ordinary _ _ := trivial
  width := hwidth
  keeps h := h.kept
  storeWidth h ht := (h.wellTyped ht).width
  before := @intact_before env f
  prologue := @intact_prologue env f
  after h := (intactRegime env f).after h.intact
  fresh h := (intactRegime env f).fresh h.intact
  program h := (intactRegime env f).program h.intact
  deferred h := h.intact.deferred _
  expected h hph hx :=
    ⟨h.intact.shadows _ hph _ _ hx, fun ht => (h.wellTyped ht).shadows _ hph _ _ hx⟩
  owned h hid hkind hoperand :=
    hown _ (F.belongsTo hid (h.intact.kind?_of_mem_listing hid hkind) hoperand _ rfl)
  edges h ht hph hkind hedge :=
    have hphi := h.intact.phis _ hph
    hown _ (F.belongsTo hphi (ht.intact.kind?_of_mem_listing hphi hkind) (List.mem_map_of_mem hedge)
      _ rfl)
  native h hv := hown _ (hv.trans h.intact.woven.grows.id_eq)
  size h hid _ hkind := mem_copySizes hid (h.intact.kind?_of_mem_listing hid hkind)
  record h hv hlookup := ⟨fun _ _ _ => trivial, fun ht =>
    (h.wellTyped ht).record _ _ (howner ht _ hv) hlookup⟩
  globalLock h hlock := ⟨trivial, fun ht => (h.wellTyped ht).lock _ hlock⟩
  frameKey h hkeys := ⟨⟨trivial, fun ht => (h.wellTyped ht).frame _ hkeys⟩, trivial⟩
  splice h hpoint hlocate spins := { h with
    intact := (intactRegime env f).splice h.intact hpoint hlocate spins.plain
    kept := spins.keeps
    wellTyped := fun ht => (h.wellTyped ht).withFunc (spins.keeps ht)
      (spins.wellTypedFrom ht (h.wellTyped ht).added) }
  edge {s phi operand ty block g} h hphi htype hoperand hadd := by
    have hintact := (intactRegime env f).edge h.intact hphi
      (False.elim : False → s.func.operandType (.value phi) = .ok ty) ⟨trivial, False.elim⟩ hadd
    obtain ⟨incoming, hkind, rfl⟩ := addIncoming_eq_ok_iff.mp hadd
    have hedges := fun ht => (h.wellTyped ht).added.withEdges (b := block) hkind (htype ht)
      (hoperand.2 ht)
    exact { h with
      intact := hintact
      kept := fun ht => (hedges ht).1
      wellTyped := fun ht => (h.wellTyped ht).withFunc (hedges ht).1 (hedges ht).2 }
  lock h hlock := { h with
    intact := (intactRegime env f).lock h.intact ⟨trivial, False.elim⟩
    wellTyped := fun ht => { h.wellTyped ht with
      lock := fun _ e => Option.some.inj e ▸ hlock.2 ht } }
  frame h hkeys := { h with
    intact := (intactRegime env f).frame h.intact ⟨⟨trivial, False.elim⟩, trivial⟩
    wellTyped := fun ht => { h.wellTyped ht with
      frame := fun _ e => Option.some.inj e ▸ hkeys.1.2 ht } }
  count h := { h with
    intact := (intactRegime env f).count h.intact
    wellTyped := fun ht => { h.wellTyped ht with } }
  cover h := { h with
    intact := (intactRegime env f).cover h.intact
    wellTyped := fun ht => { h.wellTyped ht with } }
  expect h hid hadded := { h with
    intact := (intactRegime env f).expect h.intact hid fun c x hx =>
      ⟨(hadded c x hx).1, False.elim⟩
    wellTyped := fun ht => { h.wellTyped ht with
      shadows := List.forall_mem_append.mpr ⟨(h.wellTyped ht).shadows,
        by simpa using fun c x hx => (hadded c x hx).2 ht⟩ } }
  defer h hid := { h with
    intact := (intactRegime env f).defer h.intact hid
    wellTyped := fun ht => { h.wellTyped ht with } }
  fill h := { h with
    intact := (intactRegime env f).fill h.intact
    wellTyped := fun ht => { h.wellTyped ht with shadows := nofun } }
  retry h := { h with
    intact := (intactRegime env f).retry h.intact
    wellTyped := fun ht => { h.wellTyped ht with } }

section

variable (F : f.Enclosed) (hown : ∀ v, v.func = f.id → own v)
  (howner : typed → ∀ v, own v → v.func = f.id) (hwidth : typed → env.routines.width = env.width)

theorem enclosed_records : (enclosedRegime env F marked hown howner hwidth).Records := by
  intro s id md h _
  refine ⟨⟨⟨h.intact.woven.tidy, h.intact.woven.grows⟩, h.intact.phis, h.intact.shadows,
    h.intact.deferred⟩, h.kept, fun ht => ?_⟩
  have hs := h.wellTyped ht
  have hnew : _ ∧ Store.Each (fun v c operand => v.func = f.id →
      s.func.operandType operand = .ok (c.type env.width))
      ((Store.associate s.func id md).apply s.store).2 :=
    (Store.associate_endsIn (fun v md hmd c operand hget hv => hs.record v md hv hmd c operand hget)
      fun c operand _ htype _ => hs.width ▸ htype).1
  exact { hs with
    width := hnew.1.trans hs.width
    record := fun v md hv hmd c operand hget => hnew.2 v md hmd c operand hget hv }

/-- Marks left over from before do not matter, since the pass begins with none. -/
theorem enclosed_insertChecks :
    (insertChecks env).Heeds (enclosedRegime env F marked hown howner hwidth).concern s := by
  intro t ht
  have hchecks :=
    Regime.insertChecks (R := enclosedRegime env F True hown howner hwidth) trivial t ht
  refine ⟨hchecks.endsIn, fun _ _ _ => trivial, fun u htu => ?_⟩
  have hcleared : Advances env f typed t { t with covered := [] } :=
    (enclosedRegime env F True hown howner hwidth).cover (Regime.arrive _ ht)
  have hrest :=
    Regime.checkAll (R := enclosedRegime env F True hown howner hwidth) trivial _ hcleared
  refine Agree.mono (fun v w (h : v.Alike own True w) => ?_)
    (agree_modify_bind (hrest.agree { u with covered := [] } ?_))
  · exact { h with covered_eq := fun _ => h.covered_eq trivial }
  · exact { htu with covered_eq := fun _ => rfl }

theorem pipeline_advances (marked : Prop) (hs : Advances env f typed s s) :
    (env.config.pipeline.mapM (runPass env)).GivesAt
      (enclosedRegime env F marked hown howner hwidth).concern s fun _ _ => True :=
  Regime.pipeline (s := s) (enclosed_records F hown howner hwidth)
    (enclosed_insertChecks F hown howner hwidth) s hs

end

end Weaving

end PointerGuard
