import PointerGuard.Proofs.Faults
import PointerGuard.Proofs.Libraries

/-!
# Uses of library routines

With wrapping asked for, no instrumented function, no initializer and no constructor names a library
routine any more. The passes only hand on operands they find, addresses of the runtime, and
constants that name no function.
-/

namespace PointerGuard

open Edit PointerGuard.Function Operand

variable {id : FuncId} {t : RoutineTable} {f g : Function} {store store' : Store} {m m' : Module}
  {config : Config} {i : Interface} {ids : List FuncId}

/-! ### What is not named -/

/-- The operand names none of certain functions. -/
def Operand.Avoids (avoided : FuncId → Bool) (operand : Operand) : Prop :=
  ∀ a ∈ operand.functions, avoided a = false

/-- The listed instructions of a function name none of certain functions. -/
def Function.Avoids (avoided : FuncId → Bool) (f : Function) : Prop :=
  ∀ a ∈ f.named, avoided a = false

section

variable {avoided : FuncId → Bool}

theorem Operand.carries_avoids (hroutines : ∀ r, avoided (t.id r) = false) :
    Splice.Carries t (Avoids avoided) where
  value _ := nofun
  callee r a ha := by
    obtain rfl := List.mem_singleton.mp ha
    exact hroutines r
  nameless c hc a ha := by
    rw [functions, hc] at ha
    cases ha
  cast _ h := h

namespace Function

variable {b block : BlockId} {phi : ValueId} {kind : InstKind} {ty : Ty}

theorem avoids_iff : f.Avoids avoided ↔ ∀ b x kind, x ∈ f.instsOf b → f.kind? x = some kind →
    ∀ operand ∈ kind.operands, operand.Avoids avoided := by
  constructor
  · exact fun h b x kind hx hkind operand hoperand a ha => h a (mem_named.mpr
      ⟨b, x, kind, hx, hkind, InstKind.mem_functions.mpr ⟨operand, hoperand, ha⟩⟩)
  · intro h a ha
    obtain ⟨b, x, kind, hx, hkind, ha⟩ := mem_named.mp ha
    obtain ⟨operand, hoperand, ha⟩ := InstKind.mem_functions.mp ha
    exact h b x kind hx hkind operand hoperand a ha

theorem Avoids.insertAt {i : Nat} (A : f.Avoids avoided)
    (hkind : ∀ operand ∈ kind.operands, operand.Avoids avoided) :
    (f.insertAt b i kind ty).Avoids avoided := by
  rw [avoids_iff] at A ⊢
  intro c x kind' hx hkind'
  by_cases hnew : x = f.nextValue
  · grind [kind?_eq_some_iff, inst?_insertAt_nextValue]
  · rw [kind?_congr (value?_insertAt_of_ne hnew)] at hkind'
    refine A c x kind' ?_ hkind'
    by_cases hc : c = b
    · subst hc
      have hlt : c.index < f.blocks.size := by simpa using index_lt_of_mem_instsOf hx
      exact ((mem_instsOf_insertAt hlt).mp hx).resolve_right fun h => hnew h.2
    · rwa [instsOf_insertAt_of_ne hc] at hx

/-- Insertions whose operands avoid certain functions do not bring them in. -/
theorem Avoids.of_spins {s v : Splice} (A : s.func.Avoids avoided)
    (h : Splice.Spins t (.plain (Operand.Avoids avoided)) s v) : v.func.Avoids avoided := by
  induction h with
  | refl => exact A
  | push _ hkind ih => exact ih.insertAt hkind.2.1

theorem Avoids.addIncoming {operand : Operand} (A : f.Avoids avoided)
    (hoperand : operand.Avoids avoided) (h : f.addIncoming phi operand block = .ok g) :
    g.Avoids avoided := by
  obtain ⟨incoming, hphi, rfl⟩ := addIncoming_eq_ok_iff.mp h
  rw [avoids_iff] at A ⊢
  intro c x kind hx hkind
  rw [instsOf_withEdges] at hx
  by_cases hx' : x = phi
  · subst hx'
    rw [kind?_withEdges hphi] at hkind
    cases hkind
    have hold := A c x _ hx hphi
    simp only [InstKind.operands, List.map_append, List.forall_mem_append] at hold ⊢
    exact ⟨hold, by simpa using hoperand⟩
  · rw [kind?_withEdges_of_ne hx'] at hkind
    exact A c x kind hx hkind

end Function

/-! ### The passes -/

/-- All metadata that is recorded satisfies a condition. -/
def Store.All (q : Operand → Prop) (store : Store) : Prop :=
  ∀ v md, store.lookup v = some md → md.All q

namespace Weaving

variable {env : Env}

/-- Nothing that has been woven into a function, and nothing that is remembered, names one of
certain functions. -/
structure Avoids (avoided : FuncId → Bool) (env : Env) (f : Function) (s : Weaving) : Prop
    extends Intact env f s where
  func : s.func.Avoids avoided
  store : s.store.All (Operand.Avoids avoided)
  globalLock : ∀ lock, s.globalLock = some lock → lock.Avoids avoided
  frameKey : ∀ keys, s.frameKey = some keys → keys.key.Avoids avoided ∧ keys.lock.Avoids avoided

/-- Passes hand on what they find, and name only the runtime by themselves. -/
def avoidingRegime (env : Env) (f : Function)
    (hroutines : ∀ r, avoided (env.routines.id r) = false) :
    Regime env where
  terms := .plain (Operand.Avoids avoided)
  leads _ := Avoids avoided env f
  fails _ := True
  visits := (intactRegime env f).visits
  places := (intactRegime env f).places
  shadows := (intactRegime env f).shadows
  trans _ h := h
  arrive h := h
  carries := carries_avoids hroutines
  ordinary _ _ := trivial
  before := @intact_before env f
  prologue := @intact_prologue env f
  after h := (intactRegime env f).after h.toIntact
  fresh h := (intactRegime env f).fresh h.toIntact
  program h := (intactRegime env f).program h.toIntact
  deferred h := h.deferred _
  expected h hph hx := ⟨h.shadows _ hph _ _ hx, False.elim⟩
  operand {s id kind operand} h hid hkind hoperand := by
    obtain ⟨b, hid⟩ := mem_listing.mp hid
    have hid := (h.woven.grows.instsOf_sublist h.woven.tidy b).subset hid
    exact avoids_iff.mp h.func b id kind hid hkind operand hoperand
  record h _ hlookup := ⟨h.store _ _ hlookup, False.elim⟩
  globalLock h hlock := ⟨h.globalLock _ hlock, False.elim⟩
  frameKey h hkeys := ⟨⟨(h.frameKey _ hkeys).1, False.elim⟩, (h.frameKey _ hkeys).2⟩
  splice h hpoint hlocate spins := { h with
    toIntact := (intactRegime env f).splice h.toIntact hpoint hlocate spins.plain
    func := h.func.of_spins spins }
  edge h hphi htype hoperand hadd := { h with
    toIntact := (intactRegime env f).edge h.toIntact hphi htype ⟨trivial, False.elim⟩ hadd
    func := h.func.addIncoming hoperand.1 hadd }
  lock h hlock := { h with
    toIntact := (intactRegime env f).lock h.toIntact ⟨trivial, False.elim⟩
    globalLock := fun _ e => Option.some.inj e ▸ hlock.1 }
  frame h hkeys := { h with
    toIntact := (intactRegime env f).frame h.toIntact ⟨⟨trivial, False.elim⟩, trivial⟩
    frameKey := fun _ e => Option.some.inj e ▸ ⟨hkeys.1.1, hkeys.2⟩ }
  count h := { h with toIntact := (intactRegime env f).count h.toIntact }
  cover h := { h with toIntact := (intactRegime env f).cover h.toIntact }
  expect h hid hadded := { h with toIntact := (intactRegime env f).expect h.toIntact hid hadded }
  defer h hid := { h with toIntact := (intactRegime env f).defer h.toIntact hid }
  fill h := { h with toIntact := (intactRegime env f).fill h.toIntact }
  retry h := { h with toIntact := (intactRegime env f).retry h.toIntact }

private theorem avoids_of_runs_pipeline {changed : List Bool} {s : Weaving}
    (hroutines : ∀ r, avoided (env.routines.id r) = false) (T : f.Tidy) (hf : f.Avoids avoided)
    (hstore : store.All (Operand.Avoids avoided))
    (h : (env.config.pipeline.mapM (runPass env)).Runs (.start f store) changed s) :
    Avoids avoided env f s := by
  have hrecords : (avoidingRegime env f hroutines).Records := fun {s _ _} hs hmd => { hs with
    toIntact := intact_records hs.toIntact fun _ _ _ => trivial
    store := (Store.associate_endsIn hs.store
      fun c x hget _ => hmd c x hget).1.2 }
  have hstart : Avoids avoided env f (.start f store) :=
    ⟨intact_start T, hf, hstore, nofun, nofun⟩
  have hpasses :=
    Regime.pipeline (s := .start f store) hrecords (Regime.insertChecks trivial) _ hstart
  exact hpasses.endsIn.of_runs h

end Weaving

namespace Module

variable {all : List FuncId}

/-- Functions that do not name certain functions still do not when they have been woven, as long as
nothing that is recorded names them either. -/
theorem Weaves.avoids (W : Weaves config i t store m ids store' m') (hm : m.WellFormed)
    (hroutines : ∀ r, avoided (t.id r) = false) (hstore : store.All (Avoids avoided))
    (hids : ids ⊆ all) (hall : ∀ id ∈ all, ∀ f, m.function id = .ok f → f.Avoids avoided) :
    ∀ id ∈ all, ∀ g, m'.function id = .ok g → g.Avoids avoided := by
  induction W with
  | nil => exact hall
  | @cons _ _ _ m _ _ id rest _ hone _ ih =>
    obtain ⟨f, dominators, s, hf, P, -, rfl, -, rfl⟩ := runs_instrumentFunction.mp hone
    rw [List.cons_subset] at hids
    have T := (hm.wellFormed hf).tidy
    obtain ⟨changed, hrun⟩ := P.runs
    have A := Weaving.avoids_of_runs_pipeline hroutines T (hall id hids.1 f hf) hstore hrun
    refine ih (grows_setFunction hm hf (P.grows T)).wellFormed A.store hids.2
      fun other hother g hg => ?_
    rw [function_setFunction hf] at hg
    split at hg
    · cases hg
      exact A.func
    · exact hall other hother g hg

/-- The constructor names the runtime only. -/
theorem Seeding.avoids (C : Seeding m t config g) (hroutines : ∀ r, avoided (t.id r) = false) :
    g.Avoids avoided := by
  have hfields : ∀ field ∈ C.fields, (const field.address).Avoids avoided := by
    intro field hfield a ha
    obtain ⟨global, -, path, ty, haddress⟩ :=
      exists_address_of_pointerFields C.pointerFields field hfield
    have hnone : field.address.functions = [] := by
      rw [haddress, PointerField.addressOf]
      split
      · rw [Constant.functions_asVoidPtr]
        rfl
      · rw [Constant.functions_asVoidPtr, Constant.functions, Constant.functionsOfAll_eq]
        simp [Global.address, Constant.functions]
    rw [Operand.functions, hnone] at ha
    cases ha
  have hspins : Splice.Spins t (.plain (Avoids avoided)) ⟨C.start, ⟨0⟩, 0⟩ C.s :=
    ((heeds_seedFields (carries_avoids hroutines) False.elim fun field hfield =>
      ⟨hfields field hfield, False.elim⟩) _ .refl).endsIn.of_runs C.runs
  have hstart : C.start.Avoids avoided := by
    rw [avoids_iff]
    intro b x kind hx hkind operand hoperand
    -- its only instruction returns nothing
    obtain ⟨rfl, rfl⟩ := C.onlyReturns.mem_instsOf hx
    rw [kind?_of_inst? C.onlyReturns.inst] at hkind
    cases hkind
    cases hoperand
  rw [← C.result]
  exact Avoids.of_spins hstart hspins

end Module

end

/-! ### Modules -/

/-- Functions named in a function have been replaced, and it has grown: what it lists is still
listed, in order, and of its values only the operands of listed instructions have changed. -/
structure Function.Renames (change : FuncId → FuncId) (f g : Function) : Prop where
  instsOf : ∀ b, (g.instsOf b).filter (·.index < f.values.size) = f.instsOf b
  value? : ∀ {v info}, f.value? v = some info → g.value? v =
    some (if v ∈ f.listedInsts then info.mapOperands (mapFunctions change) else info)

namespace Module

variable {u : Module} {r : Redirection}

/-- All uses of library routines in the functions of the program and in the initializers have become
uses of their wrappers, and none is left. Nothing else was changed there. -/
structure Rerouted (r : Redirection) (m m' : Module) : Prop extends m.Reroutes r m' where
  isLibrary_eq : ∀ id, m'.isLibrary id = m.isLibrary id
  target : ∀ {id f}, m.function id = .ok f → f.isTarget →
    ∃ g, m'.function id = .ok g ∧ f.Renames r.target g ∧ g.Avoids m'.isLibrary
  globals_eq : m'.globals = m.globals.map (Global.mapFunctions r.target)
  global : ∀ g ∈ m'.globals, ∀ a ∈ g.named, m'.isLibrary a = false
  made : ∀ {id g}, m'.function id = .ok g → g.isDeclaration = false →
    (∀ f, m.function id = .ok f → f.isDeclaration) →
      g.name = globalInit ∧ g.flags.constructor ∧ g.Avoids m'.isLibrary ∧ g.redirect r = (g, 0)
  again : (redirectAll r m.targets).Runs m' 0 m'

/-- Weaving makes no library routine, and leaves none out. -/
theorem Weaves.agrees_isLibrary (W : Weaves config i t store m ids store' m') (hm : m.WellFormed) :
    m.Agrees Function.isLibrary m' := by
  induction W with
  | nil => exact .refl
  | cons hone _ ih =>
    obtain ⟨f, dominators, s, hf, P, -, -, -, rfl⟩ := runs_instrumentFunction.mp hone
    have G := P.grows (hm.wellFormed hf).tidy
    refine (agrees_setFunction hf ?_).trans (ih (grows_setFunction hm hf G).wellFormed)
    have hdecl : s.func.isDeclaration = f.isDeclaration := by
      simp only [isDeclaration, Array.isEmpty, G.size_blocks]
    rw [Function.isLibrary, hdecl, G.header]
    rfl

theorem Reroutes.isLibrary_target (E : m.Reroutes r m') (hsame : m'.isLibrary = m.isLibrary)
    (a : FuncId) : m'.isLibrary (r.target a) = false := by
  cases ha : m.isLibrary a with
  | true =>
    obtain ⟨f, hf, hlibrary⟩ : ∃ f, m.function a = .ok f ∧ f.isLibrary := by
      rw [isLibrary, has] at ha
      split at ha
      · exact ⟨_, ‹_›, ha⟩
      · cases ha
    exact (E.wrapper hf hlibrary).isLibrary_eq
  | false =>
    rw [Redirection.target_of_not_maps ((E.maps_eq a).trans ha), hsame, ha]

theorem Reroutes.of_keepsHeads (K : u.KeepsHeads m') (E : m.Reroutes r u) : m.Reroutes r m' :=
  ⟨E.maps_eq, fun hf hlibrary => (E.wrapper hf hlibrary).of_keepsHeads K⟩

/-- The functions of the program have been redirected when the module has been prepared. -/
theorem Prepares.exists_redirect (P : m.Prepares (some r) u) (hf : m.function id = .ok f)
    (htarget : f.isTarget) :
    ∃ name flags, u.function id = .ok ((f.redirect r).1.relabel name flags) := by
  obtain ⟨g, hg, F⟩ := P.function hf
  rw [redirected, if_pos htarget] at F
  refine ⟨g.name, g.flags, hg.trans (congrArg _ (F.body ?_).eq_relabel)⟩
  simp only [isTarget, Bool.and_eq_true, Bool.not_eq_true'] at htarget
  rw [redirect_eq]
  exact htarget.1

theorem renames_of_grows {name : String} {flags : FunctionFlags} {p : Routine → Prop} (T : f.Tidy)
    (htarget : f.isTarget) (G : ((f.redirect r).1.relabel name flags).Grows t p g) :
    f.Renames r.target g := by
  have R := readdresses_redirect T r
  have T' := R.tidy T
  have hsize : ((f.redirect r).1.relabel name flags).values.size = f.values.size := R.size_eq
  refine ⟨fun b => ?_, fun {v info} hvalue => ?_⟩
  · rw [← hsize, G.filter_instsOf ⟨T'.listed, T'.nodup, T'.block_eq⟩]
    exact R.instsOf_eq
  · rw [G.value?_eq (hsize ▸ (index_lt_of_value? hvalue).2)]
    have hredirected : (f.redirected (some r)).value? v = _ := value?_redirected T _ hvalue
    simp only [redirected, redirection, if_pos htarget,
      Redirection.onOperand_fst] at hredirected
    exact hredirected

/-- How a module is instrumented if uses of library routines are redirected. The module in between
has been prepared. -/
structure Rerouting (config : Config) (t : RoutineTable) (r : Redirection) (m u m' : Module) : Prop
    where
  prepares : m.Prepares (some r) u
  weaves : ∃ store, Weaves config u.interface t ⟨u.width, []⟩ u m.targets store m'
  reroutes : m.Reroutes r m'
  isLibrary_eq : m'.isLibrary = m.isLibrary
  routines : ∀ routine, m'.isLibrary (t.id routine) = false

theorem Stages.rerouting {prepared : Prepared} {v w x : Module}
    (S : Stages config m prepared u v w x) (hm : m.WellFormed)
    (hdeclared : prepared.routines.Declared x) (P : m.Prepares (some r) w) (E : m.Reroutes r w)
    (W : Weaves config x.interface prepared.routines ⟨x.width, []⟩ x m.targets store m') :
    Rerouting config prepared.routines r m x m' := by
  have F : w.Furnishes x := (seedGlobals_endsIn P.wellFormed).of_runs S.seeds
  have P' : m.Prepares (some r) x := P.furnish F
  have A : m.Agrees Function.isLibrary x := S.agrees_isLibrary hm P.wellFormed
  have hsame : m'.isLibrary = m.isLibrary :=
    funext (A.trans (W.agrees_isLibrary P'.wellFormed))
  have K : w.KeepsHeads m' := F.keepsHeads.trans (W.grows P'.wellFormed).keepsHeads
  refine ⟨P', ⟨store, W⟩, E.of_keepsHeads K, hsame, fun routine => ?_⟩
  obtain ⟨g, hg, hname, -⟩ := hdeclared.declaredAt routine
  rw [hsame, isLibrary, ← A, has_of_function hg,
    isLibrary_of_name (hname ▸ not_wrapped_of_reserved routine.symbol_reserved)]

namespace Rerouting

variable (R : Rerouting config t r m u m')

include R

theorem grows : u.Grows t Any m' := by
  obtain ⟨store, W⟩ := R.weaves
  exact W.grows R.prepares.wellFormed

theorem maps_eq (a : FuncId) : r.maps a = m'.isLibrary a :=
  (R.reroutes.maps_eq a).trans (congrFun R.isLibrary_eq a).symm

theorem isLibrary_target (a : FuncId) : m'.isLibrary (r.target a) = false :=
  R.reroutes.isLibrary_target R.isLibrary_eq a

theorem globals_eq : m'.globals = m.globals.map (Global.mapFunctions r.target) := by
  rw [R.grows.globals_eq, R.prepares.globals_eq, Global.redirected_eq]

theorem global : ∀ g ∈ m'.globals, ∀ a ∈ g.named, m'.isLibrary a = false := by
  intro g hg a ha
  rw [R.globals_eq] at hg
  obtain ⟨g, -, rfl⟩ := Array.mem_map.mp hg
  rw [Global.named_mapFunctions] at ha
  obtain ⟨a, -, rfl⟩ := List.mem_map.mp ha
  exact R.isLibrary_target a

section

variable (hm : m.WellFormed)

include hm

/-- A function of the program names what uses are redirected to, and the runtime. -/
theorem avoids (hid : id ∈ m.targets) (hg : m'.function id = .ok g) : g.Avoids m'.isLibrary := by
  obtain ⟨store, W⟩ := R.weaves
  refine W.avoids R.prepares.wellFormed R.routines nofun (fun _ h => h) (fun id hid g hg a ha => ?_)
    id hid g hg
  obtain ⟨f, hf, htarget⟩ := (mem_targets hm).mp hid
  obtain ⟨name, flags, hg'⟩ := R.prepares.exists_redirect hf htarget
  cases hg.symm.trans hg'
  have hnamed : ((f.redirect r).1.relabel name flags).named = f.named.map r.target :=
    named_redirect (hm.wellFormed hf).tidy
  rw [hnamed] at ha
  obtain ⟨a, -, rfl⟩ := List.mem_map.mp ha
  exact R.isLibrary_target a

theorem target (hf : m.function id = .ok f) (htarget : f.isTarget) :
    ∃ g, m'.function id = .ok g ∧ f.Renames r.target g ∧ g.Avoids m'.isLibrary := by
  obtain ⟨name, flags, hu⟩ := R.prepares.exists_redirect hf htarget
  obtain ⟨g, hg, hgrows⟩ := R.grows.function hu
  refine ⟨g, hg, renames_of_grows (hm.wellFormed hf).tidy htarget hgrows, R.avoids hm ?_ hg⟩
  exact (mem_targets hm).mpr ⟨f, hf, htarget⟩

theorem again : (redirectAll r m.targets).Runs m' 0 m' := by
  refine runs_redirectAll_of_unnamed (fun id hid => ?_) fun a ha => (R.maps_eq a).trans ?_
  · grind [mem_targets, target]
  · rcases List.mem_append.mp ha with ha | ha
    · obtain ⟨id, hid, ha⟩ := List.mem_flatMap.mp ha
      rw [namedBy] at ha
      split at ha
      · exact R.avoids hm hid ‹_› a ha
      · cases ha
    · grind [global]

theorem function_eq (hnone : ∀ f, m.function id = .ok f → f.isDeclaration) :
    m'.function id = u.function id := by
  obtain ⟨store, W⟩ := R.weaves
  refine W.function_eq fun hid => ?_
  obtain ⟨f, hf, htarget⟩ := (mem_targets hm).mp hid
  simp [isTarget, hnone f hf] at htarget

end

end Rerouting

/-- Wrapping library routines is complete and exact, and it counts the uses there were. -/
theorem instrument_reroutes {report : Report} (hm : m.WellFormed) (hwrap : config.wrapLibraryCalls)
    (h : (instrument config).Runs m report m') :
    (∃ r, m.Rerouted r m') ∧ report.wrappedCalls = (m.namedIn m.targets).countP m.isLibrary := by
  obtain ⟨prepared, x, hprepare, hweave, -, hreport⟩ := runs_instrument h
  obtain ⟨u, v, w, S⟩ := stages_of_runs_prepare hprepare
  obtain ⟨r, P, E, hcount⟩ := S.redirects hm hwrap
  obtain ⟨-, htargets, hdeclared, -⟩ := of_runs_prepare hm hprepare
  rw [htargets] at hweave
  obtain ⟨store, W⟩ := weaves_of_runs hweave
  have R := S.rerouting hm hdeclared P E W
  refine ⟨⟨r, ⟨R.reroutes, congrFun R.isLibrary_eq, R.target hm, R.globals_eq, R.global,
    fun {id g} hg hbody hnone => ?_, R.again hm⟩⟩, hreport.trans hcount⟩
  -- the function that got a body is the constructor
  rw [R.function_eq hm hnone] at hg
  obtain ⟨C⟩ := S.seeding_of_hasBody hm P.wellFormed hg hbody hnone
  have havoids : g.Avoids m'.isLibrary := C.avoids R.routines
  exact ⟨C.header.1, C.header.2.2.1, havoids,
    Function.redirect_eq_self fun a ha => (R.maps_eq a).trans (havoids a ha)⟩

end Module

/-! ### A program that keeps addresses of library routines

A table holds the addresses of the allocator and of its counterpart, one of them at another type. A
function calls both, and hands the address of one to the other. -/

/-- What gives memory back. -/
def deallocator : Function := .declaration ⟨1⟩ "free" ⟨.void, [.voidPtr], false⟩

/-- Allocate, and give an address away as if it were memory. -/
def tableMain : Function := .ofBlocks ⟨2⟩ "main" ⟨.int 32, [], false⟩ [
  [(.voidPtr, .call (.const (.func ⟨0⟩ allocator.pointerType)) [.const (.int 64 8)]
      allocator.signature),
    (.void, .call (.const (.func ⟨1⟩ deallocator.pointerType))
      [.const (.cast .bitcast (.func ⟨0⟩ allocator.pointerType) .voidPtr)] deallocator.signature),
    (.void, .ret (some (.const (.int 32 0))))]]

def tableModule : Module where
  name := "table"
  width := .bits64
  globals := #[⟨⟨0⟩, "table", .struct [allocator.pointerType, .array .voidPtr 1],
    some (.aggregate (.struct [allocator.pointerType, .array .voidPtr 1])
      [.func ⟨0⟩ allocator.pointerType, .aggregate (.array .voidPtr 1)
        [.cast .bitcast (.func ⟨1⟩ deallocator.pointerType) .voidPtr]]), false⟩]
  functions := #[allocator, deallocator, tableMain]

/-- There are five uses, and all are redirected. -/
theorem instrument_reroutes_tableModule :
    tableModule.WellFormed ∧ ({} : Config).wrapLibraryCalls ∧
      ∃ report m', (Module.instrument {}).Runs tableModule report m' ∧
        (∃ r, tableModule.Rerouted r m') ∧ report.wrappedCalls = 5 := by
  have hm : tableModule.WellFormed := by decide +kernel
  obtain ⟨report, hrun⟩ : ∃ report, (Module.instrument {}).Runs tableModule report _ :=
    exists_runs (by decide +kernel)
  obtain ⟨hrerouted, hcount⟩ := Module.instrument_reroutes hm rfl hrun
  exact ⟨hm, rfl, report, _, hrun, hrerouted, hcount.trans (by decide +kernel)⟩

end PointerGuard
