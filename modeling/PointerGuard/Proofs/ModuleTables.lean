import PointerGuard.Proofs.Failures

/-!
# The tables of a module

All operations on a module keep its tables in order, whether they succeed or fail, and a handle that
has been given out goes on to stand for a function of the same signature.
-/

namespace PointerGuard.Module

open Edit PointerGuard.Function

variable {items : List Draft.Item} {config : Config} {store : Store} {m m' m'' : Module}
  {id : FuncId} {f g : Function} {name : String} {sig : Signature} {α : Type} {e : Error}

/-- Functions and globals stand where their handles say, functions have different names, and every
constructor is a function that is listed once. -/
structure Tabled (m : Module) : Prop extends m.WellFormed where
  globalId_eq : ∀ {id g}, m.global id = .ok g → g.id = id
  name_inj : ∀ {id other f g}, m.function id = .ok f → m.function other = .ok g →
    f.name = g.name → id = other
  constructors_nodup : m.constructors.Nodup
  constructor : ∀ id ∈ m.constructors, ∃ f, m.function id = .ok f

/-- The tables are in order, and handles of another module stand for functions of the signatures
that they have there. -/
structure Retains (m m' : Module) : Prop where
  tabled : m'.Tabled
  signature : ∀ {id f}, m.function id = .ok f →
    ∃ g, m'.function id = .ok g ∧ g.signature = f.signature

theorem Retains.refl (T : m.Tabled) : m.Retains m := ⟨T, fun h => ⟨_, h, rfl⟩⟩

theorem Retains.trans (R : m.Retains m') (R' : m'.Retains m'') : m.Retains m'' where
  tabled := R'.tabled
  signature h := by
    obtain ⟨g, hg, hsig⟩ := R.signature h
    obtain ⟨k, hk, hsig'⟩ := R'.signature hg
    exact ⟨k, hk, hsig'.trans hsig⟩

/-! ### Single changes -/

theorem name_ne_of_functionNamed? (h : m.functionNamed? name = none) (hf : m.function id = .ok f) :
    f.name ≠ name := by
  have hall := Array.find?_eq_none.mp (Option.map_eq_none_iff.mp h)
  simpa using hall f (Array.mem_of_getElem? (function_eq_ok_iff.mp hf))

theorem Tabled.push (T : m.Tabled) (h : m.functionNamed? name = none) :
    m.Retains (m.push (.declaration m.nextFunction name sig)) := by
  have hfresh : ∀ {id f}, m.function id = .ok f → f.name ≠ name := name_ne_of_functionNamed? h
  refine ⟨⟨T.toWellFormed.push rfl wellFormed_declaration, T.globalId_eq, ?_, T.constructors_nodup,
    fun id hid => ?_⟩, fun h => ⟨_, function_push_of_eq_ok h, rfl⟩⟩
  · intro id other f g hf hg hname
    have hnew : (declaration m.nextFunction name sig).name = name := rfl
    grind [function_push, T.name_inj]
  · obtain ⟨f, hf⟩ := T.constructor id hid
    exact ⟨f, function_push_of_eq_ok hf⟩

theorem Tabled.setFunction (T : m.Tabled) (hf : m.function id = .ok f) (hg : g.WellFormed)
    (hhead : (g.id, g.signature) = (f.id, f.signature))
    (hname : ∀ other h, m.function other = .ok h → h.name = g.name → other = id) :
    m.Retains (m.setFunction id g) := by
  obtain ⟨hid, hsig⟩ := Prod.ext_iff.mp hhead
  have hset : ∀ other, (m.setFunction id g).function other =
      if other = id then .ok g else m.function other := fun _ => function_setFunction hf
  refine ⟨⟨T.toWellFormed.setFunction hf hid hg, T.globalId_eq, ?_, T.constructors_nodup, ?_⟩, ?_⟩
  · grind [T.name_inj]
  · intro other hother
    have := T.constructor other hother
    grind
  · grind

theorem Tabled.setSame (T : m.Tabled) (hf : m.function id = .ok f) (hg : g.WellFormed)
    (hhead : (g.id, g.signature) = (f.id, f.signature)) (hname : g.name = f.name) :
    m.Retains (m.setFunction id g) :=
  T.setFunction hf hg hhead fun _ _ hh hnames => T.name_inj hh hf (hnames.trans hname)

theorem Tabled.setGlobals {globals : Array Global} (T : m.Tabled)
    (h : ∀ n (g : Global), globals[n]? = some g → g.id = ⟨n⟩) : m.Retains { m with globals } := by
  refine ⟨⟨⟨T.id_eq, T.wellFormed⟩, fun {id g} hg => h id.index g ?_, T.name_inj,
    T.constructors_nodup, T.constructor⟩, fun h => ⟨_, h, rfl⟩⟩
  grind [Module.global]

theorem Tabled.addGlobal {valueType : Ty} {initializer : Option Constant} {constant : Bool}
    (T : m.Tabled) : m.Retains (m.addGlobal name valueType initializer constant).1 := by
  have hold : ∀ n g, m.global ⟨n⟩ = .ok g → g.id = ⟨n⟩ := fun _ _ => T.globalId_eq
  refine T.setGlobals fun n g hg => ?_
  grind [Module.global]

theorem Tabled.redirectGlobals {r : Redirection} (T : m.Tabled) :
    m.Retains (m.redirectGlobals r).1 := by
  have hold : ∀ n g, m.global ⟨n⟩ = .ok g → g.id = ⟨n⟩ := fun _ _ => T.globalId_eq
  refine T.setGlobals fun n g hg => ?_
  have hg : (m.redirectGlobals r).1.globals[n]? = some g := hg
  rw [globals_redirectGlobals, Array.getElem?_map] at hg
  grind [Module.global, Global.redirected]

/-! ### Operations -/

/-- The tables stay in order, whatever the outcome. -/
def tables : Concern Module where
  leads := Retains
  fails _ := True
  twin _ _ := False
  trans := Retains.trans
  arrive R := .refl R.tabled

theorem heeds_of_endsIn {edit : Edit Module α}
    (h : ∀ t, t.Tabled → edit.EndsIn t t.Retains Any) : edit.Heeds tables m :=
  fun t R => ⟨h t R.tabled, fun _ _ _ => trivial, fun _ => False.elim⟩

theorem heeds_get_bind {rest : Module → Edit Module α} (h : ∀ t, (rest t).Heeds tables m) :
    (get >>= rest).Heeds tables m :=
  gives_get_bind (fun _ _ _ => False.elim) fun t ht => (h t).later ht

theorem heeds_ofExcept {outcome : Except Error α} : (ofExcept outcome).Heeds tables m :=
  (gives_ofExcept fun _ _ => trivial).heeds

theorem onFunction_retains {edit : Edit Function α} (T : m.Tabled)
    (h : ∀ f, m.function id = .ok f →
      edit.EndsIn f (fun g => m.Retains (m.setFunction id g)) Any) :
    (onFunction id edit).EndsIn m m.Retains Any := by
  refine endsIn_get_bind ((endsIn_ofExcept (.refl T) fun _ _ => trivial).bind fun f u hrun _ => ?_)
  obtain ⟨hf, -⟩ := runs_ofExcept.mp hrun
  exact (endsIn_set (h f hf).1).bind fun _ _ _ R => endsIn_ofExcept R fun _ _ => trivial

theorem heeds_declare : (declare name sig).Heeds tables m := by
  refine heeds_of_endsIn fun t T => endsIn_get_bind ?_
  split
  · refine (endsIn_ofExcept (.refl T) fun _ _ => trivial).bind fun f u _ R => ?_
    split
    · exact endsIn_pure R
    · exact endsIn_throw R trivial
  · rename_i hnone
    exact (endsIn_set (T.push hnone)).bind fun _ _ _ R => endsIn_pure R

theorem heeds_rename : (rename id name).Heeds tables m := by
  refine heeds_of_endsIn fun t T => endsIn_get_bind ?_
  have renamed (hname : ∀ other h, t.function other = .ok h → h.name = name → other = id) :
      (onFunction id (modify fun f => { f with name := name })).EndsIn t t.Retains Any :=
    onFunction_retains T fun f hf =>
      endsIn_modify (T.setFunction hf (T.wellFormed hf).relabel rfl hname)
  split
  · rename_i found hfound
    obtain ⟨k, hk, rfl⟩ := T.functionNamed? hfound
    split
    · rename_i heq
      exact renamed fun _ _ hh hnames => heq ▸ T.name_inj hh hk hnames
    · exact endsIn_throw_bind (.refl T) trivial
  · rename_i hnone
    exact renamed fun _ _ hh hnames => absurd hnames (name_ne_of_functionNamed? hnone hh)

theorem heeds_addConstructor : (addConstructor id).Heeds tables m := by
  refine heeds_of_endsIn fun t T => endsIn_get_bind ?_
  refine (endsIn_ofExcept (.refl T) fun _ _ => trivial).bind fun f u hrun R => ?_
  obtain ⟨hf, rfl⟩ := runs_ofExcept.mp hrun
  split
  · exact endsIn_pure R
  · rename_i hnew
    refine endsIn_set ⟨⟨⟨T.id_eq, T.wellFormed⟩, T.globalId_eq, T.name_inj, ?_, fun id' hid => ?_⟩,
      fun h => ⟨_, h, rfl⟩⟩
    · exact List.nodup_append_comm.mp (List.nodup_cons.mpr ⟨hnew, T.constructors_nodup⟩)
    · rcases List.mem_append.mp hid with hid | hid
      · exact T.constructor id' hid
      · exact ⟨f, List.mem_singleton.mp hid ▸ hf⟩

theorem heeds_addFlags {flags : FunctionFlags} : (addFlags id flags).Heeds tables m :=
  heeds_of_endsIn fun _ T => onFunction_retains T fun f hf =>
    have R :=
      T.setSame (g := f.relabel f.name (f.flags.union flags)) hf (T.wellFormed hf).relabel rfl rfl
    (endsIn_modify R).bind fun _ _ _ R => endsIn_get_bind (endsIn_pure R)

theorem heeds_define : (define name sig items).Heeds tables m := by
  refine heeds_of_endsIn fun t T => ?_
  refine ((heeds_declare t (.refl T)).endsIn).bind fun id u _ R => endsIn_get_bind ?_
  refine (endsIn_ofExcept R fun _ _ => trivial).bind fun f v hrun _ => ?_
  obtain ⟨hf, rfl⟩ := runs_ofExcept.mp hrun
  dsimp only
  split
  · split
    · exact endsIn_throw_bind R trivial
    · split
      · rename_i g values hbuild
        obtain ⟨hg, H⟩ := Draft.build_wellFormed (R.tabled.wellFormed hf) hbuild
        have hset := R.tabled.setSame hf hg (by rw [H]) (by rw [H])
        exact (endsIn_set (R.trans hset)).bind fun _ _ _ R => endsIn_pure R
      · exact endsIn_throw R trivial
  · exact endsIn_throw_bind R trivial

theorem heeds_declareRuntime : RoutineTable.declare.Heeds tables m :=
  heeds_get_bind fun _ => (heeds_mapM fun _ _ =>
    heeds_declare.andThen fun _ => heeds_addFlags.done).done

theorem heeds_wrapLibraryCalls {ids : List FuncId} : (wrapLibraryCalls ids).Heeds tables m := by
  refine heeds_get_bind fun _ => gives_ite heeds_pure ?_
  refine (heeds_mapM fun _ _ => heeds_declare.andThen fun _ => heeds_addFlags.done).andThen
    fun r => ?_
  refine (heeds_mapM fun id _ => heeds_of_endsIn fun t T =>
    onFunction_retains T fun f hf => ?_).andThen fun _ => heeds_of_endsIn fun t T => ?_
  · have R := T.setSame (g := (f.redirect r).1) hf (T.wellFormed hf).redirect (by rw [redirect_eq])
      (by rw [redirect_eq])
    refine endsIn_get_bind ((endsIn_set ?_).bind fun _ _ _ R => endsIn_pure R)
    exact R
  · exact endsIn_get_bind ((endsIn_set T.redirectGlobals).bind fun _ _ _ R => endsIn_pure R)

theorem heeds_renameMain : renameMain.Heeds tables m := by
  refine heeds_get_bind fun _ => ?_
  split
  · exact heeds_ofExcept.andThen fun _ => gives_ite heeds_pure heeds_rename.done
  · exact heeds_pure

theorem heeds_seedGlobals {routines : RoutineTable} :
    (seedGlobals routines config).Heeds tables m := by
  refine heeds_get_bind fun t => heeds_ofExcept.andThen fun fields => gives_ite heeds_pure ?_
  refine heeds_define.andThen fun defined => heeds_addConstructor.andThen fun _ =>
    heeds_addFlags.andThen fun _ => Gives.done (heeds_of_endsIn fun u T => ?_)
  refine onFunction_retains T fun g hg =>
    (seedFields_grows t.interface routines config fields g).mono (fun k G => ?_) fun _ _ => trivial
  have H := G.sameHead
  exact T.setSame hg ((T.wellFormed hg).of_grows G) (by rw [H]) (by rw [H])

private theorem heeds_weave {edit : Edit Weaving α}
    (h : ∀ g, g.WellFormed →
      edit.EndsIn (.start g store) (fun s => g.SameHead s.func ∧ s.func.WellFormed) Any) :
    (weave id store edit).Heeds tables m := by
  refine heeds_of_endsIn fun u T => onFunction_retains T fun g hg => ?_
  refine onWeaving_endsIn ((h g (T.wellFormed hg)).mono (fun s hs => ?_) fun _ _ => trivial)
  obtain ⟨H, hwf⟩ := hs
  exact T.setSame hg hwf (by rw [H]) (by rw [H])

private theorem heeds_instrumentFunction {i : Interface} {t : RoutineTable} :
    (instrumentFunction config i t store id).Heeds tables m := by
  refine heeds_get_bind fun _ => heeds_ofExcept.andThen fun _ => heeds_ofExcept.andThen fun _ =>
    (gives_ofOption fun _ => trivial).andThen fun dominators => ?_
  refine (heeds_weave fun g hg => ?_).andThen fun out => ?_
  · refine (Weaving.pipeline_harmless _ (Weaving.intact_start hg.tidy)).mono (fun s W => ?_)
      fun _ _ => trivial
    exact ⟨W.woven.grows.sameHead, hg.of_grows W.woven.grows⟩
  · obtain ⟨_, store', report⟩ := out
    exact gives_when (heeds_get_bind fun _ => heeds_ofExcept) fun _ => heeds_pure

theorem heeds_instrument : (instrument config).Heeds tables m := by
  have heeds_instrumentAll : ∀ i t store ids,
      (instrumentAll config i t store ids).Heeds tables m := by
    intro i t store ids
    induction ids generalizing store with
    | nil => exact heeds_pure
    | cons id rest ih =>
      exact heeds_instrumentFunction.andThen fun out => (ih out.1).done
  rw [instrument_eq]
  refine Gives.andThen (heeds_ofExcept.andThen fun _ => heeds_get_bind fun _ =>
    heeds_declareRuntime.andThen fun _ => ?_) fun _ =>
      heeds_get_bind fun _ => (heeds_instrumentAll _ _ _ _).done
  exact (gives_ite heeds_wrapLibraryCalls heeds_pure).andThen fun _ =>
    (gives_ite heeds_renameMain heeds_pure).andThen fun _ => heeds_seedGlobals.done

/-! ### Failures -/

theorem eq_of_fails_declare (h : (declare name sig).Fails m e m') : m' = m := by
  rw [declare, fails_get_bind] at h
  grind [fails_bind, fails_ofExcept, runs_ofExcept, not_fails_pure, fails_throw, not_fails_set]

theorem eq_of_fails_rename (h : (rename id name).Fails m e m') : m' = m := by
  have renamed (h : (onFunction id (modify fun f => { f with name := name })).Fails m e m') :
      m' = m := by
    rw [onFunction, fails_get_bind] at h
    simp only [fails_bind, fails_ofExcept, not_fails_set, false_or] at h
    obtain ⟨-, rfl⟩ | ⟨_, _, -, _, _, -, h, -⟩ := h
    · rfl
    · cases h
  rw [rename, fails_get_bind] at h
  grind [fails_bind, fails_throw, runs_throw]

theorem eq_of_fails_addConstructor (h : (addConstructor id).Fails m e m') : m' = m := by
  rw [addConstructor, fails_get_bind] at h
  grind [fails_bind, fails_ofExcept, not_fails_pure, not_fails_set]

theorem of_fails_define (h : (define name sig items).Fails m e m') :
    m' = m ∨ m' = m.push (.declaration m.nextFunction name sig) := by
  obtain h | ⟨id, u, hdeclare, h⟩ := fails_bind.mp h
  · exact .inl (eq_of_fails_declare h)
  -- once the function is declared, whatever fails leaves the module as it is
  have hu : m' = u := by
    rw [fails_get_bind] at h
    grind [fails_bind, fails_ofExcept, runs_ofExcept, not_fails_pure, fails_throw, not_fails_set,
      runs_throw]
  rcases declare_cases hdeclare with ⟨-, -, rfl⟩ | ⟨rfl, rfl⟩
  · exact .inl hu
  · exact .inr hu

/-! ### All operations -/

/-- What can be done to a module from outside. -/
inductive Operation where
  | addGlobal (name : String) (valueType : Ty) (initializer : Option Constant) (constant : Bool)
  | declare (name : String) (sig : Signature)
  | define (name : String) (sig : Signature) (items : List Draft.Item)
  | rename (id : FuncId) (name : String)
  | addConstructor (id : FuncId)
  | declareRuntime
  | instrument (config : Config)

/-- The module that an operation leaves, also if it fails. -/
def perform (m : Module) : Operation → Module
  | .addGlobal name valueType initializer constant =>
    (m.addGlobal name valueType initializer constant).1
  | .declare name sig => ((Module.declare name sig).apply m).2
  | .define name sig items => ((Module.define name sig items).apply m).2
  | .rename id name => ((Module.rename id name).apply m).2
  | .addConstructor id => ((Module.addConstructor id).apply m).2
  | .declareRuntime => (RoutineTable.declare.apply m).2
  | .instrument config => ((Module.instrument config).apply m).2

private theorem retains_perform (T : m.Tabled) (op : Operation) : m.Retains (m.perform op) := by
  have R := Retains.refl T
  cases op with
  | addGlobal => exact T.addGlobal
  | declare => exact (heeds_declare m R).endsIn.1
  | define => exact (heeds_define m R).endsIn.1
  | rename => exact (heeds_rename m R).endsIn.1
  | addConstructor => exact (heeds_addConstructor m R).endsIn.1
  | declareRuntime => exact (heeds_declareRuntime m R).endsIn.1
  | instrument => exact (heeds_instrument m R).endsIn.1

theorem retains_performs (T : m.Tabled) (ops : List Operation) :
    m.Retains (ops.foldl perform m) := by
  induction ops generalizing m with
  | nil => exact .refl T
  | cons op rest ih =>
    have R := retains_perform T op
    exact R.trans (ih R.tabled)

private theorem tabled_new (name : String) (width : PointerWidth) : Tabled { name, width } := by
  refine ⟨⟨fun h => ?_, fun h => ?_⟩, fun h => ?_, fun h => ?_, .nil, nofun⟩
  all_goals cases h

/-- The tables of a module that was made by any operations are in order, and handles keep their
meaning whatever is done next. An operation on one entry that fails leaves the module as it was,
except that a body that is rejected may leave a declaration. -/
theorem performs_keep_tables (name : String) (width : PointerWidth) (ops : List Operation) :
    let m := ops.foldl perform { name, width }
    m.Tabled ∧ (∀ more : List Operation, m.Retains (more.foldl perform m)) ∧
      (∀ name sig e m', (Module.declare name sig).Fails m e m' → m' = m) ∧
      (∀ id name e m', (Module.rename id name).Fails m e m' → m' = m) ∧
      (∀ id e m', (Module.addConstructor id).Fails m e m' → m' = m) ∧
      ∀ name sig items e m', (Module.define name sig items).Fails m e m' →
        m' = m ∨ m' = m.push (.declaration m.nextFunction name sig) := by
  have T := (retains_performs (tabled_new name width) ops).tabled
  exact ⟨T, retains_performs T, fun _ _ _ _ => eq_of_fails_declare,
    fun _ _ _ _ => eq_of_fails_rename, fun _ _ _ => eq_of_fails_addConstructor,
    fun _ _ _ _ _ => of_fails_define⟩

/-- A function is declared, is not declared otherwise, takes the name of another one and is run once
before the program. -/
def bootModule : Module :=
  [.declare "boot" ⟨.void, [], false⟩, .declare "boot" ⟨.void, [.voidPtr], false⟩,
    .define "main" ⟨.void, [], false⟩ [.inst 0 (.ret none)], .rename ⟨1⟩ "boot",
      .rename ⟨0⟩ "start",
    .rename ⟨1⟩ "boot", .addConstructor ⟨0⟩, .addConstructor ⟨0⟩, .addConstructor ⟨2⟩].foldl perform
      { name := "m", width := .bits64 }

theorem performs_keep_tables_bootModule :
    bootModule.Tabled ∧ bootModule.functions.toList.map Function.name = ["start", "boot"] ∧
      bootModule.constructors = [⟨0⟩] ∧
        bootModule.Retains (bootModule.perform (.instrument {})) := by
  obtain ⟨T, hmore, -⟩ := performs_keep_tables "m" .bits64 _
  exact ⟨T, by decide, by decide, hmore [.instrument {}]⟩

end PointerGuard.Module
