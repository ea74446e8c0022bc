import PointerGuard.Instrument
import PointerGuard.Proofs.Modules
import PointerGuard.Proofs.Readdressing
import PointerGuard.Proofs.Spinning

/-!
# Preparing a module

Runtime routines and library wrappers are declared, uses of library routines are redirected, `main`
is renamed, and a constructor is made. Of a function that has a body only its name and its flags
change, apart from addresses that are redirected.
-/

namespace PointerGuard

open Edit Outcome PointerGuard.Function PointerGuard.Module

variable {id : FuncId} {name : String} {a flags : FunctionFlags} {f g : Function}
  {m m' m'' : Module} {r? : Option Redirection} {ids : List FuncId} {r r' : Routine}
  {sig : Signature}

/-! ### Furnishing -/

namespace FunctionFlags

theorem union_self : a.union a = a := by
  simp [union]

theorem union_assoc {b c : FunctionFlags} : (a.union b).union c = a.union (b.union c) := by
  simp [union, Bool.or_assoc]

end FunctionFlags

/-- The names under which the runtime and its wrappers are declared. -/
def reservedNames : List String :=
  Routine.all.map Routine.symbol ++ wrappedLibraryFunctions.map wrapperSymbol

theorem Routine.symbol_reserved (r : Routine) : r.symbol ∈ reservedNames :=
  List.mem_append_left _ (List.mem_map_of_mem r.mem_all)

theorem wrapperSymbol_reserved (h : name ∈ wrappedLibraryFunctions) :
    wrapperSymbol name ∈ reservedNames :=
  List.mem_append_right _ (List.mem_map_of_mem h)

theorem ne_main_of_reserved (h : name ∈ reservedNames) : name ≠ "main" := by
  rintro rfl
  exact absurd h (by decide)

/-- A function can still be recognized: it keeps its signature, and loses no flag. Only `main` gets
another name. -/
structure Function.KeepsHead (f g : Function) : Prop where
  id_eq : g.id = f.id
  signature_eq : g.signature = f.signature
  name_eq : g.name = f.name ∨ f.name = "main" ∧ g.name = pseudoMain
  flags_le : f.flags.union g.flags = g.flags

/-- Only the label of a function has changed, and its flags only if its name is reserved. -/
structure Function.Labels (f g : Function) : Prop extends f.KeepsHead g where
  eq_relabel : g = f.relabel g.name g.flags
  flags_eq : f.name ∉ reservedNames → g.flags = f.flags

/-- What furnishing a module may do to a function: only what has no body gets one. -/
structure Function.Furnishes (f g : Function) : Prop extends f.KeepsHead g where
  body : f.isDeclaration = false → f.Labels g

namespace Function

variable {h : Function}

theorem KeepsHead.refl : f.KeepsHead f :=
  ⟨rfl, rfl, .inl rfl, FunctionFlags.union_self⟩

theorem KeepsHead.trans (K : f.KeepsHead g) (K' : g.KeepsHead h) : f.KeepsHead h where
  id_eq := K'.id_eq.trans K.id_eq
  signature_eq := K'.signature_eq.trans K.signature_eq
  name_eq := by
    rcases K.name_eq with hname | ⟨hmain, hname⟩
    · rw [← hname]
      exact K'.name_eq
    · refine .inr ⟨hmain, (K'.name_eq.resolve_right fun hagain => ?_).trans hname⟩
      exact absurd (hname.symm.trans hagain.1) (by decide)
  flags_le := by rw [← K'.flags_le, ← FunctionFlags.union_assoc, K.flags_le]

theorem KeepsHead.of_sameHead (H : f.SameHead g) : f.KeepsHead g := by
  rw [H]
  exact ⟨rfl, rfl, .inl rfl, FunctionFlags.union_self⟩

theorem KeepsHead.name_of_ne (K : f.KeepsHead g) (h : f.name ≠ "main") : g.name = f.name :=
  K.name_eq.resolve_right fun hmain => h hmain.1

theorem KeepsHead.not_reserved (K : f.KeepsHead g) (h : f.name ∉ reservedNames) :
    g.name ∉ reservedNames := by
  rcases K.name_eq with hname | ⟨-, hname⟩
  · rwa [hname]
  · rw [hname]
    decide

theorem KeepsHead.runtime (K : f.KeepsHead g) (h : f.flags.runtime) : g.flags.runtime := by
  rw [← K.flags_le]
  simp [FunctionFlags.union, h]

theorem KeepsHead.wrapper (K : f.KeepsHead g) (h : f.flags.wrapper) : g.flags.wrapper := by
  rw [← K.flags_le]
  simp [FunctionFlags.union, h]

theorem Labels.refl : f.Labels f := ⟨.refl, rfl, fun _ => rfl⟩

theorem Labels.trans (L : f.Labels g) (L' : g.Labels h) : f.Labels h where
  toKeepsHead := L.toKeepsHead.trans L'.toKeepsHead
  eq_relabel := by
    have hh := L'.eq_relabel
    rw [L.eq_relabel] at hh
    exact hh
  flags_eq hname := (L'.flags_eq (L.not_reserved hname)).trans (L.flags_eq hname)

theorem Labels.isDeclaration_eq (L : f.Labels g) : g.isDeclaration = f.isDeclaration := by
  rw [L.eq_relabel]
  rfl

theorem Furnishes.isDeclaration (F : f.Furnishes g) (h : f.isDeclaration = false) :
    g.isDeclaration = false :=
  (F.body h).isDeclaration_eq.trans h

theorem Furnishes.trans (F : f.Furnishes g) (F' : g.Furnishes h) : f.Furnishes h where
  toKeepsHead := F.toKeepsHead.trans F'.toKeepsHead
  body hbody := (F.body hbody).trans (F'.body (F.isDeclaration hbody))

end Function

/-- The functions of a module can still be recognized. -/
structure Module.KeepsHeads (m m' : Module) : Prop where
  width_eq : m'.width = m.width
  function : ∀ {id f}, m.function id = .ok f → ∃ g, m'.function id = .ok g ∧ f.KeepsHead g

/-- Functions of a module have been labelled, and reserved names have been declared. -/
structure Module.Labels (m m' : Module) : Prop where
  wellFormed : m'.WellFormed
  width_eq : m'.width = m.width
  globals_eq : m'.globals = m.globals
  function : ∀ {id f}, m.function id = .ok f → ∃ g, m'.function id = .ok g ∧ f.Labels g
  declared : ∀ {id g}, m'.function id = .ok g →
    (∃ f, m.function id = .ok f) ∨ g.isDeclaration ∧ g.name ∈ reservedNames

/-- What furnishing does to a module. -/
structure Module.Furnishes (m m' : Module) : Prop where
  wellFormed : m'.WellFormed
  width_eq : m'.width = m.width
  globals_eq : m'.globals = m.globals
  function : ∀ {id f}, m.function id = .ok f → ∃ g, m'.function id = .ok g ∧ f.Furnishes g

namespace Module

variable {α β : Type} {edit : Edit Function α}

theorem KeepsHeads.refl : m.KeepsHeads m := ⟨rfl, fun h => ⟨_, h, .refl⟩⟩

theorem KeepsHeads.trans (K : m.KeepsHeads m') (K' : m'.KeepsHeads m'') : m.KeepsHeads m'' where
  width_eq := K'.width_eq.trans K.width_eq
  function h := by
    obtain ⟨g, hg, hfg⟩ := K.function h
    obtain ⟨k, hk, hgk⟩ := K'.function hg
    exact ⟨k, hk, hfg.trans hgk⟩

theorem Furnishes.keepsHeads (F : m.Furnishes m') : m.KeepsHeads m' where
  width_eq := F.width_eq
  function h := by
    obtain ⟨g, hg, hfg⟩ := F.function h
    exact ⟨g, hg, hfg.toKeepsHead⟩

theorem Furnishes.trans (F : m.Furnishes m') (F' : m'.Furnishes m'') : m.Furnishes m'' where
  wellFormed := F'.wellFormed
  width_eq := F'.width_eq.trans F.width_eq
  globals_eq := F'.globals_eq.trans F.globals_eq
  function h := by
    obtain ⟨g, hg, hfg⟩ := F.function h
    obtain ⟨k, hk, hgk⟩ := F'.function hg
    exact ⟨k, hk, hfg.trans hgk⟩

namespace Labels

theorem refl (hm : m.WellFormed) : m.Labels m :=
  ⟨hm, rfl, rfl, fun h => ⟨_, h, .refl⟩, fun h => .inl ⟨_, h⟩⟩

theorem furnishes (L : m.Labels m') : m.Furnishes m' where
  wellFormed := L.wellFormed
  width_eq := L.width_eq
  globals_eq := L.globals_eq
  function h := by
    obtain ⟨g, hg, hfg⟩ := L.function h
    exact ⟨g, hg, hfg.toKeepsHead, fun _ => hfg⟩

theorem trans (L : m.Labels m') (L' : m'.Labels m'') : m.Labels m'' where
  wellFormed := L'.wellFormed
  width_eq := L'.width_eq.trans L.width_eq
  globals_eq := L'.globals_eq.trans L.globals_eq
  function h := by
    obtain ⟨g, hg, hfg⟩ := L.function h
    obtain ⟨k, hk, hgk⟩ := L'.function hg
    exact ⟨k, hk, hfg.trans hgk⟩
  declared {id k} hk := by
    rcases L'.declared hk with ⟨g, hg⟩ | hnew
    · refine (L.declared hg).imp_right fun ⟨hdecl, hname⟩ => ?_
      obtain ⟨k', hk', hgk⟩ := L'.function hg
      cases hk.symm.trans hk'
      rw [hgk.isDeclaration_eq, hgk.name_of_ne (ne_main_of_reserved hname)]
      exact ⟨hdecl, hname⟩
    · exact .inr hnew

theorem push (hm : m.WellFormed) (hname : name ∈ reservedNames) :
    m.Labels (m.push (.declaration m.nextFunction name sig)) where
  wellFormed := hm.push rfl wellFormed_declaration
  width_eq := rfl
  globals_eq := rfl
  function h := ⟨_, function_push_of_eq_ok h, .refl⟩
  declared {id g} hg := by
    rw [function_push] at hg
    split at hg
    · cases hg
      exact .inr ⟨rfl, hname⟩
    · exact .inl ⟨g, hg⟩

theorem setFunction (hm : m.WellFormed) (hf : m.function id = .ok f) (L : f.Labels g)
    (hg : g.WellFormed) : m.Labels (m.setFunction id g) where
  wellFormed := hm.setFunction hf L.id_eq hg
  width_eq := rfl
  globals_eq := rfl
  function {id' f'} h := by
    rw [function_setFunction hf]
    split
    · grind
    · exact ⟨f', h, .refl⟩
  declared {id' g'} h := by
    rw [function_setFunction hf] at h
    split at h
    · rename_i hid
      exact .inl ⟨f, hid ▸ hf⟩
    · exact .inl ⟨g', h⟩

end Labels

theorem Furnishes.refl (hm : m.WellFormed) : m.Furnishes m := (Labels.refl hm).furnishes

/-- An edit that only labels and declares, whatever its outcome, and fails in ordinary ways. -/
def Labelling (edit : Edit Module α) : Prop :=
  ∀ m, m.WellFormed → edit.EndsIn m m.Labels (·.isOrdinary)

theorem Labelling.bind {x : Edit Module α} {f : α → Edit Module β} (hx : Labelling x)
    (hf : ∀ a, Labelling (f a)) : Labelling (x >>= f) := by
  intro m hm
  refine (hx m hm).bind fun a t _ L => ?_
  exact (hf a t L.wellFormed).mono (fun _ L' => L.trans L') fun _ h => h

theorem labelling_pure {a : α} : Labelling (pure a : Edit Module α) :=
  fun _ hm => endsIn_pure (.refl hm)

theorem labelling_mapM {body : α → Edit Module β} {items : List α}
    (h : ∀ a ∈ items, Labelling (body a)) : Labelling (items.mapM body) := by
  induction items with
  | nil => exact labelling_pure
  | cons a rest ih => grind [Labelling.bind, labelling_pure]

/-- An edit that furnishes what has been furnished before. -/
theorem Labelling.furnishes {edit : Edit Module α} (h : Labelling edit) (F : m.Furnishes m') :
    edit.EndsIn m' m.Furnishes (·.isOrdinary) :=
  (h m' F.wellFormed).mono (fun _ L => F.trans L.furnishes) fun _ h => h

/-- What each edit of a loop establishes stays, as long as it depends on heads only. -/
theorem forall₂_of_runs_mapM {body : α → Edit Module β} {D : Module → α → β → Prop} {items : List α}
    {found : List β} (hbody : ∀ a ∈ items, Labelling (body a))
    (keep : ∀ {u v a b}, u.KeepsHeads v → D u a b → D v a b)
    (one : ∀ {u v a b}, u.WellFormed → a ∈ items → (body a).Runs u b v → D v a b)
    (hm : m.WellFormed) (h : (items.mapM body).Runs m found m') :
    List.Forall₂ (D m') items found := by
  induction items generalizing m found with
  | nil =>
    obtain ⟨rfl, -⟩ := runs_mapM_nil.mp h
    exact .nil
  | cons a rest ih =>
    obtain ⟨b, u, found, hone, hrest, rfl⟩ := runs_mapM_cons.mp h
    rw [List.forall_mem_cons] at hbody
    have hu := ((hbody.1 m hm).of_runs hone).wellFormed
    have L : u.Labels m' := (labelling_mapM hbody.2 u hu).of_runs hrest
    exact .cons (keep L.furnishes.keepsHeads (one hm (.head _) hone))
      (ih hbody.2 (fun hu ha => one hu (.tail _ ha)) hu hrest)

theorem ordinary_function : Ordinary (m.function id) := by
  rw [function]
  split
  · exact ordinary_ok
  · exact ordinary_error rfl

theorem onFunction_labels (hm : m.WellFormed)
    (h : ∀ f, m.function id = .ok f → edit.EndsIn f (fun g => f.Labels g ∧ g.WellFormed)
      (·.isOrdinary)) : (onFunction id edit).EndsIn m m.Labels (·.isOrdinary) := by
  refine endsIn_get_bind ((endsIn_ofExcept (.refl hm) ordinary_function).bind fun f t hrun _ => ?_)
  obtain ⟨hf, -⟩ := runs_ofExcept.mp hrun
  have hends := h f hf
  refine (endsIn_set (.setFunction hm hf hends.1.1 hends.1.2)).bind fun _ _ _ h => ?_
  exact endsIn_ofExcept h hends.2

theorem runs_onFunction {a : α} :
    (onFunction id edit).Runs m a m' ↔
      ∃ f g, m.function id = .ok f ∧ edit.Runs f a g ∧ m.setFunction id g = m' := by
  simp only [onFunction, runs_bind, runs_get, runs_ofExcept, runs_set]
  constructor
  · rintro ⟨_, _, ⟨rfl, rfl⟩, f, _, ⟨hf, rfl⟩, _, _, rfl, houtcome, rfl⟩
    exact ⟨f, _, hf, Prod.ext houtcome rfl, rfl⟩
  · rintro ⟨f, g, hf, hedit, rfl⟩
    refine ⟨m, m, ⟨rfl, rfl⟩, f, m, ⟨hf, rfl⟩, ⟨⟩, _, rfl, ?_⟩
    rw [hedit]
    exact ⟨rfl, rfl⟩

/-! ### Declarations -/

theorem declare_endsIn {P : Module → Prop} (hm : P m)
    (hpush : P (m.push (.declaration m.nextFunction name sig))) :
    (declare name sig).EndsIn m P (·.isOrdinary) := by
  refine endsIn_get_bind ?_
  split
  · refine (endsIn_ofExcept hm ordinary_function).bind fun f _ _ h => ?_
    split
    · exact endsIn_pure h
    · exact endsIn_throw h rfl
  · exact (endsIn_set hpush).bind fun _ _ _ h => endsIn_pure h

theorem declare_labelling (hname : name ∈ reservedNames) : Labelling (declare name sig) :=
  fun _ hm => declare_endsIn (.refl hm) (.push hm hname)

theorem declare_cases (h : (declare name sig).Runs m id m') :
    (m.functionNamed? name = some id ∧ (∃ f, m.function id = .ok f ∧ f.signature = sig) ∧ m' = m) ∨
      id = m.nextFunction ∧ m' = m.push (.declaration id name sig) := by
  rw [declare, runs_get_bind] at h
  split at h
  · rename_i found hfound
    simp only [runs_bind, runs_ofExcept, runs_ite, runs_throw, and_false, or_false] at h
    obtain ⟨f, _, ⟨hf, rfl⟩, hsig, rfl, rfl⟩ := h
    exact .inl ⟨hfound, ⟨f, hf, hsig⟩, rfl⟩
  · simp only at h
    obtain ⟨_, _, rfl, rfl, rfl⟩ := h
    exact .inr ⟨rfl, rfl⟩

/-- What is declared can be found under its name, with its signature. -/
theorem function_of_runs_declare (hm : m.WellFormed) (h : (declare name sig).Runs m id m') :
    ∃ f, m'.function id = .ok f ∧ f.name = name ∧ f.signature = sig := by
  rcases declare_cases h with ⟨hfound, ⟨f, hf, hsig⟩, rfl⟩ | ⟨rfl, rfl⟩
  · grind [WellFormed.functionNamed?]
  · exact ⟨_, function_push.trans (if_pos rfl), rfl, rfl⟩

theorem runs_addFlags {all : FunctionFlags} (h : (addFlags id flags).Runs m all m') :
    ∃ f, m.function id = .ok f ∧
      m.setFunction id (f.relabel f.name (f.flags.union flags)) = m' := by
  obtain ⟨f, g, hf, hedit, rfl⟩ := runs_onFunction.mp h
  obtain ⟨_, _, rfl, _, _, ⟨rfl, rfl⟩, -, rfl⟩ := hedit
  exact ⟨f, hf, rfl⟩

/-- Declaring a reserved name and flagging it only labels. -/
theorem declareFlagged_labelling {result : FuncId → α} (hname : name ∈ reservedNames) :
    Labelling (do
      let id ← declare name sig
      let _ ← addFlags id flags
      return result id) := by
  intro m hm
  refine (declare_labelling hname m hm).bind fun id u hrun L => ?_
  obtain ⟨f, hf, hfname, -⟩ := function_of_runs_declare hm hrun
  refine EndsIn.bind ((onFunction_labels L.wellFormed fun f' hf' => ?_).mono
    (fun _ L' => L.trans L') fun _ h => h) fun _ _ _ L => endsIn_pure L
  cases hf.symm.trans hf'
  have hflags : f.Labels { f with flags := f.flags.union flags } :=
    ⟨⟨rfl, rfl, .inl rfl, by rw [← FunctionFlags.union_assoc, FunctionFlags.union_self]⟩, rfl,
      fun h => absurd (hfname ▸ hname) h⟩
  refine (endsIn_modify ⟨hflags, (L.wellFormed.wellFormed hf).relabel⟩).bind fun _ _ _ h => ?_
  exact endsIn_get_bind (endsIn_pure h)

end Module

/-! ### The runtime -/

namespace Routine

theorem eq_of_symbol_eq (h : r.symbol = r'.symbol) : r = r' := by
  have hnodup : (all.map symbol).Nodup := by decide
  exact List.inj_on_of_nodup_map hnodup r.mem_all r'.mem_all h

/-- A function of a module is a routine of the runtime. -/
def DeclaredAt (r : Routine) (m : Module) (id : FuncId) : Prop :=
  ∃ g, m.function id = .ok g ∧ g.name = r.symbol ∧ g.signature = r.signature m.width ∧
    g.flags.runtime

theorem DeclaredAt.of_keepsHeads (K : m.KeepsHeads m') (h : r.DeclaredAt m id) :
    r.DeclaredAt m' id := by
  obtain ⟨g, hg, hname, hsig, hruntime⟩ := h
  obtain ⟨g', hg', hgg'⟩ := K.function hg
  refine ⟨g', hg', ?_, ?_, hgg'.runtime hruntime⟩
  · rw [hgg'.name_of_ne (hname ▸ ne_main_of_reserved r.symbol_reserved), hname]
  · rw [hgg'.signature_eq, hsig, K.width_eq]

end Routine

namespace RoutineTable

/-- The table says where the routines are declared in a module. -/
structure Declared (t : RoutineTable) (m : Module) : Prop where
  width_eq : t.width = m.width
  declaredAt : ∀ r : Routine, r.DeclaredAt m (t.id r)

variable {t : RoutineTable}

theorem Declared.of_keepsHeads (K : m.KeepsHeads m') (h : t.Declared m) : t.Declared m' :=
  ⟨h.width_eq.trans K.width_eq.symm, fun r => (h.declaredAt r).of_keepsHeads K⟩

theorem Declared.callee_injective (h : t.Declared m) (heq : t.callee r = t.callee r') : r = r' := by
  have hid : t.id r = t.id r' := by
    simp only [callee, Operand.const.injEq, Constant.func.injEq] at heq
    exact heq.1
  obtain ⟨g, hg, hname, -⟩ := h.declaredAt r
  obtain ⟨g', hg', hname', -⟩ := h.declaredAt r'
  rw [hid] at hg
  cases hg.symm.trans hg'
  exact Routine.eq_of_symbol_eq (hname.symm.trans hname')

theorem declareOne_labelling {w : PointerWidth} : Labelling (declareOne w r) :=
  declareFlagged_labelling r.symbol_reserved

theorem declare_labelling : Labelling declare := fun m hm =>
  endsIn_get_bind
    (((labelling_mapM fun _ _ => declareOne_labelling).bind fun _ => labelling_pure) m hm)

private theorem declaredAt_of_runs_declareOne (hm : m.WellFormed)
    (h : (declareOne m.width r).Runs m id m') : r.DeclaredAt m' id := by
  simp only [declareOne, runs_bind] at h
  obtain ⟨id, u, hdeclare, _, _, hflags, rfl, rfl⟩ := h
  obtain ⟨f, hf, hname, hsig⟩ := Module.function_of_runs_declare hm hdeclare
  have hwidth := ((Module.declare_labelling r.symbol_reserved m hm).of_runs hdeclare).width_eq
  obtain ⟨f', hf', rfl⟩ := Module.runs_addFlags hflags
  cases hf.symm.trans hf'
  refine ⟨_, Module.function_setFunction_self hf, hname, ?_, ?_⟩
  · rw [relabel, hsig, ← hwidth]
    rfl
  · simp [relabel, FunctionFlags.union]

theorem declared_declare (hm : m.WellFormed) (h : declare.Runs m t m') : t.Declared m' := by
  have L := (declare_labelling m hm).of_runs h
  simp only [declare, runs_bind] at h
  obtain ⟨m, _, ⟨rfl, rfl⟩, ids, _, hids, rfl, rfl⟩ := h
  refine ⟨L.width_eq.symm, fun r => ?_⟩
  -- the width that the signatures are for stays the same
  have hall :=
    Module.forall₂_of_runs_mapM (D := fun v r id => v.width = m.width → r.DeclaredAt v id)
    (fun _ _ => declareOne_labelling)
    (fun K hone hv => (hone (K.width_eq.symm.trans hv)).of_keepsHeads K)
    (fun {u v r id} hu _ hone hv => by
      have hwidth := hv.symm.trans ((declareOne_labelling u hu).of_runs hone).width_eq
      exact declaredAt_of_runs_declareOne hu (hwidth ▸ hone)) hm hids
  have hlt : Routine.all.idxOf r < Routine.all.length := List.idxOf_lt_length_of_mem r.mem_all
  have hlt' : Routine.all.idxOf r < ids.length := hall.length_eq ▸ hlt
  have hget := hall.get hlt hlt'
  rw [List.idxOf_get] at hget
  rw [RoutineTable.id, List.getD_eq_getElem?_getD, List.getElem?_eq_getElem hlt']
  exact hget L.width_eq

end RoutineTable

/-! ### Redirection -/

namespace Function

variable {r : Redirection}

/-- The function after uses of library routines have been redirected, if they have been. -/
def redirected (r? : Option Redirection) (f : Function) : Function :=
  match r? with
  | none => f
  | some r => if f.isTarget then (f.redirect r).1 else f

private theorem redirectInst_relabel {x : ValueId} :
    ((f.relabel name flags).redirectInst r x).1 = (f.redirectInst r x).1.relabel name flags := by
  have hkind : (f.relabel name flags).kind? x = f.kind? x := rfl
  have hvalue : (f.relabel name flags).value? x = f.value? x := rfl
  rw [redirectInst, redirectInst, hkind]
  split
  · rw [modifyInst, modifyInst, hvalue]
    split <;> rfl
  · rfl

theorem redirect_relabel :
    ((f.relabel name flags).redirect r).1 = (f.redirect r).1.relabel name flags := by
  rw [redirect_fst, redirect_fst]
  exact List.foldl_hom (fun f : Function => f.relabel name flags) fun _ _ => redirectInst_relabel

theorem redirect_eq : (f.redirect r).1 = { f with values := (f.redirect r).1.values } := by
  have loop : ∀ (ids : List ValueId) (g : Function), g = { f with values := g.values } →
      ∃ values, ids.foldl (fun f x => (f.redirectInst r x).1) g = { f with values := values } := by
    intro ids
    induction ids with
    | nil => exact fun g hg => ⟨g.values, hg⟩
    | cons x rest ih =>
      intro g hg
      rw [List.foldl_cons]
      apply ih
      rw [redirectInst]
      split
      · dsimp only
        rw [modifyInst]
        split
        · rw [hg]
        · exact hg
      · exact hg
  obtain ⟨values, hvalues⟩ := loop f.listedInsts f rfl
  rw [redirect_fst, hvalues]

theorem redirected_eq :
    f.redirected r? = { f with values := (f.redirected r?).values } := by
  cases r? with
  | none => rfl
  | some r =>
    simp only [redirected]
    split
    · exact redirect_eq
    · rfl

theorem isDeclaration_redirected :
    (f.redirected r?).isDeclaration = f.isDeclaration := by
  rw [redirected_eq]
  rfl

theorem WellFormed.redirect (h : f.WellFormed) : (f.redirect r).1.WellFormed := by
  have R := readdresses_redirect h.tidy r
  refine ⟨R.tidy h.tidy, fun v hv => ?_⟩
  have hparams : (f.redirect r).1.params = f.params := by
    rw [params, R.signature_eq]
    exact congrArg (List.map · _) (funext fun i => congrArg (ValueId.mk · i) R.id_eq)
  obtain ⟨ty, position, hvalue⟩ := h.paramsFirst v (hparams ▸ hv)
  exact ⟨ty, position, R.param hvalue⟩

theorem isDeclaration_of_isTarget (h : f.isTarget) : f.isDeclaration = false := by
  simp only [isTarget, Bool.and_eq_true, Bool.not_eq_true'] at h
  exact h.1

end Function

/-- Is the function a library routine that has a wrapper? -/
def Function.isLibrary (f : Function) : Bool :=
  f.isDeclaration && f.flags.isEmpty && f.name ∈ wrappedLibraryFunctions

theorem Function.isLibrary_iff : f.isLibrary ↔
    f.isDeclaration ∧ f.flags = {} ∧ f.name ∈ wrappedLibraryFunctions := by
  simp [isLibrary, FunctionFlags.isEmpty, and_assoc]

/-- The global after uses of library routines have been redirected, if they have been. -/
def Global.redirected (r? : Option Redirection) (g : Global) : Global :=
  match r? with
  | none => g
  | some r => { g with initializer := g.initializer.map fun c => (r.onConstant c).1 }

/-- What preparing a module does to it. -/
structure Module.Prepares (r? : Option Redirection) (m m' : Module) : Prop where
  wellFormed : m'.WellFormed
  width_eq : m'.width = m.width
  globals_eq : m'.globals = m.globals.map (Global.redirected r?)
  function : ∀ {id f}, m.function id = .ok f →
    ∃ g, m'.function id = .ok g ∧ (f.redirected r?).Furnishes g

/-- Library routines are redirected to their wrappers. -/
def Redirection.Wraps (r : Redirection) (m : Module) : Prop :=
  ∀ a b, (a, b) ∈ r → ∃ f g, m.function a = .ok f ∧ f.name ∈ wrappedLibraryFunctions ∧
    m.function b = .ok g ∧ g.name = wrapperSymbol f.name ∧ g.flags.wrapper

theorem main_not_wrapped : "main" ∉ wrappedLibraryFunctions := by decide

theorem wrapperSymbol_ne_main (name : String) : wrapperSymbol name ≠ "main" := by
  intro h
  have hchars := congrArg String.toList h
  simp [wrapperSymbol, symbolStem] at hchars

theorem Redirection.Wraps.of_keepsHeads {r : Redirection} (K : m.KeepsHeads m') (h : r.Wraps m) :
    r.Wraps m' := by
  intro a b hab
  obtain ⟨f, g, hf, hlibrary, hg, hname, hwrapper⟩ := h a b hab
  obtain ⟨f', hf', hff'⟩ := K.function hf
  obtain ⟨g', hg', hgg'⟩ := K.function hg
  have hfname : f'.name = f.name := hff'.name_of_ne fun e => main_not_wrapped (e ▸ hlibrary)
  have hgname : g'.name = g.name := hgg'.name_of_ne (hname ▸ wrapperSymbol_ne_main _)
  refine ⟨f', g', hf', hfname ▸ hlibrary, hg', ?_, hgg'.wrapper hwrapper⟩
  rw [hgname, hname, hfname]

namespace Module

variable {g' : Function} {r : Redirection} {items : List Draft.Item}

theorem Furnishes.prepares (F : m.Furnishes m') : m.Prepares none m' where
  wellFormed := F.wellFormed
  width_eq := F.width_eq
  globals_eq := by
    rw [F.globals_eq]
    exact (Array.map_id m.globals).symm
  function h := F.function h

theorem Prepares.furnish (P : m.Prepares r? m') (F : m'.Furnishes m'') : m.Prepares r? m'' where
  wellFormed := F.wellFormed
  width_eq := F.width_eq.trans P.width_eq
  globals_eq := F.globals_eq.trans P.globals_eq
  function h := by
    obtain ⟨g, hg, hfg⟩ := P.function h
    obtain ⟨k, hk, hgk⟩ := F.function hg
    exact ⟨k, hk, hfg.trans hgk⟩

/-! #### The functions of the program -/

private theorem map_id_functions (hm : m.WellFormed) :
    m.functions.toList.map Function.id = (List.range m.functions.size).map FuncId.mk := by
  refine List.ext_getElem (by simp) fun i hi hi' => ?_
  have hlt : i < m.functions.size := by simpa using hi
  have hf : m.function ⟨i⟩ = .ok m.functions[i] :=
    function_eq_ok_iff.mpr (Array.getElem?_eq_getElem hlt)
  simpa using hm.id_eq hf

theorem nodup_targets (hm : m.WellFormed) : m.targets.Nodup := by
  have hall : (m.functions.toList.map Function.id).Nodup := by
    rw [map_id_functions hm]
    exact List.nodup_range.map fun i j h => by simpa using h
  exact hall.sublist (List.filter_sublist.map _)

theorem mem_functions (hm : m.WellFormed) : f ∈ m.functions.toList ↔ m.function f.id = .ok f := by
  rw [function_eq_ok_iff, ← Array.getElem?_toList]
  constructor
  · intro hmem
    obtain ⟨i, hi, rfl⟩ := List.mem_iff_getElem.mp hmem
    have hf : m.function ⟨i⟩ = .ok m.functions.toList[i] := by
      rw [function_eq_ok_iff]
      simp
    rw [hm.id_eq hf]
    exact List.getElem?_eq_getElem hi
  · exact List.mem_of_getElem?

theorem mem_targets (hm : m.WellFormed) :
    id ∈ m.targets ↔ ∃ f, m.function id = .ok f ∧ f.isTarget := by
  simp only [targets, List.mem_map, List.mem_filter, mem_functions hm]
  constructor
  · grind
  · grind [WellFormed.id_eq]

theorem Furnishes.exists_target (F : m.Furnishes m') (hm : m.WellFormed) :
    ∀ id ∈ m.targets, ∃ f, m'.function id = .ok f := by
  intro id hid
  obtain ⟨f, hf, -⟩ := (mem_targets hm).mp hid
  obtain ⟨g, hg, -⟩ := F.function hf
  exact ⟨g, hg⟩

/-! #### Redirecting all of them -/

theorem runs_redirectFunction {n : Nat} : (redirectFunction r id).Runs m n m' ↔
    ∃ f, m.function id = .ok f ∧ (f.redirect r).2 = n ∧ m.setFunction id (f.redirect r).1 = m' := by
  rw [redirectFunction, runs_onFunction]
  constructor
  · simp
  · simp

/-- Functions of the module are redirected, and nothing can go wrong. -/
theorem runs_redirectFunctions (hnodup : ids.Nodup)
    (hids : ∀ id ∈ ids, ∃ f, m.function id = .ok f) :
    ∃ counts m', (ids.mapM (redirectFunction r)).Runs m counts m' ∧ m'.width = m.width ∧
      m'.globals = m.globals ∧ ∀ id, m'.function id =
        (m.function id).map fun f => if id ∈ ids then (f.redirect r).1 else f := by
  induction ids generalizing m with
  | nil =>
    refine ⟨[], m, runs_mapM_nil.mpr ⟨rfl, rfl⟩, rfl, rfl, fun id => ?_⟩
    cases m.function id <;> simp [Except.map]
  | cons first rest ih =>
    obtain ⟨hfirst, hnodup⟩ := List.nodup_cons.mp hnodup
    obtain ⟨f, hf⟩ := hids first (.head _)
    have hset : ∀ other, (m.setFunction first (f.redirect r).1).function other =
        if other = first then .ok (f.redirect r).1 else m.function other :=
      fun _ => function_setFunction hf
    obtain ⟨counts, m', hrest, hwidth, hglobals, hfunction⟩ := ih hnodup
      (m := m.setFunction first (f.redirect r).1) fun id hid => by grind
    refine ⟨_, m',
      runs_mapM_cons.mpr ⟨_, _, _, runs_redirectFunction.mpr ⟨f, hf, rfl, rfl⟩, hrest, rfl⟩,
      hwidth, hglobals, fun id => ?_⟩
    rw [hfunction, hset]
    by_cases hid : id = first
    · subst hid
      simp [hf, Except.map, hfirst]
    · simp [hid]

theorem name_of_mem_libraryFunctions (hf : f ∈ m.libraryFunctions) :
    f.name ∈ wrappedLibraryFunctions :=
  (isLibrary_iff.mp (List.mem_filter.mp hf).2).2.2

theorem declareWrappers_labelling : Labelling (m.libraryFunctions.mapM declareWrapper) :=
  labelling_mapM fun _ hf =>
    declareFlagged_labelling (wrapperSymbol_reserved (name_of_mem_libraryFunctions hf))

/-- The wrapper of a library routine stands at a handle: it is named after the routine, has its
signature, and is flagged. -/
def WrapperAt (m : Module) (f : Function) (id : FuncId) : Prop :=
  ∃ g, m.function id = .ok g ∧ g.name = wrapperSymbol f.name ∧ g.signature = f.signature ∧
    g.flags.wrapper

theorem WrapperAt.of_keepsHeads (K : m.KeepsHeads m') (h : m.WrapperAt f id) :
    m'.WrapperAt f id := by
  obtain ⟨g, hg, hname, hsig, hwrapper⟩ := h
  obtain ⟨g', hg', hgg'⟩ := K.function hg
  refine ⟨g', hg', ?_, hgg'.signature_eq.trans hsig, hgg'.wrapper hwrapper⟩
  rw [hgg'.name_of_ne (hname ▸ wrapperSymbol_ne_main _), hname]

theorem wrapperAt_of_runs_declareWrappers (hm : m.WellFormed)
    (h : (m.libraryFunctions.mapM declareWrapper).Runs m r m') :
    List.Forall₂ (fun f entry => entry.1 = f.id ∧ m'.WrapperAt f entry.2) m.libraryFunctions r := by
  refine forall₂_of_runs_mapM (D := fun v f entry => entry.1 = f.id ∧ v.WrapperAt f entry.2)
    (fun _ hf => declareFlagged_labelling
      (wrapperSymbol_reserved (name_of_mem_libraryFunctions hf)))
    (fun K => And.imp_right (.of_keepsHeads K)) (fun {u v f entry} hu _ hone => ?_) hm h
  simp only [runs_bind] at hone
  obtain ⟨id, w, hdeclare, _, _, hflags, rfl, rfl⟩ := hone
  obtain ⟨g, hg, hname, hsig⟩ := function_of_runs_declare hu hdeclare
  obtain ⟨g', hg', rfl⟩ := runs_addFlags hflags
  cases hg.symm.trans hg'
  refine ⟨rfl, _, function_setFunction_self hg, hname, hsig, ?_⟩
  simp [relabel, FunctionFlags.union]

theorem mem_libraryFunctions (hm : m.WellFormed) :
    f ∈ m.libraryFunctions ↔ m.function f.id = .ok f ∧ f.isLibrary := by
  rw [← mem_functions hm]
  exact List.mem_filter

/-- Entries for library routines lead to their wrappers. -/
theorem wraps_of_runs_declareWrappers (hm : m.WellFormed)
    (h : (m.libraryFunctions.mapM declareWrapper).Runs m r m') : r.Wraps m' := by
  intro a b hab
  obtain ⟨f, hf, rfl, g, hg, hname, -, hwrapper⟩ :=
    exists_of_forall₂ (wrapperAt_of_runs_declareWrappers hm h) hab
  obtain ⟨hf, hlibrary⟩ := (mem_libraryFunctions hm).mp hf
  obtain ⟨-, -, hlibrary⟩ := isLibrary_iff.mp hlibrary
  obtain ⟨f', hf', hff'⟩ := ((declareWrappers_labelling m hm).of_runs h).function hf
  have hfname : f'.name = f.name := hff'.name_of_ne fun e => main_not_wrapped (e ▸ hlibrary)
  exact ⟨f', g, hf', hfname ▸ hlibrary, hg, hfname ▸ hname, hwrapper⟩

theorem globals_redirectGlobals :
    (m.redirectGlobals r).1.globals = m.globals.map (Global.redirected (some r)) := by
  simp only [redirectGlobals, Array.map_map]
  refine congrArg (Array.map · m.globals) (funext fun g => ?_)
  obtain ⟨id, name, ty, initializer, constant⟩ := g
  cases initializer <;> rfl

/-- The functions of some handles are redirected, and the initializers of all globals. -/
structure Redirects (r : Redirection) (ids : List FuncId) (m m' : Module) : Prop where
  width_eq : m'.width = m.width
  globals_eq : m'.globals = m.globals.map (Global.redirected (some r))
  function_eq : ∀ id, m'.function id =
    (m.function id).map fun f => if id ∈ ids then (f.redirect r).1 else f

/-- Redirect uses in some functions and in the initializers, and count. -/
def redirectAll (r : Redirection) (ids : List FuncId) : Edit Module Nat := do
  let counts ← ids.mapM (redirectFunction r)
  let (m, n) := (← get).redirectGlobals r
  set m
  return counts.foldl (· + ·) n

/-- Where the functions are known, redirecting them and the initializers cannot fail. -/
theorem runs_redirect (hnodup : ids.Nodup) (hids : ∀ id ∈ ids, ∃ f, m.function id = .ok f) :
    ∃ n m', (redirectAll r ids).Runs m n m' ∧ m.Redirects r ids m' := by
  obtain ⟨counts, u, hrun, hwidth, hglobals, hfunction⟩ := runs_redirectFunctions hnodup hids
  refine ⟨counts.foldl (· + ·) (u.redirectGlobals r).2, (u.redirectGlobals r).1, ?_, hwidth, ?_,
    hfunction⟩
  · simp only [redirectAll, runs_bind, runs_get, runs_pure]
    exact ⟨counts, u, hrun, u, u, ⟨rfl, rfl⟩, ⟨⟩, _, rfl, rfl, rfl⟩
  · rw [globals_redirectGlobals, hglobals]

namespace Redirects

section

variable (R : m.Redirects r ids m')

include R

/-- A function keeps its head, and stays as it is unless it is redirected. -/
theorem function (h : m.function id = .ok f) :
    m'.function id = .ok (if id ∈ ids then (f.redirect r).1 else f) := by
  rw [R.function_eq, h]
  rfl

private theorem exists_of_function (h : m'.function id = .ok g) :
    ∃ f, m.function id = .ok f ∧ g = if id ∈ ids then (f.redirect r).1 else f := by
  rw [R.function_eq] at h
  cases hf : m.function id with
  | error e =>
    rw [hf] at h
    cases h
  | ok f =>
    rw [hf] at h
    exact ⟨f, rfl, (Except.ok.inj h).symm⟩

theorem wellFormed (hm : m.WellFormed) : m'.WellFormed := by
  constructor
  · intro id g hg
    obtain ⟨f, hf, rfl⟩ := R.exists_of_function hg
    rw [← hm.id_eq hf]
    split
    · exact (readdresses_redirect (hm.wellFormed hf).tidy r).id_eq
    · rfl
  · grind [exists_of_function, WellFormed.redirect, WellFormed.wellFormed]

theorem keepsHeads : m.KeepsHeads m' where
  width_eq := R.width_eq
  function {id f} h := by
    refine ⟨_, R.function h, ?_⟩
    split
    · rw [redirect_eq]
      exact .of_sameHead rfl
    · exact .refl

end

/-- Redirecting the functions of the program in a module that has been furnished. -/
theorem prepares (R : m'.Redirects r m.targets m'') (hm : m.WellFormed) (F : m.Furnishes m') :
    m.Prepares (some r) m'' where
  wellFormed := R.wellFormed F.wellFormed
  width_eq := R.width_eq.trans F.width_eq
  globals_eq := by rw [R.globals_eq, F.globals_eq]
  function {id f} h := by
    obtain ⟨g, hg, hfg⟩ := F.function h
    refine ⟨_, R.function hg, ?_⟩
    have htarget : id ∈ m.targets ↔ f.isTarget := by
      rw [mem_targets hm, h]
      simp
    rw [redirected]
    by_cases hid : id ∈ m.targets
    · -- a function of the program has a body, so furnishing has only relabelled it
      have htarget := htarget.mp hid
      have hbody := hfg.body (isDeclaration_of_isTarget htarget)
      have L : ((f.redirect r).1).Labels ((f.redirect r).1.relabel g.name g.flags) := by
        rw [redirect_eq]
        exact ⟨⟨rfl, rfl, hbody.name_eq, hbody.flags_le⟩, rfl, hbody.flags_eq⟩
      rw [if_pos hid, if_pos htarget, hbody.eq_relabel, redirect_relabel]
      exact ⟨L.toKeepsHead, fun _ => L⟩
    · grind

end Redirects

/-- A module has been prepared, and what uses of library routines are redirected to are their
wrappers. -/
def Readies (m m' : Module) : Prop := ∃ r?, m.Prepares r? m' ∧ ∀ r, r? = some r → r.Wraps m'

theorem Furnishes.readies (F : m.Furnishes m') : m.Readies m' := ⟨none, F.prepares, nofun⟩

theorem Readies.furnish (h : m.Readies m') (F : m'.Furnishes m'') : m.Readies m'' := by
  obtain ⟨r?, P, hwraps⟩ := h
  exact ⟨r?, P.furnish F, fun r hr => (hwraps r hr).of_keepsHeads F.keepsHeads⟩

/-- Whatever happens, uses of library routines are redirected everywhere or nowhere. -/
theorem wrapLibraryCalls_endsIn (hm : m.WellFormed) (F : m.Furnishes m') :
    (wrapLibraryCalls m.targets).EndsIn m' (fun u => m.Readies u ∧ m'.KeepsHeads u)
      (·.isOrdinary) := by
  refine endsIn_get_bind ?_
  dsimp only
  split
  · exact endsIn_pure ⟨F.readies, .refl⟩
  · have hdeclare : (m'.libraryFunctions.mapM declareWrapper).EndsIn m' m'.Furnishes
        (·.isOrdinary) := declareWrappers_labelling.furnishes (.refl F.wellFormed)
    refine (hdeclare.mono (fun _ F' => ⟨(F.trans F').readies, F'.keepsHeads⟩) fun _ h => h).bind
      fun r u hrun _ => ?_
    have F' : m'.Furnishes u := hdeclare.of_runs hrun
    obtain ⟨n, v, hredirect, R⟩ :=
      runs_redirect (r := r) (nodup_targets hm) ((F.trans F').exists_target hm)
    refine .of_end hredirect ⟨⟨some r, R.prepares hm (F.trans F'), fun r' hr' => ?_⟩,
      F'.keepsHeads.trans R.keepsHeads⟩
    cases hr'
    exact (wraps_of_runs_declareWrappers F.wellFormed hrun).of_keepsHeads R.keepsHeads

/-! ### Renaming `main` -/

theorem renameMain_labelling : Labelling renameMain := by
  refine fun m hm => endsIn_get_bind ?_
  split
  · rename_i id hmain
    obtain ⟨f, hf, hname⟩ := hm.functionNamed? hmain
    have renamed : (onFunction id (modify fun f => { f with name := pseudoMain })).EndsIn m
        m.Labels (·.isOrdinary) := by
      refine onFunction_labels hm fun f' hf' => ?_
      cases hf.symm.trans hf'
      have L : f.Labels { f with name := pseudoMain } :=
        ⟨⟨rfl, rfl, .inr ⟨hname, rfl⟩, FunctionFlags.union_self⟩, rfl, fun _ => rfl⟩
      exact endsIn_modify ⟨L, (hm.wellFormed hf).relabel⟩
    refine (endsIn_ofExcept (.refl hm) ordinary_function).bind fun _ _ hrun _ => ?_
    obtain ⟨-, rfl⟩ := runs_ofExcept.mp hrun
    split
    · exact endsIn_pure (.refl hm)
    · refine EndsIn.bind (endsIn_get_bind ?_) fun _ _ _ F => endsIn_pure F
      split
      · split
        · exact renamed
        · exact endsIn_throw_bind (.refl hm) rfl
      · exact renamed
  · exact endsIn_pure (.refl hm)

/-! ### The constructor -/

theorem furnishes_push (hm : m.WellFormed) :
    m.Furnishes (m.push (.declaration m.nextFunction name sig)) where
  wellFormed := hm.push rfl wellFormed_declaration
  width_eq := rfl
  globals_eq := rfl
  function h := ⟨_, function_push_of_eq_ok h, .refl, fun _ => .refl⟩

theorem Furnishes.setBody (F : m.Furnishes m')
    (hnone : ∀ f, m.function id = .ok f → f.isDeclaration) (hg : m'.function id = .ok g)
    (K : g.KeepsHead g') (hg' : g'.WellFormed) : m.Furnishes (m'.setFunction id g') where
  wellFormed := F.wellFormed.setFunction hg K.id_eq hg'
  width_eq := F.width_eq
  globals_eq := F.globals_eq
  function {id' f} hf := by
    obtain ⟨k, hk, hfk⟩ := F.function hf
    rw [function_setFunction hg]
    split
    · rename_i hid
      subst hid
      cases hg.symm.trans hk
      refine ⟨g', rfl, hfk.toKeepsHead.trans K, fun hbody => ?_⟩
      rw [hnone f hf] at hbody
      cases hbody
    · exact ⟨k, hk, hfk⟩

/-- Where there was no body, a function may be changed. -/
theorem Furnishes.onFunction {α : Type} {edit : Edit Function α} (F : m.Furnishes m')
    (hnone : ∀ f, m.function id = .ok f → f.isDeclaration)
    (h : ∀ g, g.WellFormed → edit.EndsIn g (fun g' => g.KeepsHead g' ∧ g'.WellFormed)
      (·.isOrdinary)) : (onFunction id edit).EndsIn m' m.Furnishes (·.isOrdinary) := by
  refine endsIn_get_bind ((endsIn_ofExcept F ordinary_function).bind fun g _ hrun _ => ?_)
  obtain ⟨hg, -⟩ := runs_ofExcept.mp hrun
  have hends := h g (F.wellFormed.wellFormed hg)
  refine (endsIn_set (F.setBody hnone hg hends.1.1 hends.1.2)).bind fun _ _ _ h => ?_
  exact endsIn_ofExcept h hends.2

theorem isDeclaration_of_furnishes (F : m.Furnishes m') (hg : m'.function id = .ok g)
    (hdecl : g.isDeclaration) : ∀ f, m.function id = .ok f → f.isDeclaration := by
  intro f hf
  obtain ⟨k, hk, hfk⟩ := F.function hf
  cases hg.symm.trans hk
  by_contra hbody
  rw [Bool.not_eq_true] at hbody
  rw [hfk.isDeclaration hbody] at hdecl
  cases hdecl

theorem define_endsIn (hm : m.WellFormed)
    (hparams : Draft.missingParam? sig.params.length items = none) :
    (define name sig items).EndsIn m m.Furnishes (·.isOrdinary) := by
  refine (declare_endsIn (.refl hm) (furnishes_push hm)).bind fun id u hrun F => endsIn_get_bind ?_
  refine (endsIn_ofExcept F ordinary_function).bind fun f v hrun F' => ?_
  obtain ⟨hf, rfl⟩ := runs_ofExcept.mp hrun
  dsimp only
  split
  · rename_i hdecl
    split
    · grind
    · split
      · rename_i g values hbuild
        obtain ⟨hg, H⟩ := Draft.build_wellFormed (F.wellFormed.wellFormed hf) hbuild
        refine (endsIn_set ?_).bind fun _ _ _ F => endsIn_pure F
        exact F.setBody (isDeclaration_of_furnishes F hf hdecl) hf (.of_sameHead H) hg
      · exact endsIn_throw F rfl
  · exact endsIn_throw_bind F rfl

/-- What is defined had no body, and has one now. Nothing changes at other handles. -/
theorem function_of_runs_define {values : List (Option ValueId)} (hm : m.WellFormed)
    (h : (define name sig items).Runs m (id, values) m') :
    (∀ f, m.function id = .ok f → f.isDeclaration) ∧
      (∀ other, other ≠ id → m'.function other = m.function other) ∧ ∃ u f g, m.Furnishes u ∧
      u.function id = .ok f ∧ f.isDeclaration ∧ f.name = name ∧ f.signature = sig ∧
      Draft.build u f items = .ok (g, values) ∧ m' = u.setFunction id g := by
  simp only [define, runs_bind] at h
  obtain ⟨id', u, hdeclare, _, _, hget, h⟩ := h
  obtain ⟨rfl, rfl⟩ := runs_get.mp hget
  have F : m.Furnishes _ :=
    (declare_endsIn (.refl hm) (furnishes_push hm)).of_runs hdeclare
  simp only [runs_ofExcept] at h
  obtain ⟨f, _, ⟨hf, rfl⟩, h⟩ := h
  obtain ⟨f', hf', hname, hsig⟩ := function_of_runs_declare hm hdeclare
  cases hf.symm.trans hf'
  rcases runs_ite.mp h with ⟨hdecl, h⟩ | ⟨-, h⟩
  · split at h
    · simp at h
    · split at h
      · rename_i g values' hbuild
        obtain ⟨_, _, rfl, ⟨rfl, rfl⟩, rfl⟩ := h
        refine ⟨isDeclaration_of_furnishes F hf hdecl, fun other hne => ?_, _, f, g, F,
          hf, hdecl, hname, hsig, hbuild, rfl⟩
        rw [function_setFunction hf, if_neg hne]
        rcases declare_cases hdeclare with ⟨-, -, rfl⟩ | ⟨rfl, rfl⟩
        · rfl
        · exact function_push.trans (if_neg hne)
      · simp at h
  · simp at h

theorem function_of_runs_addConstructor {other : FuncId} (h : (addConstructor id).Runs m ⟨⟩ m') :
    m'.function other = m.function other := by
  rw [addConstructor, runs_get_bind] at h
  simp only [runs_bind, runs_ofExcept] at h
  obtain ⟨f, _, ⟨-, rfl⟩, h⟩ := h
  rcases runs_ite.mp h with ⟨-, h⟩ | ⟨-, h⟩
  · obtain ⟨-, rfl⟩ := runs_pure.mp h
    rfl
  · rw [← runs_set.mp h]
    rfl

theorem addConstructor_labelling : Labelling (addConstructor id) := by
  refine fun m hm => endsIn_get_bind ?_
  refine (endsIn_ofExcept (.refl hm) ordinary_function).bind fun _ _ _ L => ?_
  split
  · exact endsIn_pure L
  · exact endsIn_set ⟨⟨hm.id_eq, hm.wellFormed⟩, rfl, rfl, fun h => ⟨_, h, .refl⟩,
      fun h => .inl ⟨_, h⟩⟩

end Module

mutual

theorem PointerField.ordinary_collect {address value : Constant} {path : List Nat} :
    ∀ ty, Ordinary (PointerField.collect address path value ty)
  | .ptr pointee => by
    rw [PointerField.collect]
    split <;> exact ordinary_ok
  | .array elem len => by
    rw [PointerField.collect]
    split
    · exact ordinary_ok
    · refine (ordinary_mapM fun (element, index) _ => PointerField.ordinary_collect elem).bind
        fun _ _ => ?_
      split
      · exact ordinary_error rfl
      · exact ordinary_ok
  | .struct members => by
    rw [PointerField.collect]
    split
    · exact ordinary_ok
    · exact PointerField.ordinary_collectMembers members
  | .void | .int _ | .float | .double | .func .. => by
    rw [PointerField.collect]
    exact ordinary_ok

theorem PointerField.ordinary_collectMembers {address value : Constant} {path : List Nat}
    {index : Nat} :
    ∀ members, Ordinary (PointerField.collectMembers address path value index members)
  | [] => by
    rw [PointerField.collectMembers]
    exact ordinary_ok
  | member :: members => by
    rw [PointerField.collectMembers]
    split
    · split
      · exact ordinary_error rfl
      · refine (PointerField.ordinary_collect member).bind fun _ _ => ?_
        exact (PointerField.ordinary_collectMembers members).bind fun _ _ => ordinary_ok
    · exact PointerField.ordinary_collectMembers members

end

namespace Module

theorem ordinary_pointerFields : Ordinary m.pointerFields := by
  refine (ordinary_mapM fun g _ => ?_).map
  rw [pointerFieldsOf]
  split
  · exact ordinary_ok
  · exact PointerField.ordinary_collect _

/-- Recording fields lets the constructor grow, whatever the outcome. -/
theorem seedFields_grows (i : Interface) (routines : RoutineTable) (config : Config)
    (fields : List PointerField) (g : Function) :
    (splice (.beforeTerminator ⟨0⟩) (seedFields i routines config fields)).EndsIn g
      (g.Grows routines Any) (·.isOrdinary) :=
  splice_endsIn (T := .plain Any) .refl (fun _ _ _ hlocate spins =>
    (spins.adds.grows (fun _ h => h) (place_beforeTerminator hlocate)).1) fun _ _ =>
      heeds_seedFields Splice.carries_true False.elim fun _ _ => ⟨trivial, False.elim⟩

theorem seedGlobals_endsIn {routines : RoutineTable} {config : Config} (hm : m.WellFormed) :
    (seedGlobals routines config).EndsIn m m.Furnishes (·.isOrdinary) := by
  refine endsIn_get_bind ?_
  refine (endsIn_ofExcept (.refl hm) ordinary_pointerFields).bind fun fields u hrun _ => ?_
  obtain ⟨-, rfl⟩ := runs_ofExcept.mp hrun
  split
  · exact endsIn_pure (.refl hm)
  refine (define_endsIn hm rfl).bind fun defined u hdefine F => ?_
  obtain ⟨hnone, -⟩ := function_of_runs_define hm hdefine
  refine (addConstructor_labelling.furnishes F).bind fun _ _ _ F => ?_
  refine EndsIn.bind (F.onFunction hnone fun g hg => ?_) fun _ _ _ F =>
    (F.onFunction hnone fun g hg => ?_).bind fun _ _ _ F => endsIn_pure F
  · refine (endsIn_modify ⟨⟨rfl, rfl, .inl rfl, ?_⟩, hg.relabel⟩).bind fun _ _ _ h =>
      endsIn_get_bind (endsIn_pure h)
    rw [← FunctionFlags.union_assoc, FunctionFlags.union_self]
  · exact (seedFields_grows _ routines config fields g).mono
      (fun k G => ⟨.of_sameHead G.sameHead, hg.of_grows G⟩) fun _ h => h

end Module

end PointerGuard
