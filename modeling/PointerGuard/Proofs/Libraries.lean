import PointerGuard.Proofs.ModuleValidity

/-!
# Library routines and their wrappers

Redirecting rewrites the functions that constants name, in instructions and in initializers, however
deep they are, and counts what it rewrites. Where no redirected function is named nothing happens.
Library routines are told by their names, by having no body, and by the absence of flags.
Preparation touches no function that is called like one, so which uses are redirected can be told
from the module one starts with.
-/

namespace PointerGuard

open Edit PointerGuard.Function

variable {id : FuncId} {n : Nat} {counts : List Nat} {r : Redirection} {kind : InstKind}
  {change : FuncId → FuncId} {f g : Function} {m m' : Module} {ids : List FuncId}

theorem foldl_add_eq_sum {α : Type} {count : α → Nat} {items : List α} :
    items.foldl (fun n a => n + count a) n = n + (items.map count).sum := by
  induction items generalizing n with
  | nil => rfl
  | cons a rest ih => grind

theorem foldl_eq_add_sum : counts.foldl (· + ·) n = n + counts.sum :=
  foldl_add_eq_sum.trans (by rw [List.map_id'])

/-! ### Single constants -/

namespace Redirection

/-- Is the function redirected? -/
def maps (r : Redirection) (id : FuncId) : Bool := (r.lookup id).isSome

/-- The function to use instead; a function that is not redirected stays in use. -/
def target (r : Redirection) (id : FuncId) : FuncId := (r.lookup id).getD id

theorem target_of_not_maps (h : r.maps id = false) : r.target id = id := by
  rw [maps, Option.isSome_eq_false_iff, Option.isNone_iff_eq_none] at h
  rw [target, h, Option.getD_none]

theorem lookup_of_maps (h : r.maps id) : r.lookup id = some (r.target id) := by
  obtain ⟨b, hb⟩ := Option.isSome_iff_exists.mp h
  rw [target, hb, Option.getD_some]

theorem onConstant_eq {c : Constant} :
    r.onConstant c = (c.mapFunctions r.target, c.functions.countP r.maps) :=
  c.redirect_eq

theorem onConstant_fst : (fun c => (r.onConstant c).1) = Constant.mapFunctions r.target :=
  funext fun _ => by rw [onConstant_eq]

theorem onOperand_eq {operand : Operand} :
    r.onOperand operand = (operand.mapFunctions r.target, operand.functions.countP r.maps) := by
  cases operand with
  | value v => rfl
  | const c => rw [onOperand, onConstant_eq]; rfl

theorem usesIn_eq : r.usesIn kind = kind.functions.countP r.maps := by
  rw [usesIn, foldl_add_eq_sum, Nat.zero_add, InstKind.functions, List.countP_flatMap]
  exact congrArg List.sum (List.map_congr_left fun _ _ => by rw [onOperand_eq]; rfl)

theorem onOperand_fst : (fun operand => (r.onOperand operand).1) = Operand.mapFunctions r.target :=
  funext fun _ => by rw [onOperand_eq]

end Redirection

namespace InstKind

theorem functions_mapOperands :
    (kind.mapOperands (Operand.mapFunctions change)).functions = kind.functions.map change := by
  rw [functions, functions, operands_mapOperands, List.flatMap_map, List.map_flatMap]
  exact congrArg (List.flatMap · kind.operands) (funext fun _ => Operand.functions_mapFunctions)

theorem mapOperands_eq_self (h : ∀ id ∈ kind.functions, change id = id) :
    kind.mapOperands (Operand.mapFunctions change) = kind := by
  have hsame : ∀ operand ∈ kind.operands, operand.mapFunctions change = operand :=
    fun operand hoperand => Operand.mapFunctions_eq_self fun id hid =>
      h id (mem_functions.mpr ⟨operand, hoperand, hid⟩)
  have hlist : ∀ operands : List Operand,
      (∀ operand ∈ operands, operand.mapFunctions change = operand) →
      operands.map (Operand.mapFunctions change) = operands :=
    fun _ h => List.map_congr_left h |>.trans (List.map_id _)
  cases kind with
  | alloca allocated count | ret count => cases count <;> simp_all [mapOperands, operands]
  | phi incoming =>
    refine congrArg InstKind.phi ((List.map_congr_left fun edge hedge => ?_).trans (List.map_id _))
    exact Prod.ext (hsame _ (List.mem_map_of_mem hedge)) rfl
  | gep base indices | call base indices sig =>
    simp only [operands, List.forall_mem_cons] at hsame
    rw [mapOperands, hsame.1, hlist _ hsame.2]
  | _ => simp_all [mapOperands, operands]

end InstKind

/-! ### Functions -/

namespace Function

variable {x : ValueId}

/-- The functions that an instruction of the function names. -/
def namedAt (f : Function) (x : ValueId) : List FuncId :=
  match f.kind? x with
  | some kind => kind.functions
  | none => []

/-- The functions that the listed instructions of a function name, each as often as it is named. -/
def named (f : Function) : List FuncId := f.listedInsts.flatMap f.namedAt

theorem namedAt_of_kind? (h : f.kind? x = some kind) :
    f.namedAt x = kind.functions := by
  rw [namedAt, h]

theorem namedAt_congr (h : g.kind? x = f.kind? x) : g.namedAt x = f.namedAt x := by
  rw [namedAt, namedAt, h]

theorem exists_of_mem_listedInsts (h : x ∈ f.listedInsts) :
    ∃ b kind, x ∈ f.instsOf b ∧ f.kind? x = some kind := by
  obtain ⟨hlisted, hinst⟩ := List.mem_filter.mp h
  obtain ⟨b, hb⟩ := mem_listing.mp hlisted
  obtain ⟨inst, hinst⟩ := Option.isSome_iff_exists.mp hinst
  exact ⟨b, inst.kind, hb, kind?_of_inst? hinst⟩

theorem mem_named {a : FuncId} : a ∈ f.named ↔
    ∃ b x kind, x ∈ f.instsOf b ∧ f.kind? x = some kind ∧ a ∈ kind.functions := by
  rw [named, List.mem_flatMap]
  constructor
  · rintro ⟨x, hx, ha⟩
    obtain ⟨b, kind, hb, hkind⟩ := exists_of_mem_listedInsts hx
    exact ⟨b, x, kind, hb, hkind, namedAt_of_kind? hkind ▸ ha⟩
  · rintro ⟨b, x, kind, hx, hkind, ha⟩
    obtain ⟨inst, hinst, -⟩ := kind?_eq_some_iff.mp hkind
    refine ⟨x, List.mem_filter.mpr ⟨mem_listing.mpr ⟨b, hx⟩, by rw [hinst]; rfl⟩, ?_⟩
    rwa [namedAt_of_kind? hkind]

theorem redirectInst_snd : (f.redirectInst r x).2 = (f.namedAt x).countP r.maps := by
  cases hkind : f.kind? x with
  | none => simp [redirectInst, namedAt, hkind]
  | some kind => simp [redirectInst, namedAt, hkind, Redirection.usesIn_eq]

/-- Redirecting an instruction that names no function to redirect changes nothing. -/
theorem redirectInst_eq_self (h : ∀ a ∈ f.namedAt x, r.maps a = false) :
    (f.redirectInst r x).1 = f := by
  cases hkind : f.kind? x with
  | none => rw [redirectInst, hkind]
  | some kind =>
    obtain ⟨inst, ty, rfl, hvalue⟩ := value?_of_kind? hkind
    have hsame : inst.kind.mapOperands (Operand.mapFunctions r.target) = inst.kind := by
      rw [namedAt_of_kind? hkind] at h
      exact InstKind.mapOperands_eq_self fun a ha => Redirection.target_of_not_maps (h a ha)
    have hset : f.values.setIfInBounds x.index ⟨ty, .inst inst⟩ = f.values := by
      rw [value?] at hvalue
      split at hvalue
      · exact Array.ext_getElem? fun i => by grind
      · cases hvalue
    rw [redirectInst, hkind]
    dsimp only
    rw [Redirection.onOperand_fst, hsame, modifyInst, hvalue]
    dsimp only
    rw [hset]

/-- Redirecting counts the places where a function that is redirected is named. -/
theorem redirect_snd (T : f.Tidy) : (f.redirect r).2 = f.named.countP r.maps := by
  -- what is still to be redirected names the same functions as before
  have loop : ∀ (ids : List ValueId) (g : Function) (n : Nat), ids.Nodup →
      (∀ y ∈ ids, (g.inst? y).isSome) →
      (ids.foldl (fun acc id =>
        ((acc.1.redirectInst r id).1, acc.2 + (acc.1.redirectInst r id).2)) (g, n)).2 =
        n + (ids.flatMap g.namedAt).countP r.maps := by
    intro ids
    induction ids with
    | nil => exact fun g n _ _ => rfl
    | cons x rest ih =>
      intro g n hnodup hids
      obtain ⟨hx, hnodup⟩ := List.nodup_cons.mp hnodup
      have R : Redirected r g [x] (g.redirectInst r x).1 :=
        redirected_redirectInst (hids x (.head _))
      have hrest : ∀ y ∈ rest, (g.redirectInst r x).1.value? y = g.value? y := fun y hy =>
        R.rest y fun e => hx (List.mem_singleton.mp e ▸ hy)
      have hnamed : rest.flatMap (g.redirectInst r x).1.namedAt = rest.flatMap g.namedAt :=
        List.flatMap_congr fun y hy => namedAt_congr (kind?_congr (hrest y hy))
      refine (ih (g.redirectInst r x).1 (n + (g.redirectInst r x).2) hnodup fun y hy => ?_).trans ?_
      · rw [inst?_congr (hrest y hy)]
        exact hids y (.tail _ hy)
      · rw [hnamed, redirectInst_snd, List.flatMap_cons, List.countP_append, Nat.add_assoc]
  refine (loop f.listedInsts f 0 (T.nodup_listing.filter _) fun y hy => ?_).trans (Nat.zero_add _)
  exact (List.mem_filter.mp hy).2

/-- Where no function to redirect is named, redirecting changes nothing. -/
theorem redirect_eq_self (h : ∀ a ∈ f.named, r.maps a = false) : f.redirect r = (f, 0) := by
  have loop : ∀ ids : List ValueId, (∀ x ∈ ids, ∀ a ∈ f.namedAt x, r.maps a = false) →
      ids.foldl (fun acc id =>
        ((acc.1.redirectInst r id).1, acc.2 + (acc.1.redirectInst r id).2)) (f, 0) = (f, 0) := by
    intro ids
    induction ids with
    | nil => exact fun _ => rfl
    | cons x rest ih =>
      intro hids
      have hx := hids x (.head _)
      have hcount : (f.redirectInst r x).2 = 0 := by
        rw [redirectInst_snd, List.countP_eq_zero]
        exact fun a ha => by rw [hx a ha]; exact Bool.false_ne_true
      have hstep : f.redirectInst r x = (f, 0) := Prod.ext (redirectInst_eq_self hx) hcount
      rw [List.foldl_cons]
      simp only [hstep]
      exact ih fun y hy => hids y (.tail _ hy)
  exact loop f.listedInsts fun x hx a ha => h a (List.mem_flatMap.mpr ⟨x, hx, ha⟩)

theorem listedInsts_redirect (T : f.Tidy) : (f.redirect r).1.listedInsts = f.listedInsts := by
  have R : Redirected r f f.listedInsts (f.redirect r).1 := redirected_redirect T
  have hinsts : (f.redirect r).1.instsOf = f.instsOf := funext fun b => by
    rw [instsOf, instsOf, block?, block?, R.blocks_eq]
  rw [listedInsts, listedInsts, blockIds, R.blocks_eq, hinsts]
  refine List.filter_congr fun x hx => ?_
  obtain ⟨b, hb⟩ := mem_listing.mp hx
  obtain ⟨inst, hinst⟩ := T.listed hb
  rw [(readdresses_redirect T r).inst hb hinst, hinst]
  rfl

/-- The redirected function names the functions to use instead. -/
theorem named_redirect (T : f.Tidy) : (f.redirect r).1.named = f.named.map r.target := by
  rw [named, named, listedInsts_redirect T, List.map_flatMap]
  refine List.flatMap_congr fun x hx => ?_
  obtain ⟨b, kind, hb, hkind⟩ := exists_of_mem_listedInsts hx
  rw [namedAt_of_kind? hkind, namedAt_of_kind? ((readdresses_redirect T r).kind? hb hkind),
    Redirection.onOperand_fst, InstKind.functions_mapOperands]

end Function

/-! ### Modules -/

/-- The functions that the initializer of a global names. -/
def Global.named (g : Global) : List FuncId :=
  match g.initializer with
  | some c => c.functions
  | none => []

/-- The global with other functions in the place of those its initializer names. -/
def Global.mapFunctions (change : FuncId → FuncId) (g : Global) : Global :=
  { g with initializer := g.initializer.map (Constant.mapFunctions change) }

theorem Global.named_mapFunctions {g : Global} :
    (g.mapFunctions change).named = g.named.map change := by
  obtain ⟨id, name, ty, initializer, constant⟩ := g
  cases initializer with
  | none => rfl
  | some c => exact c.functions_mapFunctions

theorem Global.redirected_eq :
    Global.redirected (some r) = Global.mapFunctions r.target := by
  funext g
  rw [redirected, mapFunctions, Redirection.onConstant_fst]

theorem Global.mapFunctions_eq_self {g : Global} (h : ∀ id ∈ g.named, change id = id) :
    g.mapFunctions change = g := by
  obtain ⟨id, name, ty, initializer, constant⟩ := g
  cases initializer with
  | none => rfl
  | some c => rw [mapFunctions, Option.map_some, c.mapFunctions_eq_self h]

namespace Module

/-- The functions that a function of the module names. -/
def namedBy (m : Module) (id : FuncId) : List FuncId :=
  match m.function id with
  | .ok f => f.named
  | .error _ => []

/-- The functions that some functions of the module and all its initializers name. -/
def namedIn (m : Module) (ids : List FuncId) : List FuncId :=
  ids.flatMap m.namedBy ++ m.globals.toList.flatMap Global.named

theorem namedBy_of_function (h : m.function id = .ok f) : m.namedBy id = f.named := by
  rw [namedBy, h]

theorem setFunction_self (h : m.function id = .ok f) : m.setFunction id f = m := by
  have hset : m.functions.setIfInBounds id.index f = m.functions := by
    rw [function_eq_ok_iff] at h
    exact Array.ext_getElem? fun i => by grind
  rw [setFunction, hset]

/-- Functions are redirected one after another, and each is counted as it was. -/
theorem sum_of_runs_redirectFunctions (hm : m.WellFormed) (hnodup : ids.Nodup)
    (h : (ids.mapM (redirectFunction r)).Runs m counts m') :
    counts.sum = (ids.flatMap m.namedBy).countP r.maps ∧ m'.globals = m.globals := by
  induction ids generalizing m counts with
  | nil =>
    obtain ⟨rfl, rfl⟩ := runs_mapM_nil.mp h
    exact ⟨rfl, rfl⟩
  | cons id rest ih =>
    obtain ⟨n, u, counts, hone, hrest, rfl⟩ := runs_mapM_cons.mp h
    obtain ⟨f, hf, rfl, rfl⟩ := runs_redirectFunction.mp hone
    obtain ⟨hid, hnodup⟩ := List.nodup_cons.mp hnodup
    have hwf := hm.wellFormed hf
    have hu : (m.setFunction id (f.redirect r).1).WellFormed :=
      hm.setFunction hf (readdresses_redirect hwf.tidy r).id_eq hwf.redirect
    obtain ⟨hsum, hglobals⟩ := ih hu hnodup hrest
    have hnamed : rest.flatMap (m.setFunction id (f.redirect r).1).namedBy =
        rest.flatMap m.namedBy := by
      refine List.flatMap_congr fun other hother => ?_
      rw [namedBy, namedBy, function_setFunction hf, if_neg (ne_of_mem_of_not_mem hother hid)]
    refine ⟨?_, hglobals⟩
    rw [List.sum_cons, hsum, hnamed, redirect_snd hwf.tidy, List.flatMap_cons,
      List.countP_append, namedBy_of_function hf]

theorem redirectGlobals_snd :
    (m.redirectGlobals r).2 = (m.globals.toList.flatMap Global.named).countP r.maps := by
  simp only [redirectGlobals]
  rw [← Array.foldl_toList, Array.toList_map, foldl_add_eq_sum, Nat.zero_add, List.countP_flatMap,
    List.map_map]
  refine congrArg List.sum (List.map_congr_left fun g _ => ?_)
  rw [Function.comp_apply, Function.comp_apply, Global.named]
  cases g.initializer with
  | none => rfl
  | some c =>
    dsimp only
    rw [Redirection.onConstant_eq]

/-- Where no initializer names a function to redirect, redirecting changes none. -/
theorem redirectGlobals_eq_self (h : ∀ g ∈ m.globals, ∀ a ∈ g.named, r.maps a = false) :
    m.redirectGlobals r = (m, 0) := by
  have hglobals : (m.redirectGlobals r).1.globals = m.globals := by
    rw [globals_redirectGlobals, Global.redirected_eq]
    refine (Array.map_congr_left fun g hg => ?_).trans (Array.map_id m.globals)
    exact Global.mapFunctions_eq_self fun a ha => Redirection.target_of_not_maps (h g hg a ha)
  refine Prod.ext ?_ ?_
  · show { m with globals := (m.redirectGlobals r).1.globals } = m
    rw [hglobals]
  · rw [redirectGlobals_snd, List.countP_eq_zero]
    intro a ha
    obtain ⟨g, hg, ha⟩ := List.mem_flatMap.mp ha
    rw [h g (Array.mem_toList_iff.mp hg) a ha]
    exact Bool.false_ne_true

/-- Redirecting counts the places where a function that is redirected is named. -/
theorem runs_redirectAll (hm : m.WellFormed) (hnodup : ids.Nodup)
    (hids : ∀ id ∈ ids, ∃ f, m.function id = .ok f) :
    ∃ m', (redirectAll r ids).Runs m ((m.namedIn ids).countP r.maps) m' ∧ m.Redirects r ids m' := by
  obtain ⟨n, m', hrun, R⟩ := runs_redirect (r := r) hnodup hids
  have hn : n = (m.namedIn ids).countP r.maps := by
    simp only [redirectAll, runs_bind, runs_set] at hrun
    obtain ⟨counts, u, hcounts, _, _, ⟨rfl, rfl⟩, _, _, rfl, rfl, -⟩ := hrun
    obtain ⟨hsum, hglobals⟩ := sum_of_runs_redirectFunctions hm hnodup hcounts
    rw [namedIn, List.countP_append, ← hsum, ← hglobals, ← redirectGlobals_snd,
      foldl_eq_add_sum, Nat.add_comm]
  exact ⟨m', hn ▸ hrun, R⟩

theorem runs_redirectAll_of_unnamed (hids : ∀ id ∈ ids, ∃ f, m.function id = .ok f)
    (h : ∀ a ∈ m.namedIn ids, r.maps a = false) : (redirectAll r ids).Runs m 0 m := by
  rw [namedIn, List.forall_mem_append] at h
  have hfunctions : ∃ counts, (ids.mapM (redirectFunction r)).Runs m counts m ∧ counts.sum = 0 := by
    obtain ⟨h, -⟩ := h
    induction ids with
    | nil => exact ⟨[], runs_mapM_nil.mpr ⟨rfl, rfl⟩, rfl⟩
    | cons id rest ih =>
      rw [List.flatMap_cons, List.forall_mem_append] at h
      obtain ⟨f, hf⟩ := hids id (.head _)
      obtain ⟨counts, hrest, hsum⟩ :=
        ih (fun other hother => hids other (.tail _ hother)) h.2
      have hone : (redirectFunction r id).Runs m 0 m := by
        have hsame : f.redirect r = (f, 0) :=
          redirect_eq_self (namedBy_of_function hf ▸ h.1)
        refine runs_redirectFunction.mpr ⟨f, hf, ?_, ?_⟩
        · rw [hsame]
        · rw [hsame, setFunction_self hf]
      exact ⟨0 :: counts, runs_mapM_cons.mpr ⟨_, _, _, hone, hrest, rfl⟩, by simpa using hsum⟩
  obtain ⟨counts, hrun, hsum⟩ := hfunctions
  have hglobals : m.redirectGlobals r = (m, 0) :=
    redirectGlobals_eq_self fun g hg a ha =>
      h.2 a (List.mem_flatMap.mpr ⟨g, Array.mem_toList_iff.mpr hg, ha⟩)
  simp only [redirectAll, runs_bind, runs_get, runs_set, runs_pure]
  refine ⟨counts, m, hrun, m, m, ⟨rfl, rfl⟩, ⟨⟩, m, ?_, ?_, rfl⟩
  · rw [hglobals]
  · rw [hglobals, foldl_eq_add_sum, hsum]

end Module

/-! ### Library routines -/

/-! ### What the preparation leaves alone -/

def Function.hasBody (f : Function) : Bool := !f.isDeclaration

/-- A property that does not depend on operands or on labels, and that nothing has which is declared
under a reserved name. -/
structure Function.Trait (p : Function → Bool) : Prop where
  declared : ∀ {f : Function}, f.isDeclaration → f.name ∈ reservedNames → p f = false
  labels : ∀ {f g : Function}, f.Labels g → p g = p f
  values : ∀ {f : Function} {values}, p { f with values := values } = p f

theorem not_wrapped_of_reserved {name : String} (h : name ∈ reservedNames) :
    name ∉ wrappedLibraryFunctions := by
  have hall : ∀ name ∈ reservedNames, name ∉ wrappedLibraryFunctions := by decide
  exact hall name h

theorem globalInit_not_wrapped : globalInit ∉ wrappedLibraryFunctions := by decide

namespace Function

theorem isLibrary_of_name (h : f.name ∉ wrappedLibraryFunctions) : f.isLibrary = false := by
  simp [isLibrary, h]

theorem isLibrary_of_wrapper (h : f.flags.wrapper) : f.isLibrary = false := by
  have hflags : f.flags.isEmpty = false := by
    rw [FunctionFlags.isEmpty, decide_eq_false_iff_not]
    intro hempty
    rw [hempty] at h
    cases h
  simp [isLibrary, hflags]

/-- Neither `main` nor a reserved name is that of a library routine. -/
theorem Labels.isLibrary_eq (L : f.Labels g) : g.isLibrary = f.isLibrary := by
  by_cases hname : f.name ∈ wrappedLibraryFunctions
  · have hsame : g.name = f.name := L.name_of_ne fun e => main_not_wrapped (e ▸ hname)
    have hflags : g.flags = f.flags := L.flags_eq fun h => not_wrapped_of_reserved h hname
    rw [isLibrary, isLibrary, L.isDeclaration_eq, hsame, hflags]
  · rw [isLibrary_of_name hname, isLibrary_of_name]
    rcases L.name_eq with hsame | ⟨-, hsame⟩
    · rwa [hsame]
    · rw [hsame]
      decide

theorem trait_isLibrary : Trait isLibrary where
  declared _ h := isLibrary_of_name (not_wrapped_of_reserved h)
  labels := Labels.isLibrary_eq
  values := rfl

theorem trait_hasBody : Trait hasBody where
  declared h _ := by rw [hasBody, h]; rfl
  labels L := by rw [hasBody, hasBody, L.isDeclaration_eq]
  values := rfl

end Function

namespace Module

/-- Does the function of a handle have a property? There is none where there is no function. -/
def has (p : Function → Bool) (m : Module) (id : FuncId) : Bool :=
  match m.function id with
  | .ok f => p f
  | .error _ => false

/-- Is the function of a handle a library routine that has a wrapper? -/
def isLibrary (m : Module) (id : FuncId) : Bool := m.has Function.isLibrary id

/-- The same functions of two modules have a property. -/
def Agrees (p : Function → Bool) (m m' : Module) : Prop := ∀ id, m'.has p id = m.has p id

variable {u v w : Module} {p : Function → Bool} {config : Config}

theorem has_of_function (h : m.function id = .ok f) : m.has p id = p f := by
  rw [has, h]

theorem has_congr (h : m'.function id = m.function id) : m'.has p id = m.has p id := by
  rw [has, has, h]

theorem Agrees.refl : m.Agrees p m := fun _ => rfl

theorem Agrees.trans (A : u.Agrees p v) (A' : v.Agrees p w) : u.Agrees p w :=
  fun id => (A' id).trans (A id)

theorem agrees_setFunction (hf : m.function id = .ok f) (h : p g = p f) :
    m.Agrees p (m.setFunction id g) := by
  intro other
  by_cases hother : other = id
  · grind [has_of_function, function_setFunction]
  · exact has_congr ((function_setFunction hf).trans (if_neg hother))

section

variable (T : Trait p)

include T

theorem Labels.agrees (L : u.Labels v) : u.Agrees p v := by
  intro id
  cases hf : u.function id with
  | ok f =>
    obtain ⟨g, hg, hfg⟩ := L.function hf
    rw [has_of_function hg, has_of_function hf, T.labels hfg]
  | error e =>
    rw [has, has, hf]
    split
    · rename_i g hg
      obtain ⟨hdecl, hname⟩ := (L.declared hg).resolve_left fun ⟨f, hf'⟩ => by simp [hf] at hf'
      exact T.declared hdecl hname
    · rfl

theorem Redirects.agrees (R : m.Redirects r ids m') : m.Agrees p m' := by
  intro id
  cases hf : m.function id with
  | error e => rw [has, has, R.function_eq, hf]; rfl
  | ok f =>
    rw [has_of_function (R.function hf), has_of_function hf]
    split
    · rw [redirect_eq]
      exact T.values
    · rfl

end

/-! ### Wrappers -/

theorem WrapperAt.isLibrary_eq (h : m.WrapperAt f id) : m.isLibrary id = false := by
  obtain ⟨g, hg, -, -, hwrapper⟩ := h
  rw [isLibrary, has_of_function hg, isLibrary_of_wrapper hwrapper]

/-- A redirection sends the library routines of one module to wrappers in another. -/
structure Reroutes (r : Redirection) (m m' : Module) : Prop where
  maps_eq : ∀ id, r.maps id = m.isLibrary id
  wrapper : ∀ {id f}, m.function id = .ok f → f.isLibrary → m'.WrapperAt f (r.target id)

theorem reroutes_of_runs_declareWrappers (hu : u.WellFormed)
    (h : (u.libraryFunctions.mapM declareWrapper).Runs u r v) : u.Reroutes r v := by
  have hall := wrapperAt_of_runs_declareWrappers hu h
  have hmaps : ∀ id, r.maps id ↔ ∃ f ∈ u.libraryFunctions, f.id = id := by
    intro id
    rw [Redirection.maps, List.lookup_isSome_iff]
    constructor
    · rintro ⟨entry, hentry, hid⟩
      obtain ⟨f, hf, hfst, -⟩ := exists_of_forall₂ hall hentry
      exact ⟨f, hf, hfst.symm.trans (beq_iff_eq.mp hid).symm⟩
    · rintro ⟨f, hf, rfl⟩
      obtain ⟨entry, hentry, hfst, -⟩ := exists_of_forall₂ hall.flip hf
      exact ⟨entry, hentry, beq_iff_eq.mpr hfst.symm⟩
  have hlibrary : ∀ id, u.isLibrary id ↔ ∃ f ∈ u.libraryFunctions, f.id = id := by
    intro id
    rw [isLibrary, has]
    constructor
    · intro h
      split at h
      · rename_i f hf
        have hid := hu.id_eq hf
        exact ⟨f, (mem_libraryFunctions hu).mpr ⟨hid ▸ hf, h⟩, hid⟩
      · cases h
    · grind [mem_libraryFunctions]
  refine ⟨fun id => Bool.eq_iff_iff.mpr ((hmaps id).trans (hlibrary id).symm),
    fun {id f} hf h => ?_⟩
  -- all entries for a handle are about the function that has it
  have hid := hu.id_eq hf
  have hlookup := Redirection.lookup_of_maps
    ((hmaps id).mpr ⟨f, (mem_libraryFunctions hu).mpr ⟨hid ▸ hf, h⟩, hid⟩)
  obtain ⟨before, after, hr, -⟩ := List.lookup_eq_some_iff.mp hlookup
  have hentry : (id, r.target id) ∈ before ++ (id, r.target id) :: after :=
    List.mem_append_right before (.head _)
  rw [← hr] at hentry
  obtain ⟨f', hf', hfst, hwrapper⟩ := exists_of_forall₂ hall hentry
  obtain ⟨hf', -⟩ := (mem_libraryFunctions hu).mp hf'
  rw [← hfst] at hf'
  cases hf.symm.trans hf'
  exact hwrapper

/-- All uses of library routines are redirected to their wrappers, and counted. Where there are no
library routines nothing needs to be redirected. -/
theorem redirects_of_runs_wrapLibraryCalls (hm : m.WellFormed) (F : m.Furnishes u)
    (h : (wrapLibraryCalls m.targets).Runs u n v) :
    ∃ (r : Redirection) (w : Module), (u.libraryFunctions.mapM declareWrapper).Runs u r w ∧
      w.Redirects r m.targets v ∧ n = (w.namedIn m.targets).countP r.maps := by
  suffices hsplit : ∃ r w, (u.libraryFunctions.mapM declareWrapper).Runs u r w ∧
      (redirectAll r m.targets).Runs w n v by
    obtain ⟨r, w, hdeclare, hredirect⟩ := hsplit
    have F' := (declareWrappers_labelling.furnishes (.refl F.wellFormed)).of_runs hdeclare
    obtain ⟨v', hrun, R⟩ := runs_redirectAll F'.wellFormed (nodup_targets hm)
      ((F.trans F').exists_target hm)
    obtain ⟨rfl, rfl⟩ := hrun.unique hredirect
    exact ⟨r, w, hdeclare, R, rfl⟩
  rcases runs_ite.mp h with ⟨hempty, h⟩ | ⟨-, h⟩
  · obtain ⟨rfl, rfl⟩ := runs_pure.mp h
    refine ⟨[], u, ?_, runs_redirectAll_of_unnamed (F.exists_target hm) fun _ _ => rfl⟩
    rw [List.isEmpty_iff.mp hempty]
    exact runs_mapM_nil.mpr ⟨rfl, rfl⟩
  · exact runs_bind.mp h

/-- Functions that have only been furnished name what they named before. -/
theorem Furnishes.namedIn_targets (F : m.Furnishes m') (hm : m.WellFormed) :
    m'.namedIn m.targets = m.namedIn m.targets := by
  rw [namedIn, F.globals_eq]
  refine congrArg (· ++ _) (List.flatMap_congr fun id hid => ?_)
  obtain ⟨f, hf, htarget⟩ := (mem_targets hm).mp hid
  obtain ⟨g, hg, hfg⟩ := F.function hf
  rw [namedBy_of_function hf, namedBy_of_function hg, 
    (hfg.body (isDeclaration_of_isTarget htarget)).eq_relabel]
  rfl

/-! ### The whole preparation -/

namespace Stages

variable {prepared : Prepared}

section

variable (S : Stages config m prepared u v w m') (hm : m.WellFormed)

include S hm

theorem agrees (T : Trait p) : m.Agrees p w := by
  have L := S.labels hm
  have hwraps : u.Agrees p v := by
    rcases runs_ite.mp S.wraps with ⟨-, h⟩ | ⟨-, h⟩
    · obtain ⟨r, w, hdeclare, R, -⟩ := redirects_of_runs_wrapLibraryCalls hm L.furnishes h
      exact (Labels.agrees T ((declareWrappers_labelling u L.wellFormed).of_runs hdeclare)).trans
        (R.agrees T)
    · obtain ⟨-, rfl⟩ := runs_pure.mp h
      exact .refl
  obtain ⟨r?, P, -⟩ := S.prepares hm
  exact ((L.agrees T).trans hwraps).trans
    (Labels.agrees T ((renameIfAsked_labelling v P.wellFormed).of_runs S.renames))

theorem redirects (hwrap : config.wrapLibraryCalls) : ∃ r, m.Prepares (some r) w ∧ m.Reroutes r w ∧
    prepared.wrapped = (m.namedIn m.targets).countP m.isLibrary := by
  have L := S.labels hm
  have F := L.furnishes
  have hwraps := S.wraps
  rw [if_pos hwrap] at hwraps
  obtain ⟨r, w', hdeclare, R, hcount⟩ := redirects_of_runs_wrapLibraryCalls hm F hwraps
  have F' := (declareWrappers_labelling.furnishes (.refl F.wellFormed)).of_runs hdeclare
  have P : m.Prepares (some r) v := R.prepares hm (F.trans F')
  have F'' : v.Furnishes w :=
    ((renameIfAsked_labelling v P.wellFormed).of_runs S.renames).furnishes
  have A := L.agrees Function.trait_isLibrary
  have E := reroutes_of_runs_declareWrappers F.wellFormed hdeclare
  have hmaps : r.maps = m.isLibrary := funext fun id => (E.maps_eq id).trans (A id)
  refine ⟨r, P.furnish F'', ⟨congrFun hmaps, fun {id f} hf hlibrary => ?_⟩, ?_⟩
  · -- the routine was declared before there was a runtime
    obtain ⟨f', hf', hff'⟩ := F.function hf
    have hlibrary' : f'.isLibrary := by
      rw [← has_of_function (p := Function.isLibrary) hf', A id, has_of_function hf]
      exact hlibrary
    have hname : f'.name = f.name := hff'.name_of_ne fun hmain =>
      main_not_wrapped (hmain ▸ (isLibrary_iff.mp hlibrary).2.2)
    have hwrapper :=
      (E.wrapper hf' hlibrary').of_keepsHeads (R.keepsHeads.trans F''.keepsHeads)
    rw [WrapperAt, hname, hff'.signature_eq] at hwrapper
    exact hwrapper
  · rw [hcount, (F.trans F').namedIn_targets hm, hmaps]

end

section

variable (S : Stages config m prepared u v w m')

include S

theorem seeding (hw : w.WellFormed) : m' = w ∨
    ∃ id g, m'.function id = .ok g ∧ Nonempty (Seeding w prepared.routines config g) ∧
      (∀ f, w.function id = .ok f → f.isDeclaration) ∧
      ∀ other, other ≠ id → m'.function other = w.function other := by
  by_cases hseeded : prepared.seeded = 0
  · left
    obtain ⟨fields, -, hcount, hnone⟩ := fields_of_runs_seedGlobals S.seeds
    exact hnone (List.length_eq_zero_iff.mp (hcount.symm.trans hseeded))
  · exact .inr (seeding_of_runs_seedGlobals hw S.seeds hseeded)

theorem agrees_isLibrary (hm : m.WellFormed) (hw : w.WellFormed) :
    m.Agrees Function.isLibrary m' := by
  refine (S.agrees hm trait_isLibrary).trans fun id => ?_
  rcases S.seeding hw with rfl | ⟨id', g, hg, ⟨C⟩, -, hothers⟩
  · rfl
  by_cases hid : id = id'
  · subst hid
    have hname := C.header.1
    rw [has_of_function hg, isLibrary_of_name (hname ▸ globalInit_not_wrapped)]
    cases hf : w.function id with
    | error e => rw [has, hf]
    | ok f =>
      obtain ⟨g', hg', hfg⟩ := ((seedGlobals_endsIn hw).of_runs S.seeds).function hf
      cases hg.symm.trans hg'
      rw [has_of_function hf, isLibrary_of_name]
      rcases hfg.name_eq with h | h
      · rw [← h, hname]
        exact globalInit_not_wrapped
      · rw [h.1]
        exact main_not_wrapped
  · exact has_congr (hothers id hid)

theorem seeding_of_hasBody (hm : m.WellFormed) (hw : w.WellFormed) (hg : m'.function id = .ok g)
    (hbody : g.isDeclaration = false) (hnone : ∀ f, m.function id = .ok f → f.isDeclaration) :
    Nonempty (Seeding w prepared.routines config g) := by
  have hbefore : ∀ f, w.function id = .ok f → f.isDeclaration := by
    intro f hf
    have hagree := S.agrees hm trait_hasBody id
    have hnot : m.has hasBody id = false := by
      rw [has]
      split
      · rename_i f' hf'
        rw [hasBody, hnone f' hf']
        rfl
      · rfl
    rw [has_of_function hf, hnot, hasBody] at hagree
    simpa using hagree
  have hnot : ¬m'.function id = w.function id := by grind
  rcases S.seeding hw with rfl | ⟨id', g', hg', C, -, hothers⟩
  · exact absurd rfl hnot
  · grind

end

end Stages

end Module

end PointerGuard
