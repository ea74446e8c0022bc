import PointerGuard.Proofs.Mediation
import PointerGuard.Proofs.ValidWeaving

/-!
# Instrumented modules are valid

A module whose functions pass verification still does when it has been instrumented, and so does the
constructor that is added. Valid functions must not begin with a phi, which would have no edges.
-/

namespace PointerGuard

open Edit PointerGuard.Function Splice InstKind

variable {f g : Function} {t : RoutineTable} {s : Splice}

/-! ### Functions -/

namespace Function

variable {change : Operand → Operand}

/-- A function that passes verification, none of whose instructions was inserted, and of whose phis
each has some edge. -/
structure Acceptable (f : Function) : Prop where
  verify : f.verify = .ok ()
  original : f.AllOriginal
  phis : ∀ b, ∀ x ∈ f.instsOf b, f.kind? x ≠ some (.phi [])

instance : Decidable f.Acceptable :=
  decidable_of_iff (f.verify = .ok () ∧ f.AllOriginal ∧ ∀ x ∈ f.listing, f.kind? x ≠ some (.phi []))
    ⟨fun ⟨hverify, horiginal, hphis⟩ => ⟨hverify, horiginal, fun b x hx =>
        hphis x (mem_listing.mpr ⟨b, hx⟩)⟩,
      fun ⟨hverify, horiginal, hphis⟩ => ⟨hverify, horiginal, fun x hx => by
        obtain ⟨b, hx⟩ := mem_listing.mp hx
        exact hphis b x hx⟩⟩

theorem predecessors_of_checkEntry (h : f.checkEntry = .ok ()) : f.predecessors ⟨0⟩ = [] := by
  rw [checkEntry, entryId?] at h
  split at h
  · cases h
  · grind

/-- An acceptable function can be woven into, also when operands of it have been readdressed. -/
theorem Acceptable.weavable (hf : f.Acceptable) (hbody : f.isDeclaration = false)
    (R : f.Readdresses change g) (C : Operand.Readdressing change) (hg : g.WellFormed)
    (hentry : g.checkEntry = .ok ()) : g.Weavable := by
  have hblocks : 0 < f.blocks.size := by
    rw [isDeclaration, Array.isEmpty_eq_false_iff] at hbody
    exact Array.size_pos_iff.mpr hbody
  have V := ((verify_eq_ok_iff hblocks).mp hf.verify).2
  have V' := R.valid C V
  refine ⟨V', by rwa [R.blocks_eq], hg.paramsFirst, fun b => ?_, fun x hx edges hkind => ?_⟩
  · rw [R.programInsts_eq V.tidy, R.instsOf_eq, hf.original.programInsts_eq]
  · -- a phi at the beginning would have as many edges as the first block has predecessors
    have fits := (V'.fits hx hkind).phi (.refl _ _) edges rfl
    rw [R.instsOf_eq] at hx
    obtain ⟨inst, hinst⟩ := V.tidy.listed hx
    have hkind' := R.kind? hx (kind?_of_inst? hinst)
    have hnone : edges = [] := by
      rw [← List.length_eq_zero_iff, fits.length, predecessors_of_checkEntry hentry]
      rfl
    subst hnone
    cases hk : inst.kind with
    | phi incoming =>
      rw [hk] at hkind'
      have hnil := phi.inj (Option.some.inj (hkind.symm.trans hkind'))
      rw [List.nil_eq, List.map_eq_nil_iff] at hnil
      subst hnil
      exact hf.phis _ x hx (kind?_eq_some_iff.mpr ⟨inst, hinst, hk⟩)
    | _ =>
      rw [hk] at hkind'
      cases hkind.symm.trans hkind'

end Function

theorem Env.Passes.verify_eq_ok {env : Env} {store : Store} {s : Weaving} (P : env.Passes f store s)
    (F : f.Weavable) (hstore : store.Vacant f) :
    s.func.verify = .ok () := by
  have T := F.valid.tidy
  have G : Weaving.Gathered env Any f _ _ :=
    P.piped.gathered T F.params hstore fun _ _ => trivial
  have W : Weaving.Woven env Any f (.start f store) := ⟨T, .refl⟩
  have gathered := G.steps_any W (P.steps_checks ⟨T, F.params⟩ hstore).1
  have hgrows := (Weaving.Steps.woven gathered.steps W).grows
  have hdominators : s.func.dominators? = f.dominators? := by
    rw [dominators?, dominators?, hgrows.flowGraph_eq T F.program_ne_nil]
  rw [verify_eq_ok_iff (by rw [hgrows.size_blocks]; exact F.blocks), hdominators]
  exact ⟨⟨_, P.dominators⟩, gathered.valid F hstore⟩

/-! ### The constructor -/

namespace Function

theorem exists_dominators_of_singleton (hsize : f.blocks.size = 1) (h : f.successors ⟨0⟩ = []) :
    ∃ tree, f.dominators? = some tree := by
  have hsucc : f.flowGraph.succ 0 = [] := by
    rw [flowGraph]
    simp [h]
  have hone : f.flowGraph.size = 1 := hsize
  simp [dominators?, DominatorTree.compute, Digraph.reversePostorder, Digraph.postorder, hone,
    Digraph.visit, hsucc, DominatorTree.refine, DominatorTree.sweep]

/-- The function has one block, which only returns. -/
structure OnlyReturns (f : Function) (x : ValueId) : Prop where
  size : f.blocks.size = 1
  insts : f.instsOf ⟨0⟩ = [x]
  inst : f.inst? x = some ⟨.ret none, ⟨0⟩, false⟩

theorem onlyReturns_append (h : f.isDeclaration) :
    ((f.ensureBlock ⟨0⟩).append ⟨0⟩ (.ret none) .void).OnlyReturns f.nextValue := by
  have hblocks : f.blocks = #[] := Array.isEmpty_iff.mp h
  refine ⟨?_, ?_, inst?_eq_some_iff.mpr ⟨.void, ?_⟩⟩
  · simp [append, ensureBlock, hblocks]
  · rw [instsOf_append, instsOf_ensureBlock, instsOf, block?, hblocks]
    rfl
  · rw [value?_append]
    exact if_pos rfl

namespace OnlyReturns

variable {x y : ValueId}

section

variable (h : f.OnlyReturns x)

include h

theorem relabel {name : String} {flags : FunctionFlags} : (f.relabel name flags).OnlyReturns x :=
  ⟨h.size, h.insts, h.inst⟩

theorem terminator? : f.terminator? ⟨0⟩ = some x :=
  terminator?_eq_some_iff.mpr ⟨by rw [h.insts]; rfl, .ret none,
    kind?_of_inst? h.inst, rfl⟩

theorem successors : f.successors ⟨0⟩ = [] := by
  simp [Function.successors, h.terminator?, kind?, h.inst, InstKind.successors]

theorem mem_instsOf {b : BlockId} (hy : y ∈ f.instsOf b) : b = ⟨0⟩ ∧ y = x := by
  have hb := index_lt_of_mem_instsOf hy
  rw [h.size, Nat.lt_one_iff] at hb
  obtain rfl : b = ⟨0⟩ := BlockId.ext hb
  rw [h.insts] at hy
  exact ⟨rfl, List.mem_singleton.mp hy⟩

theorem valid : f.Valid := by
  refine ⟨fun b hb => ?_, fun {b y kind} hy hkind => ?_⟩
  · rw [h.size, Nat.lt_one_iff] at hb
    obtain rfl : b = ⟨0⟩ := BlockId.ext hb
    refine ⟨by rw [h.insts]; simp, fun front y rest hsplit => ?_, by rw [h.successors]; simp⟩
    rw [h.insts, eq_comm, List.append_eq_singleton_iff] at hsplit
    obtain ⟨rfl, hsplit⟩ | ⟨-, hsplit⟩ := hsplit
    · cases hsplit
      exact ⟨_, h.inst, rfl, by simp, rfl, by simp [isPhi]⟩
    · cases hsplit
  · obtain ⟨rfl, rfl⟩ := h.mem_instsOf hy
    obtain rfl : kind = .ret none := by simpa [kind?, h.inst] using hkind.symm
    have hnone : (ret none).operands = [] := rfl
    exact ⟨by simp [hnone], by simp, by simp [hnone]⟩

theorem locate? : f.locate? (.beforeTerminator ⟨0⟩) = some (⟨0⟩, 0) := by
  obtain ⟨block, hblock⟩ : ∃ block, f.block? ⟨0⟩ = some block := by
    simp [block?, h.size]
  have hinsts : block.insts = [x] := by
    rw [← h.insts, instsOf, hblock]
  simp [Function.locate?, hblock, h.terminator?, hinsts]

theorem program_ne_nil : f.programInsts ⟨0⟩ ≠ [] := by
  have hx : f.isProgramInst x := isProgramInst_iff.mpr ⟨_, h.inst, rfl⟩
  rw [programInsts, h.insts, List.filter_cons_of_pos hx]
  simp

/-- What is spliced in front of the return keeps the function valid, if nothing is used but
constants and what has just been inserted. -/
theorem verify_of_adds {p : Routine → Prop} {u : Splice}
    (A : Adds (Plain t p) Never ⟨f, ⟨0⟩, 0⟩ u) :
    u.func.verify = .ok () := by
  have hkind : ∀ z ∈ [x], ∀ edges, f.kind? z ≠ some (.phi edges) := by
    intro z hz edges hedges
    obtain rfl := List.mem_singleton.mp hz
    simp [kind?, h.inst] at hedges
  -- the return is all that stands behind the place of the splice
  have hsplit : f.instsOf ⟨0⟩ = [] ++ [x] := h.insts
  have F : f.Fitting fun _ => False := h.valid.fitting
  have fitting : u.func.Fitting fun _ => False :=
    A.fitting F h.program_ne_nil hsplit (by simp) hkind (by simp)
  have G := (A.grows (fun _ h => h.1) (place_of_split hsplit (by simp))).1
  have T := h.valid.tidy
  have hsize : u.func.blocks.size = 1 := G.size_blocks.trans h.size
  rw [verify_eq_ok_iff (by rw [hsize]; exact Nat.one_pos)]
  refine ⟨?_, fitting.shaped, fun hx hkind => fitting.fits hx hkind not_false⟩
  obtain ⟨tree, htree⟩ := exists_dominators_of_singleton h.size h.successors
  exact ⟨tree, by rw [dominators?, G.flowGraph_eq T h.program_ne_nil]; exact htree⟩

end

end OnlyReturns

end Function

namespace PointerField

mutual

/-- A pointer of an initializer lies in the global that the initializer is for. -/
theorem exists_address_of_collect {address : Constant} {path : List Nat} {value : Constant} :
    ∀ {ty fields}, collect address path value ty = .ok fields →
      ∀ field ∈ fields, ∃ path ty, field.address = addressOf address path ty
  | .ptr pointee, fields, h => by
    rw [collect] at h
    split at h
    · cases h
      simp
    · cases h
      intro field hfield
      obtain rfl := List.mem_singleton.mp hfield
      exact ⟨path, .ptr pointee, rfl⟩
  | .array elem len, fields, h => by
    rw [collect] at h
    split at h
    · cases h
      simp
    · obtain ⟨found, hfound, h⟩ := Outcome.bind_eq_ok.mp h
      split at h
      · cases h
      · cases h
        intro field hfield
        obtain ⟨part, hpart, hfield⟩ := List.mem_flatten.mp hfield
        obtain ⟨⟨element, index⟩, -, helement⟩ :=
          exists_of_forall₂ (Outcome.mapM_eq_ok.mp hfound) hpart
        exact exists_address_of_collect helement field hfield
  | .struct members, fields, h => by
    rw [collect] at h
    split at h
    · cases h
      simp
    · exact exists_address_of_collectMembers h
  | .void, fields, h | .int _, fields, h | .float, fields, h | .double, fields, h
  | .func .., fields, h => by
    rw [collect] at h
    cases h
    simp

theorem exists_address_of_collectMembers {address : Constant} {path : List Nat} {value : Constant} :
    ∀ {members index fields}, collectMembers address path value index members = .ok fields →
      ∀ field ∈ fields, ∃ path ty, field.address = addressOf address path ty
  | [], index, fields, h => by
    rw [collectMembers] at h
    cases h
    simp
  | member :: members, index, fields, h => by
    rw [collectMembers] at h
    split at h
    · split at h
      · cases h
      · simp only [Outcome.bind_eq_ok, Outcome.pure_eq_ok] at h
        obtain ⟨here, hhere, rest, hrest, rfl⟩ := h
        intro field hfield
        rcases List.mem_append.mp hfield with hfield | hfield
        · exact exists_address_of_collect hhere field hfield
        · exact exists_address_of_collectMembers hrest field hfield
    · exact exists_address_of_collectMembers h

end

end PointerField

namespace Module

variable {m m' u : Module} {id : FuncId} {config : Config} {i : Interface}
  {fields : List PointerField} {prepared : Prepared} {n : Nat}

theorem exists_address_of_pointerFields (h : m.pointerFields = .ok fields) :
    ∀ field ∈ fields, ∃ g ∈ m.globals.toList,
      ∃ path ty, field.address = PointerField.addressOf g.address path ty := by
  cases hfound : m.globals.toList.mapM pointerFieldsOf with
  | error e =>
    rw [pointerFields, hfound] at h
    cases h
  | ok found =>
    rw [pointerFields, hfound] at h
    cases h
    intro field hfield
    obtain ⟨part, hpart, hfield⟩ := List.mem_flatten.mp hfield
    obtain ⟨g, hmem, hg⟩ := exists_of_forall₂ (Outcome.mapM_eq_ok.mp hfound) hpart
    rw [pointerFieldsOf] at hg
    split at hg
    · cases hg
      cases hfield
    · exact ⟨g, hmem, PointerField.exists_address_of_collect hg field hfield⟩

/-- Recording a pointer of an initializer uses constants and the lock of globals. -/
theorem adds_of_runs_seedField {lock : Operand} {field : PointerField} {v u : Splice}
    (A : Adds (Plain t Any) Never s v) (hlock : Usable Never s v lock)
    (h : (seedField i t config lock field).Runs v ⟨⟩ u) :
    Adds (Plain t Any) Never s u ∧ Usable Never s u lock := by
  simp only [seedField, runs_bind, runs_ofExcept] at h
  obtain ⟨folded, _, ⟨-, rfl⟩, x, _, hcall, -, rfl⟩ := h
  have hcomponent : ∀ c, Usable Never s v ((folded.materialize i.width
      config.spatialSafety config.temporalSafety lock).component i.width c) := by
    intro c
    rcases PointerMetadata.component_eq _ i.width c with hget | hconst
    · rcases Weaving.get?_materialize hget with hconst | ⟨heq, -⟩
      · exact .inr (.inl hconst)
      · rw [heq]
        exact hlock
    · exact .inr (.inl hconst)
  obtain ⟨B, E, -⟩ := A.call hcall trivial (by
    simpa using ⟨.inr (.inl rfl), hcomponent .base, hcomponent .bound, hcomponent .key,
      hcomponent .lock⟩)
  exact ⟨B, hlock.mono E⟩

theorem adds_of_runs_seedFields {u : Splice} (h : (seedFields i t config fields).Runs s ⟨⟩ u) :
    Adds (Plain t Any) Never s u := by
  have hloop : ∀ {lock v}, Adds (Plain t Any) Never s v →
      Usable Never s v lock →
      (fields.forM (seedField i t config lock)).Runs v ⟨⟩ u →
      Adds (Plain t Any) Never s u := by
    intro lock v A hlock h
    exact (h.forM_induction (fun _ w => Adds (Plain t Any)
      Never s w ∧ Usable Never s w lock) ⟨A, hlock⟩
      fun _ _ _ _ h hbody => adds_of_runs_seedField h.1 h.2 hbody).1
  rcases runs_ite.mp h with ⟨-, h⟩ | ⟨-, h⟩
  · simp only [map_eq_pure_bind, runs_bind] at h
    obtain ⟨_, _, ⟨x, _, hcall, rfl, rfl⟩, h⟩ := h
    obtain ⟨A, -, N⟩ := Adds.refl.call (p := Any) hcall trivial (by simp)
    exact hloop A (N.usable rfl) h
  · simp only [runs_bind] at h
    obtain ⟨_, _, ⟨rfl, rfl⟩, h⟩ := h
    exact hloop .refl (.inr (.inl rfl)) h

/-- How the constructor of a module was made: in front of the return of a function that only
returns, the pointers in initializers were recorded. -/
structure Seeding (m : Module) (t : RoutineTable) (config : Config) (g : Function) where
  /-- The function that only returned. -/
  start : Function
  /-- Its return. -/
  exit : ValueId
  /-- The pointers in initializers. -/
  fields : List PointerField
  /-- What was inserted. -/
  s : Splice
  onlyReturns : start.OnlyReturns exit
  name_eq : start.name = globalInit
  synthetic : start.flags.synthetic
  constructor_ : start.flags.constructor
  pointerFields : m.pointerFields = .ok fields
  runs : (seedFields m.interface t config fields).Runs ⟨start, ⟨0⟩, 0⟩ ⟨⟩ s
  result : s.func = g

namespace Seeding

variable (S : Seeding m t config g)

include S

theorem grows : S.start.Grows t Any g := by
  have hsplit : S.start.instsOf ⟨0⟩ = [] ++ [S.exit] := S.onlyReturns.insts
  have G := ((adds_of_runs_seedFields S.runs).grows (fun _ h => h.1)
    (place_of_split hsplit (by simp))).1
  rwa [S.result] at G

theorem verify : g.verify = .ok () := by
  rw [← S.result]
  exact S.onlyReturns.verify_of_adds (adds_of_runs_seedFields S.runs)

theorem header : g.name = globalInit ∧ g.flags.synthetic ∧ g.flags.constructor ∧
    g.isDeclaration = false := by
  have G := S.grows
  refine ⟨?_, ?_, ?_, ?_⟩
  · rw [G.header]
    exact S.name_eq
  · rw [G.header]
    exact S.synthetic
  · rw [G.header]
    exact S.constructor_
  · have hsize : g.blocks.size = 1 := G.size_blocks.trans S.onlyReturns.size
    rw [isDeclaration, Array.isEmpty_eq_false_iff, ← Array.size_pos_iff, hsize]
    exact Nat.one_pos

end Seeding

/-- If there are no pointers in initializers then nothing is done. -/
theorem fields_of_runs_seedGlobals (h : (seedGlobals t config).Runs m n m') :
    ∃ fields, m.pointerFields = .ok fields ∧ n = fields.length ∧ (fields = [] → m' = m) := by
  rw [seedGlobals, runs_get_bind] at h
  simp only [runs_bind, runs_ofExcept] at h
  obtain ⟨fields, _, ⟨hfields, rfl⟩, h⟩ := h
  refine ⟨fields, hfields, ?_⟩
  rcases runs_ite.mp h with ⟨hnone, h⟩ | ⟨hsome, h⟩
  · grind [runs_pure, List.isEmpty_iff]
  · simp only [runs_bind, Prod.exists] at h
    obtain ⟨_, _, _, -, _, _, -, _, _, -, _, _, -, rfl, -⟩ := h
    exact ⟨rfl, fun hnone => absurd (List.isEmpty_iff.mpr hnone) hsome⟩

/-- The constructor, if there is one, had no body before, and no other function has changed. -/
theorem seeding_of_runs_seedGlobals (hm : m.WellFormed) (h : (seedGlobals t config).Runs m n m')
    (hn : n ≠ 0) :
    ∃ id g, m'.function id = .ok g ∧ Nonempty (Seeding m t config g) ∧
      (∀ f, m.function id = .ok f → f.isDeclaration) ∧
      ∀ other, other ≠ id → m'.function other = m.function other := by
  rw [seedGlobals, runs_get_bind] at h
  simp only [runs_bind, runs_ofExcept] at h
  obtain ⟨fields, _, ⟨hfields, rfl⟩, h⟩ := h
  rcases runs_ite.mp h with ⟨-, h⟩ | ⟨-, h⟩
  · obtain ⟨rfl, -⟩ := runs_pure.mp h
    exact absurd rfl hn
  simp only [runs_bind, Prod.exists] at h
  obtain ⟨id, values, u, hdefine, _, v, hconstructor, flags, w, hflags, _, _, hsplice, -, rfl⟩ := h
  obtain ⟨hnone, hothers, u', f, g, -, hf, hdecl, hname, -, hbuild, rfl⟩ :=
    function_of_runs_define hm hdefine
  obtain ⟨x, hreturns, hname⟩ : ∃ x, g.OnlyReturns x ∧ g.name = globalInit := by
    cases Except.ok.inj hbuild
    exact ⟨_, onlyReturns_append hdecl, hname⟩
  -- being run first and the flags are no part of the body
  have hfirst : v.function id = .ok g := by
    rw [function_of_runs_addConstructor hconstructor, function_setFunction_self hf]
  obtain ⟨f', hf', rfl⟩ := runs_addFlags hflags
  cases hfirst.symm.trans hf'
  obtain ⟨f'', k, hf'', hrun, rfl⟩ := runs_onFunction.mp hsplice
  cases (function_setFunction_self hfirst).symm.trans hf''
  have hflags : (g.relabel g.name
    (g.flags.union { synthetic := true, constructor := true })).OnlyReturns
      x := hreturns.relabel
  obtain ⟨b, position, s, hlocate, hseed, rfl⟩ := runs_splice.mp hrun
  rw [hflags.locate?] at hlocate
  cases Option.some.inj hlocate
  refine ⟨id, s.func, ?_, ⟨_, x, fields, s, hflags, hname, ?_, ?_, hfields, hseed, rfl⟩, hnone,
    fun other hne => ?_⟩
  · exact function_setFunction_self (function_setFunction_self hfirst)
  · simp [relabel, FunctionFlags.union]
  · simp [relabel, FunctionFlags.union]
  · grind [function_setFunction, function_setFunction_self, function_of_runs_addConstructor]

section

variable (hm : m.WellFormed) (h : (prepare config).Runs m prepared m')
  (hseeded : prepared.seeded ≠ 0)

include hm h hseeded

/-- When a module has been prepared, the constructor has been made, and nothing else will be done to
it. -/
theorem seeding_of_runs_prepare :
    ∃ w : Module, w.width = m.width ∧ ∃ id g, m'.function id = .ok g ∧
      Nonempty (Seeding w prepared.routines config g) ∧
      ∀ f, m.function id = .ok f → f.isDeclaration := by
  obtain ⟨u, v, w, S⟩ := stages_of_runs_prepare h
  obtain ⟨r?, -, P⟩ := S.prepares hm
  obtain ⟨id, g, hg, C, hnone, -⟩ := seeding_of_runs_seedGlobals P.wellFormed S.seeds hseeded
  refine ⟨w, P.width_eq, id, g, hg, C, fun f hf => ?_⟩
  -- a function with a body would have kept it
  obtain ⟨k, hk, Fk⟩ := P.function hf
  by_contra hf'
  have hdecl := hnone k hk
  rw [Fk.isDeclaration (isDeclaration_redirected.trans (Bool.not_eq_true _ ▸ hf'))] at hdecl
  cases hdecl

theorem verify_of_runs_prepare :
    ∃ id g, m'.function id = .ok g ∧ g.name = globalInit ∧ g.flags.synthetic ∧ g.flags.constructor ∧
      g.isDeclaration = false ∧ g.verify = .ok () ∧ ∀ f, m.function id = .ok f →
        f.isDeclaration := by
  obtain ⟨w, -, id, g, hg, ⟨S⟩, hnone⟩ := seeding_of_runs_prepare hm h hseeded
  obtain ⟨hname, hsynthetic, hconstructor, hbody⟩ := S.header
  exact ⟨id, g, hg, hname, hsynthetic, hconstructor, hbody, S.verify, hnone⟩

end

variable (hm : m.WellFormed) (haccept : ∀ id ∈ m.targets, ∀ f, m.function id = .ok f → f.Acceptable)

include hm haccept

/-- Functions of the program can be woven into when the module has been prepared. -/
theorem Prepares.weavable {r? : Option Redirection} (P : m.Prepares r? u) (hid : id ∈ m.targets)
    {f' : Function} (hf' : u.function id = .ok f') (hentry : f'.checkEntry = .ok ()) :
    f'.Weavable := by
  obtain ⟨f, hf, htarget⟩ := (mem_targets hm).mp hid
  exact (haccept id hid f hf).weavable (isDeclaration_of_isTarget htarget)
    (P.readdresses hm hf htarget hf')
    readdressing_redirection (P.wellFormed.wellFormed hf') hentry

/-- Instrumentation keeps modules valid. -/
theorem instrument_valid :
    (∀ report m', (instrument config).Runs m report m' →
      (∀ id ∈ m.targets, ∃ g, m'.function id = .ok g ∧ g.verify = .ok ()) ∧
      (report.seededGlobalFields ≠ 0 → ∃ id g, m'.function id = .ok g ∧ g.name = globalInit ∧
        g.flags.synthetic ∧ g.flags.constructor ∧ g.isDeclaration = false ∧ g.verify = .ok () ∧
        ∀ f, m.function id = .ok f → f.isDeclaration)) ∧
    ∀ name violation, ((instrument config).apply m).1 ≠ .error (.verification name violation) := by
  constructor
  · intro report m' hrun
    obtain ⟨prepared, u, hprepare, hall, hseeded, -⟩ := runs_instrument hrun
    obtain ⟨-, htargets, -, r?, P⟩ := of_runs_prepare hm hprepare
    rw [htargets] at hall
    obtain ⟨hothers, hturns⟩ := each_of_runs_instrumentAll P.wellFormed (nodup_targets hm)
      (fun _ _ _ _ => rfl) hall
    constructor
    · intro id hid
      obtain ⟨k, hk, rfl⟩ := List.mem_iff_get.mp hid
      obtain ⟨turn, -⟩ := (List.forall₂_iff_get.mp hturns).2 k k.isLt (by
        rw [← hturns.length_eq]
        exact k.isLt)
      refine ⟨turn.s.func, turn.result, turn.passes.verify_eq_ok ?_ turn.fresh⟩
      exact P.weavable hm haccept hid turn.function turn.passes.checkEntry
    · intro hn
      obtain ⟨id, g, hg, hname, hsynthetic, hconstructor, hbody, hverify, hnone⟩ :=
        verify_of_runs_prepare hm hprepare (hseeded ▸ hn)
      refine ⟨id, g, ?_, hname, hsynthetic, hconstructor, hbody, hverify, hnone⟩
      rw [hothers, hg]
      intro hid
      obtain ⟨f, hf, htarget⟩ := (mem_targets hm).mp hid
      simp [Function.isTarget, hnone f hf] at htarget
  · suffices h : (instrument config).EndsIn m Any Error.NoViolation from
      fun name violation herror => h.2 _ herror name violation rfl
    rw [instrument_eq]
    refine ((prepare_endsIn hm).mono (fun _ _ => trivial) fun _ => .of_isOrdinary).bind
      fun prepared u hprepare _ =>
        endsIn_get_bind (EndsIn.bind ?_ fun _ _ _ _ => endsIn_pure trivial)
    obtain ⟨-, htargets, -, r?, P⟩ := of_runs_prepare hm hprepare
    rw [htargets]
    refine (instrumentAll_endsIn (V := fun f => f.checkEntry = .ok () → f.Weavable) P.wellFormed
      (nodup_targets hm) (fun _ _ _ _ => rfl) (fun _ h => h)
      (fun id hid f hf hentry => P.weavable hm haccept hid hf hentry)
      fun _ f dominators store s hweavable _ hstore passes e he => ?_).mono (fun _ _ => trivial)
        fun _ h => h
    rw [passes.verify_eq_ok (hweavable passes.checkEntry) hstore] at he
    cases he

end Module

/-! ### A function that walks along a row

The pointer goes round a loop, and the loop has an edge from a block that is never entered. A global
holds the address of another, so that a constructor is made. -/

/-- Read one cell after another. -/
def walkFunction : Function := .ofBlocks ⟨0⟩ "walk" ⟨.void, [.ptr (.int 32), .int 1], false⟩ [
  [(.void, .jump ⟨1⟩)],
  [(.ptr (.int 32), .phi [(val 0, ⟨0⟩), (val 5, ⟨1⟩), (val 7, ⟨2⟩)]), (.int 32, .load (val 3)),
    (.ptr (.int 32), .gep (val 3) [.const (.int 64 1)]), (.void, .branch (val 1) ⟨1⟩ ⟨3⟩)],
  [(.ptr (.int 32), .gep (val 0) [.const (.int 64 1)]), (.void, .jump ⟨1⟩)],
  [(.void, .ret none)]]

/-- The function, a cell, and a pointer to the cell. -/
def walkModule : Module where
  name := "walk"
  width := .bits64
  globals := #[⟨⟨0⟩, "cell", .int 32, some (.int 32 0), false⟩,
    ⟨⟨1⟩, "first", .ptr (.int 32), some (.global ⟨0⟩ (.ptr (.int 32))), false⟩]
  functions := #[walkFunction]

theorem instrument_valid_walkModule :
    let config : Config := { verifyOutput := false }
    walkModule.WellFormed ∧ walkFunction.Acceptable ∧
      ∃ report m', (Module.instrument config).Runs walkModule report m' ∧
        (∃ g, m'.function ⟨0⟩ = .ok g ∧ g.verify = .ok ()) ∧
        ∃ id g, m'.function id = .ok g ∧ g.name = globalInit ∧ g.verify = .ok () := by
  intro config
  have hm : walkModule.WellFormed := by decide +kernel
  have hwalk : walkFunction.Acceptable := by decide +kernel
  have haccept : ∀ id ∈ walkModule.targets, ∀ f, walkModule.function id = .ok f → f.Acceptable := by
    intro id hid f hf
    have htargets : walkModule.targets = [⟨0⟩] := by decide +kernel
    rw [htargets, List.mem_singleton] at hid
    subst hid
    obtain rfl : walkFunction = f := Except.ok.inj hf
    exact hwalk
  obtain ⟨report, hrun⟩ : ∃ report, (Module.instrument config).Runs walkModule report _ :=
    Edit.exists_runs (by decide +kernel)
  obtain ⟨htargets, hconstructor⟩ := (Module.instrument_valid hm haccept).1 report _ hrun
  have hseeded : report.seededGlobalFields ≠ 0 := by
    have hone : ((Module.instrument config).apply walkModule).1.toOption.map
        (·.seededGlobalFields) = some 1 := by decide +kernel
    rw [Edit.Runs] at hrun
    rw [hrun] at hone
    have hfields : report.seededGlobalFields = 1 := Option.some.inj hone
    omega
  obtain ⟨id, g, hg, hname, -, -, -, hverify, -⟩ := hconstructor hseeded
  exact ⟨hm, hwalk, report, _, hrun, htargets ⟨0⟩ (by decide +kernel), id, g, hg, hname, hverify⟩

end PointerGuard
