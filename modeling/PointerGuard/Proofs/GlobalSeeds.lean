import PointerGuard.Proofs.Addresses
import PointerGuard.Proofs.ModuleValidity

/-!
# What the constructor records

The constructor of a module stores the metadata of every pointer in the initializer of a global, at
its address and in the order of the addresses, and it stores nothing else.
-/

namespace PointerGuard

open Edit PointerGuard.Function PointerMetadata Constant

variable {i : Interface} {g : Global} {m : Module} {s u : Splice}

/-! ### Addresses of leaves -/

namespace Constant

variable {c : Constant}

theorem source_asVoidPtr : c.asVoidPtr.source = c.source := by
  rw [asVoidPtr]
  split <;> rfl

theorem extent?_asVoidPtr {offset : Int} :
    c.asVoidPtr.extent? i offset = c.extent? i offset := by
  rw [asVoidPtr]
  split <;> rfl

theorem mapM_asInt? (path : List Nat) :
    ((path.map fun index => int 32 (index : Nat)).map asInt?).mapM id =
      some (path.map Int.ofNat) := by
  induction path with
  | nil => rfl
  | cons index path ih =>
    rw [List.map_cons, List.map_cons, List.mapM_cons, ih]
    rfl

end Constant

namespace Global

/-- The leaves of the initializer of a global, if it has one. -/
def leaves (w : PointerWidth) (g : Global) : List Leaf :=
  match g.initializer with
  | none => []
  | some init => init.leaves w g.valueType

/-- A leaf lies inside a global. Its path leads there, and its address is that far from the start of
the global and refers to nothing else. -/
structure Locates (i : Interface) (g : Global) (leaf : Leaf) : Prop where
  pathOffset? : Layout.pathOffset? i.width g.valueType ((0 :: leaf.path).map Int.ofNat) =
    some (leaf.offset : Int)
  pathType? : Layout.pathType? g.valueType ((0 :: leaf.path).map fun k => some (Int.ofNat k)) =
    some (.ptr leaf.ty)
  source : (leaf.field g.address []).address.source = g.address
  extent? : (leaf.field g.address []).address.extent? i 0 =
    some ⟨Layout.size i.width g.valueType, leaf.offset⟩
  inside : leaf.offset + i.width.bytes ≤ Layout.size i.width g.valueType

/-- Some leaves are those of the initializer of a global, in the order of their places. -/
structure Lists (i : Interface) (g : Global) (leaves : List Leaf) : Prop where
  mem_iff : ∀ leaf, leaf ∈ leaves ↔
    ∃ init, g.initializer = some init ∧ init.HasLeaf i.width g.valueType leaf
  located : ∀ leaf ∈ leaves, g.Locates i leaf
  apart : leaves.Pairwise fun a b => a.offset + i.width.bytes ≤ b.offset

variable {leaf : Leaf} {info : GlobalInfo}

theorem source_address : (leaf.field g.address []).address.source = g.address := by
  rw [Leaf.field, PointerField.addressOf]
  split <;> rw [source_asVoidPtr] <;> rfl

theorem extent?_address (hinfo : i.globals[g.id.index]? = some info)
    (hexternal : info.external = false) (htype : info.valueType = g.valueType)
    (hsize : leaf.offset < 2 ^ 63)
    (hpath : Layout.pathOffset? i.width g.valueType ((0 :: leaf.path).map Int.ofNat) =
      some (leaf.offset : Int)) :
    (leaf.field g.address []).address.extent? i 0 =
      some ⟨Layout.size i.width g.valueType, leaf.offset⟩ := by
  have hglobal : ∀ offset, g.address.extent? i offset =
      some ⟨Layout.size i.width g.valueType, offset⟩ := by
    simp [address, Constant.extent?, hinfo, hexternal, htype]
  rw [Leaf.field, PointerField.addressOf, List.nil_append]
  split
  · -- the whole global: no step leads anywhere
    rename_i hnil
    rw [List.isEmpty_iff.mp hnil] at hpath
    simp only [List.map_cons, Layout.pathOffset?,
      Option.bind_eq_bind, Option.bind_eq_some_iff] at hpath
    obtain ⟨stride, -, start, hstart, hoffset⟩ := hpath
    have hzero := signedWord?_eq_some hstart
    rw [Option.some.inj hoffset] at hzero
    rw [Constant.extent?_asVoidPtr, hglobal, hzero]
    simp
  · have hadvance : advance? i.width 0 g.address.ty (((0 :: leaf.path).map fun index =>
        Constant.int 32 (index : Nat)).map Constant.asInt?) = some (leaf.offset : Int) := by
      have hpointee : g.address.ty.pointee? = some g.valueType := rfl
      rw [advance?, Constant.mapM_asInt?, hpointee, Option.bind_eq_bind, Option.bind_some,
        Option.bind_eq_bind, Option.bind_some, hpath, Option.bind_eq_bind, Option.bind_some,
        Int.zero_add, signedWord?_of_lt hsize]
    rw [Constant.extent?_asVoidPtr, Constant.extent?, hadvance, Option.bind_eq_bind,
      Option.bind_some, hglobal]

theorem mem_leaves (w : PointerWidth) : leaf ∈ g.leaves w ↔
    ∃ init, g.initializer = some init ∧ init.HasLeaf w g.valueType leaf := by
  rw [leaves]
  cases g.initializer with
  | none => simp
  | some init => simp [Constant.mem_leaves]

end Global

/-! ### Globals -/

namespace Module

/-- Globals stand where their handles say, their initializers fit their types, and their sizes are
signed words. -/
structure Initialized (m : Module) : Prop where
  global_eq : ∀ g ∈ m.globals, m.globals[g.id.index]? = some g
  hasType : ∀ g ∈ m.globals, g.initializer.all fun init => init.hasType g.valueType
  size_lt : ∀ g ∈ m.globals, Layout.size m.width g.valueType < 2 ^ 63

instance {m : Module} : Decidable m.Initialized :=
  decidable_of_iff (∀ g ∈ m.globals, m.globals[g.id.index]? = some g ∧
      (g.initializer.all fun init => init.hasType g.valueType) ∧
      Layout.size m.width g.valueType < 2 ^ 63)
    ⟨fun h => ⟨fun g hg => (h g hg).1, fun g hg => (h g hg).2.1, fun g hg => (h g hg).2.2⟩,
      fun h g hg => ⟨h.global_eq g hg, h.hasType g hg, h.size_lt g hg⟩⟩

/-- The pointers in the initializers of all globals. -/
def initialFields (m : Module) : List PointerField :=
  m.globals.toList.flatMap fun g => (g.leaves m.width).map (Leaf.field g.address [])

namespace Initialized

variable (hm : m.Initialized)

include hm

/-- Collecting the pointers in initializers succeeds and finds all of them. -/
theorem pointerFields_eq : m.pointerFields = .ok m.initialFields := by
  have hfound : m.globals.toList.mapM pointerFieldsOf =
      .ok (m.globals.toList.map fun g => (g.leaves m.width).map (Leaf.field g.address [])) := by
    rw [Outcome.mapM_eq_ok, List.forall₂_map_right_iff, List.forall₂_same]
    intro g hg
    have htype := hm.hasType g (Array.mem_toList_iff.mp hg)
    rw [pointerFieldsOf, Global.leaves]
    cases hinit : g.initializer with
    | none => rfl
    | some init =>
      rw [hinit] at htype
      exact PointerField.collect_eq htype
  rw [pointerFields, hfound]
  rfl

theorem lists (hg : g ∈ m.globals) : g.Lists m.interface (g.leaves m.width) := by
  have hsize := hm.size_lt g hg
  refine ⟨fun leaf => Global.mem_leaves m.width, fun leaf hleaf => ?_, ?_⟩
  · obtain ⟨init, hinit, hleaf⟩ := (Global.mem_leaves m.width).mp hleaf
    have hpath := hleaf.pathOffset?_eq hsize
    have hinside := hleaf.inside hsize
    have hinfo : m.interface.globals[g.id.index]? = some ⟨g.name, g.valueType, g.isExternal⟩ := by
      rw [interface, Array.getElem?_map, hm.global_eq g hg, Option.map_some]
    refine ⟨hpath, ?_, Global.source_address, Global.extent?_address hinfo ?_ rfl ?_ hpath, hinside⟩
    · rw [List.map_cons, Layout.pathType?, hleaf.walkType?_eq, Option.map_some]
    · rw [Global.isExternal, hinit, Option.isNone_some]
    · omega
  · rw [Global.leaves]
    split
    · exact .nil
    · exact pairwise_leaves hsize

end Initialized

end Module

/-! ### Stores -/

/-- An instruction records a pointer of an initializer: it stores the metadata of the pointer at its
address, as far as metadata is tracked. -/
def PointerField.RecordedBy (field : PointerField) (i : Interface) (t : RoutineTable)
    (config : Config) (lock : Operand) (kind : InstKind) : Prop :=
  ∃ md, field.value.fold i = .ok md ∧
    kind = .call (t.callee .metadataStore)
      [.const field.address,
        .const (if config.spatialSafety then md.base else .nullVoidPtr),
        .const (if config.spatialSafety then md.bound else .nullVoidPtr),
        .const (keyConstant i.width (if config.temporalSafety then md.key else 0)),
        if config.temporalSafety && md.needsGlobalLock then lock else .const .nullVoidPtr]
      (t.signature .metadataStore)

/-- The code of a constructor: it asks for the lock of globals if keys are tracked, records the
fields one after another, and returns. -/
structure Function.Records (g : Function) (i : Interface) (t : RoutineTable) (config : Config)
    (fields : List PointerField) (asked : List ValueId) (lock : Operand) (stores : List ValueId)
    (exit : ValueId) : Prop where
  size : g.blocks.size = 1
  insts : g.instsOf ⟨0⟩ = asked ++ stores ++ [exit]
  asks : if config.temporalSafety then ∃ x, asked = [x] ∧ lock = .value x ∧
      g.kind? x = some (.call (t.callee .globalLock) [] (t.signature .globalLock))
    else asked = [] ∧ lock = .const .nullVoidPtr
  records : List.Forall₂ (fun (field : PointerField) x => ∃ kind, g.kind? x = some kind ∧
    field.RecordedBy i t config lock kind) fields stores
  returns : g.kind? exit = some (.ret none)

namespace Module

variable {t : RoutineTable} {config : Config} {lock : Operand} {fields : List PointerField}

private theorem inserts_of_runs_seedField {field : PointerField}
    (h : (seedField i t config lock field).Runs s ⟨⟩ u) :
    ∃ x kind, field.RecordedBy i t config lock kind ∧ s.Inserts [x] [kind] u := by
  simp only [seedField, runs_bind, runs_ofExcept] at h
  obtain ⟨md, _, ⟨hfold, rfl⟩, x, _, hcall, -, rfl⟩ := h
  refine ⟨x, _, ⟨md, hfold, ?_⟩, Splice.inserts_insert hcall⟩
  cases hspatial : config.spatialSafety <;> cases htemporal : config.temporalSafety <;>
    cases hlock : md.lock <;>
    simp [FoldedMetadata.materialize, FoldedMetadata.needsGlobalLock, hlock,
      baseOrNull, boundOrNull, keyOrZero,
      lockOrNull]

theorem inserts_of_runs_seedEach (h : (fields.forM (seedField i t config lock)).Runs s ⟨⟩ u) :
    ∃ ids kinds,
      List.Forall₂ (fun field kind => field.RecordedBy i t config lock kind) fields kinds ∧
      s.Inserts ids kinds u := by
  induction fields generalizing s with
  | nil => exact ⟨[], [], .nil, runs_forM_nil.mp h ▸ .refl⟩
  | cons field fields ih =>
    obtain ⟨v, hfield, hrest⟩ := runs_forM_cons.mp h
    obtain ⟨x, kind, hkind, I⟩ := inserts_of_runs_seedField hfield
    obtain ⟨ids, kinds, hkinds, I'⟩ := ih hrest
    exact ⟨x :: ids, kind :: kinds, .cons hkind hkinds, I.trans I'⟩

/-- The stores stand in front of the return, behind what was there before. -/
theorem stores_of_runs_seedEach {asked : List ValueId} {exit : ValueId}
    (h : (fields.forM (seedField i t config lock)).Runs s ⟨⟩ u) (hblock : s.block = ⟨0⟩)
    (hsize : s.func.blocks.size = 1) (hinsts : s.func.instsOf ⟨0⟩ = asked ++ [exit])
    (hposition : s.position = asked.length) :
    u.func.blocks.size = 1 ∧ (∀ x kind, s.func.kind? x = some kind → u.func.kind? x = some kind) ∧
      ∃ stores, u.func.instsOf ⟨0⟩ = asked ++ stores ++ [exit] ∧
        List.Forall₂ (fun (field : PointerField) x => ∃ kind, u.func.kind? x = some kind ∧
          field.RecordedBy i t config lock kind) fields stores := by
  obtain ⟨stores, kinds, hkinds, I⟩ := inserts_of_runs_seedEach h
  obtain ⟨hlist, -, hblocks, -⟩ := I.instsOf_eq (by simp [hblock, hsize])
    (by rw [hblock, hinsts]) hposition
  refine ⟨hblocks.trans hsize, fun x kind => I.kind?_eq, stores, by rwa [hblock] at hlist, ?_⟩
  -- the kinds of the stores are those that were inserted, in order
  have hrecorded : List.Forall₂ (fun (field : PointerField) (kind? : Option InstKind) =>
      ∃ kind, kind? = some kind ∧ field.RecordedBy i t config lock kind) fields
      (stores.map u.func.kind?) := by
    rw [I.map_kind?, List.forall₂_map_right_iff]
    exact hkinds.imp fun _ kind h => ⟨kind, rfl, h⟩
  exact List.forall₂_map_right_iff.mp hrecorded

/-- The constructor records every pointer in an initializer, and does nothing else. -/
theorem Seeding.records {g : Function} (S : Seeding m t config g) : ∃ asked lock stores exit,
    g.Records m.interface t config S.fields asked lock stores exit := by
  obtain ⟨start, exit, fields, s, hstart, -, -, -, -, hrun, rfl⟩ := S
  have hreturns : start.kind? exit = some (.ret none) :=
    kind?_of_inst? hstart.inst
  rcases runs_ite.mp hrun with ⟨htemporal, h⟩ | ⟨htemporal, h⟩
  · simp only [map_eq_pure_bind, runs_bind] at h
    obtain ⟨_, u, ⟨x, v, hcall, rfl, rfl⟩, h⟩ := h
    obtain ⟨rfl, rfl⟩ := Splice.runs_insert.mp hcall
    have hinsts : (start.insertAt ⟨0⟩ 0 (.call (t.callee .globalLock) [] (t.signature .globalLock))
        (t.signature .globalLock).ret).instsOf ⟨0⟩ = [start.nextValue] ++ [exit] := by
      rw [instsOf_insertAt (by simp [hstart.size]), hstart.insts]
      rfl
    obtain ⟨hsize, hkeep, stores, hinsts, hstores⟩ := stores_of_runs_seedEach h rfl
      (by rw [Splice.push, size_blocks_insertAt, hstart.size]) hinsts rfl
    refine ⟨_, _, stores, exit, hsize, hinsts, ?_, hstores, hkeep _ _
      ((Splice.Inserts.push .refl).kind?_eq hreturns)⟩
    rw [if_pos htemporal]
    exact ⟨_, rfl, rfl, hkeep _ _ (kind?_eq_some_iff.mpr
      ⟨_, inst?_insertAt_nextValue, rfl⟩)⟩
  · simp only [runs_bind] at h
    obtain ⟨_, _, ⟨rfl, rfl⟩, h⟩ := h
    have hinsts : start.instsOf ⟨0⟩ = [] ++ [exit] := hstart.insts
    obtain ⟨hsize, hkeep, stores, hinsts, hstores⟩ := stores_of_runs_seedEach h rfl hstart.size
      hinsts rfl
    exact ⟨[], _, stores, exit, hsize, hinsts, by rw [if_neg htemporal]; exact ⟨rfl, rfl⟩, hstores,
      hkeep _ _ hreturns⟩

/-- The constructor that is made for the globals of a module records exactly the pointers in their
initializers, at the addresses where they lie. -/
theorem seedGlobals_records (hm : m.WellFormed) (hi : m.Initialized) :
    m.pointerFields = .ok m.initialFields ∧
    (∀ g ∈ m.globals, g.Lists m.interface (g.leaves m.width)) ∧
    ∀ t config n m', (seedGlobals t config).Runs m n m' →
      n = m.initialFields.length ∧ (n = 0 → m' = m) ∧
      (n ≠ 0 → ∃ id g, m'.function id = .ok g ∧ g.name = globalInit ∧ g.flags.synthetic ∧
        g.flags.constructor ∧ (∀ f, m.function id = .ok f → f.isDeclaration) ∧
        (∀ other, other ≠ id → m'.function other = m.function other) ∧
        ∃ asked lock stores exit,
          g.Records m.interface t config m.initialFields asked lock stores exit) := by
  refine ⟨hi.pointerFields_eq, fun g hg => hi.lists hg, fun t config n m' hrun => ?_⟩
  obtain ⟨fields, hfields, hcount, hnone⟩ := fields_of_runs_seedGlobals hrun
  obtain rfl := Except.ok.inj (hi.pointerFields_eq.symm.trans hfields)
  refine ⟨hcount, fun hn => hnone (List.length_eq_zero_iff.mp (hcount.symm.trans hn)), fun hn => ?_⟩
  obtain ⟨id, g, hg, ⟨S⟩, hbody, hothers⟩ := seeding_of_runs_seedGlobals hm hrun hn
  obtain ⟨hname, hsynthetic, hconstructor, -⟩ := S.header
  refine ⟨id, g, hg, hname, hsynthetic, hconstructor, hbody, hothers, ?_⟩
  have hrecords := S.records
  rwa [Except.ok.inj (S.pointerFields.symm.trans hfields)] at hrecords

end Module

/-! ### A table with rows

The table has padding, a row that is zero as a whole, a list of length zero and a pointer that is
zero. -/

/-- A cell, a pointer to it, and the table. -/
def rowsModule : Module :=
  let row : Ty := .struct [.int 16, .ptr (.int 32)]
  let cell : Constant := .global ⟨0⟩ (.ptr (.int 32))
  let table : Ty := .struct [.int 8, .ptr (.int 32), .array row 2, .array (.ptr row) 0, .ptr row]
  { name := "rows"
    width := .bits64
    globals := #[⟨⟨0⟩, "cell", .int 32, some (.int 32 0), false⟩,
      ⟨⟨1⟩, "first", .ptr (.int 32), some cell, false⟩,
      ⟨⟨2⟩, "table", table, some (.aggregate table [.int 8 1, cell,
        .aggregate (.array row 2) [.aggregate row [.int 16 7, cell], .zero row],
        .aggregate (.array (.ptr row) 0) [], .zero (.ptr row)]), false⟩]
    functions := #[] }

theorem seedGlobals_records_rowsModule :
    let t : RoutineTable := ⟨.bits64, (List.range Routine.all.length).map FuncId.mk⟩
    ∃ m, RoutineTable.declare.Runs rowsModule t m ∧ m.WellFormed ∧ m.Initialized ∧
      (m.globals.toList.map fun g => (g.leaves .bits64).map fun leaf =>
        (leaf.path, leaf.offset)) = [[], [([], 0)], [([1], 8), ([2, 0, 1], 24)]] ∧
      ∃ n m', (Module.seedGlobals t {}).Runs m n m' ∧ n = 3 ∧
        ∃ id g, m'.function id = .ok g ∧ g.name = globalInit ∧ ∃ asked lock stores exit,
          g.Records m.interface t {} m.initialFields asked lock stores exit := by
  intro t
  let m := (RoutineTable.declare.apply rowsModule).2
  obtain ⟨_, hdeclare, rfl⟩ : ∃ t', RoutineTable.declare.Runs rowsModule t' m ∧ t' = t :=
    exists_runs_of_map (by decide +kernel)
  have hm : m.WellFormed := by decide +kernel
  have hi : m.Initialized := by decide +kernel
  obtain ⟨n, hrun⟩ : ∃ n, (Module.seedGlobals t {}).Runs m n _ :=
    exists_runs (by decide +kernel)
  obtain ⟨hn, -, hcode⟩ := (Module.seedGlobals_records hm hi).2.2 t {} n _ hrun
  have hthree : m.initialFields.length = 3 := by decide +kernel
  obtain ⟨id, g, hg, hname, -, -, -, -, hrecords⟩ := hcode (by omega)
  exact ⟨m, hdeclare, hm, hi, by decide +kernel, n, _, hrun, hn.trans hthree, id, g, hg, hname,
    hrecords⟩

end PointerGuard
