import PointerGuard.Proofs.Records

/-!
# The insertions of the passes

Records are loaded, stored, chosen and taken apart one component after another. These edits are
shown to be loops over components, so that a rule for the loop says of all of them what is known of
single insertions. The rules tell what each run of insertions adds and what its results are made by;
nothing here depends on where the splice was opened.
-/

namespace PointerGuard

open Edit PointerMetadata

variable {x record : ValueId} {env : Env} {md onTrue onFalse : PointerMetadata}
  {operand cond : Operand} {slot : Nat} {a b : Bool} {spatial temporal : Option (ValueId × ValueId)}
  {results : List (Component × ValueId)} {make : Component → Edit Splice ValueId} {s u v : Splice}
  {p : Routine → Prop} {c : Component} {made : Component → Operand → Prop}

/-! ### Lists of components -/

namespace Component

def type (w : PointerWidth) (c : Component) : Ty := Store.componentType ⟨w, []⟩ c

/-- The routine that stores a component into a shadow frame. -/
def storer : Component → Routine
  | .base => .storeBase
  | .bound => .storeBound
  | .key => .storeKey
  | .lock => .storeLock

/-- The components of the halves that are there, in order. -/
def ofHalves (spatial temporal : Bool) : List Component :=
  (if spatial then [.base, .bound] else []) ++ if temporal then [.key, .lock] else []

theorem mem_ofHalves_and {a' b' : Bool} :
    c ∈ ofHalves (a && a') (b && b') ↔ c ∈ ofHalves a b ∧ c ∈ ofHalves a' b' := by
  cases a <;> cases a' <;> cases b <;> cases b' <;> cases c <;> simp [ofHalves]

end Component

/-- The components that are tracked, in order. -/
def Env.components (env : Env) : List Component := [.base, .bound, .key, .lock].filter env.tracks

theorem Env.components_eq (env : Env) :
    env.components = Component.ofHalves env.config.spatialSafety env.config.temporalSafety := by
  cases hspatial : env.config.spatialSafety <;> cases htemporal : env.config.temporalSafety <;>
    simp [components, tracks, Component.ofHalves, hspatial, htemporal]

theorem Env.mem_components : c ∈ env.components ↔ env.tracks c := by
  cases c <;> simp [components]

namespace PointerMetadata

/-- The components that a record has, in order. -/
def parts (md : PointerMetadata) : List Component :=
  Component.ofHalves md.spatial.isSome md.temporal.isSome

theorem mem_parts : c ∈ md.parts ↔ (md.get? c).isSome := by
  obtain ⟨spatial, temporal⟩ := md
  cases spatial <;> cases temporal <;> cases c <;> simp [parts, get?, Component.ofHalves]

theorem get?_component (h : c ∈ md.parts) (w : PointerWidth) :
    md.get? c = some (md.component w c) := by
  obtain ⟨spatial, temporal⟩ := md
  cases spatial <;> cases temporal <;> cases c <;>
    first | rfl | simp [parts, Component.ofHalves] at h

end PointerMetadata

theorem Env.Consists.parts_eq (h : env.Consists md made) : md.parts = env.components := by
  rw [Env.components_eq, parts, h.isSome_spatial, h.isSome_temporal]

/-! ### Results -/

namespace Weaving

def placeholderRecord (spatial temporal : Option (ValueId × ValueId)) : PointerMetadata :=
  ⟨spatial.map fun (base, bound) => ⟨base, bound⟩, temporal.map fun (key, lock) => ⟨key, lock⟩⟩

/-- The placeholder phis with the components they carry. -/
def placeholderShadows (spatial temporal : Option (ValueId × ValueId)) :
    List (Component × ValueId) :=
  (spatial.map fun (base, bound) => [(Component.base, base), (.bound, bound)]).getD [] ++
    (temporal.map fun (key, lock) => [(Component.key, key), (.lock, lock)]).getD []

theorem get?_placeholderRecord : (placeholderRecord spatial temporal).get? c = some operand ↔
    ∃ x, operand = .value x ∧ (c, x) ∈ placeholderShadows spatial temporal := by
  cases spatial <;> cases temporal <;> cases c <;>
    simp [placeholderShadows, placeholderRecord, get?, eq_comm]

theorem mem_placeholderShadows : (c, x) ∈ placeholderShadows spatial temporal ↔
    (placeholderRecord spatial temporal).get? c = some (.value x) := by
  simp [get?_placeholderRecord]

/-- The results for both components of a half. -/
def pair? (results : List (Component × ValueId)) (c c' : Component) :
    Option (ValueId × ValueId) := do
  return (← results.lookup c, ← results.lookup c')

/-- The halves of what was inserted for some components. -/
def halves (results : List (Component × ValueId)) :
    Option (ValueId × ValueId) × Option (ValueId × ValueId) :=
  (pair? results .base .bound, pair? results .key .lock)

/-- The record that consists of what was inserted for some components. -/
def recordOf (results : List (Component × ValueId)) : PointerMetadata :=
  placeholderRecord (halves results).1 (halves results).2

section

variable (h : results.map Prod.fst = Component.ofHalves a b)

include h

theorem placeholderShadows_halves :
    placeholderShadows (halves results).1 (halves results).2 = results := by
  cases a <;> cases b <;>
    simp only [Component.ofHalves, if_true, Bool.false_eq_true, if_false, List.nil_append,
      List.cons_append, List.map_eq_cons_iff, List.map_eq_nil_iff] at h
  · rw [h]
    rfl
  · obtain ⟨⟨_, key⟩, _, rfl, rfl, ⟨_, lock⟩, _, rfl, rfl, rfl⟩ := h
    rfl
  · obtain ⟨⟨_, base⟩, _, rfl, rfl, ⟨_, bound⟩, _, rfl, rfl, rfl⟩ := h
    rfl
  · obtain ⟨⟨_, base⟩, _, rfl, rfl, ⟨_, bound⟩, _, rfl, rfl, ⟨_, key⟩, _, rfl, rfl,
      ⟨_, lock⟩, _, rfl, rfl, rfl⟩ := h
    rfl

theorem get?_recordOf :
    (recordOf results).get? c = some operand ↔ ∃ x, operand = .value x ∧ (c, x) ∈ results := by
  rw [recordOf, get?_placeholderRecord, placeholderShadows_halves h]

theorem isSome_get?_recordOf :
    ((recordOf results).get? c).isSome ↔ c ∈ results.map Prod.fst := by
  simp [Option.isSome_iff_exists, get?_recordOf h]

theorem isSome_halves_recordOf :
    (recordOf results).spatial.isSome = a ∧ (recordOf results).temporal.isSome = b := by
  have hbase := isSome_get?_recordOf (c := .base) h
  have hkey := isSome_get?_recordOf (c := .key) h
  cases a <;> cases b <;> simp_all [Component.ofHalves, get?]

end

theorem recordOf_placeholderShadows :
    recordOf (placeholderShadows spatial temporal) = placeholderRecord spatial temporal := by
  cases spatial <;> cases temporal <;> rfl

end Weaving

open Weaving in
/-- What was inserted for the components that are tracked is a record of them. -/
theorem Env.consists_recordOf (h : results.map Prod.fst = env.components)
    (hmade : ∀ c x, (c, x) ∈ results → made c (.value x)) :
    env.Consists (recordOf results) made := by
  have hget : ∀ c operand, (recordOf results).get? c = some operand ↔
      ∃ x, operand = .value x ∧ (c, x) ∈ results :=
    fun _ _ => get?_recordOf (h.trans env.components_eq)
  intro c
  split
  · rename_i htracks
    obtain ⟨⟨_, x⟩, hx, rfl⟩ := List.mem_map.mp (h ▸ mem_components.mpr htracks)
    exact ⟨.value x, (hget _ _).mpr ⟨x, rfl, hx⟩, hmade _ x hx⟩
  · rename_i htracks
    refine Option.eq_none_iff_forall_ne_some.mpr fun operand hoperand => htracks ?_
    obtain ⟨x, -, hx⟩ := (hget c operand).mp hoperand
    exact mem_components.mp (h ▸ List.mem_map_of_mem hx)

/-! ### Loops -/

namespace Splice

variable {components : List Component}

/-- One insertion for each of some components. -/
def each (components : List Component) (make : Component → Edit Splice ValueId) :
    Edit Splice (List (Component × ValueId)) :=
  components.mapM fun c => (c, ·) <$> make c

theorem runs_each_nil : (each [] make).Runs s results u ↔ results = [] ∧ s = u := runs_mapM_nil

theorem runs_each_cons : (each (c :: components) make).Runs s results v ↔
    ∃ x u rest, (make c).Runs s x u ∧ (each components make).Runs u rest v ∧
      results = (c, x) :: rest := by
  simp only [each, runs_mapM_cons, runs_map]
  constructor
  · grind
  · grind

theorem keys_of_runs_each (h : (each components make).Runs s results u) :
    results.map Prod.fst = components := by
  induction components generalizing s results with
  | nil =>
    obtain ⟨rfl, -⟩ := runs_each_nil.mp h
    rfl
  | cons c rest ih => grind [runs_each_cons]

/-- The results are inserted in the order of the components. -/
theorem inserts_each {kind : Component → InstKind}
    (hmake : ∀ {c s x u}, (make c).Runs s x u → s.Inserts [x] [kind c] u)
    (h : (each components make).Runs s results v) :
    s.Inserts (results.map Prod.snd) (components.map kind) v := by
  induction components generalizing s results with
  | nil =>
    obtain ⟨rfl, rfl⟩ := runs_each_nil.mp h
    exact .refl
  | cons c rest ih =>
    obtain ⟨x, u, more, hx, hmore, rfl⟩ := runs_each_cons.mp h
    exact (hmake hx).trans (ih hmore)

end Splice

/-! ### Edits that are loops -/

open Weaving Splice

theorem ShadowFrame.loadSlot_eq : loadSlot env slot =
    recordOf <$> each env.components fun c => env.routines.call c.loader [slotOperand slot] := by
  rw [Env.components_eq, loadSlot]
  split <;> split <;> simp [*] <;> rfl

theorem ShadowFrame.storeSlot_eq {t : RoutineTable} (w : PointerWidth) :
    storeSlot t md slot = (fun _ => ⟨⟩) <$> each md.parts fun c =>
      t.call c.storer [md.component w c, slotOperand slot] := by
  obtain ⟨spatial, temporal⟩ := md
  cases spatial <;> cases temporal <;>
    simp [each] <;> rfl

theorem Weaving.extractRecord_eq : extractRecord env record =
    recordOf <$> each env.components fun c => extract record (Routine.loadedField c) := by
  rw [Env.components_eq, extractRecord]
  split <;> split <;> simp [*, Component.ofHalves, each] <;> rfl

theorem Weaving.selectComponents_eq (w : PointerWidth) :
    selectComponents cond onTrue onFalse =
    recordOf <$> each (Component.ofHalves (onTrue.spatial.isSome && onFalse.spatial.isSome)
      (onTrue.temporal.isSome && onFalse.temporal.isSome)) fun c =>
        select cond (onTrue.component w c) (onFalse.component w c) := by
  obtain ⟨spatial, temporal⟩ := onTrue
  obtain ⟨spatial', temporal'⟩ := onFalse
  cases spatial <;> cases spatial' <;> cases temporal <;> cases temporal' <;>
    simp [Component.ofHalves, each] <;> rfl

theorem Weaving.placeholderPhis_eq : placeholderPhis env =
    halves <$> each env.components fun c => phi (c.type env.width) := by
  rw [Env.components_eq, placeholderPhis]
  split <;> split <;> simp [*] <;> rfl

/-- The shadows are inserted one after another, in the order of the components. -/
theorem Weaving.runs_placeholderPhis (h : (placeholderPhis env).Runs s (spatial, temporal) u) :
    (each env.components fun c => phi (c.type env.width)).Runs s
      (placeholderShadows spatial temporal) u := by
  rw [placeholderPhis_eq, runs_map] at h
  obtain ⟨results, h, hresults⟩ := h
  have hshadows := placeholderShadows_halves ((keys_of_runs_each h).trans env.components_eq)
  rw [hresults] at hshadows
  rwa [hshadows]

/-! ### Routines -/

/-- Does a routine guard loads or stores? -/
def Routine.checksAccess : Routine → Bool
  | .spatialLoadCheck | .spatialStoreCheck | .temporalLoadCheck | .temporalStoreCheck => true
  | _ => false

/-- All routines are allowed that guard no access. -/
abbrev Lenient (p : Routine → Prop) : Prop := ∀ r : Routine, r.checksAccess = false → p r

/-- Does a routine work on shadow frames? -/
def Routine.onFrames : Routine → Bool
  | .allocateFrame | .deallocateFrame | .loadBase | .loadBound | .loadKey | .loadLock | .storeBase
  | .storeBound | .storeKey | .storeLock => true
  | _ => false

namespace Env

/-- No two routines have the same address. -/
def Distinct (env : Env) : Prop :=
  ∀ r r', env.routines.callee r = env.routines.callee r' → r = r'

/-- Does an instruction call one of some routines? -/
def calls (env : Env) (q : Routine → Bool) : InstKind → Bool
  | .call callee _ _ => Routine.all.any fun r => q r && callee = env.routines.callee r
  | _ => false

variable {q : Routine → Bool}

theorem calls_callOf {r : Routine} {args : List Operand} (hr : q r) :
    env.calls q (env.callOf r args) := by
  refine List.any_eq_true.mpr ⟨r, r.mem_all, ?_⟩
  rw [hr, Bool.true_and, decide_eq_true_iff]

theorem calls_eq_false (hdistinct : env.Distinct) (hp : ∀ r, p r → q r = false) {kind : InstKind}
    (hkind : kind.Weft env.routines p ∨ kind.isPhi) : env.calls q kind = false := by
  rcases hkind with weft | hphi
  · cases weft with
    | @call r args hr =>
      rw [calls, List.any_eq_false]
      intro r' _ h'
      rw [Bool.and_eq_true, decide_eq_true_iff] at h'
      rw [← hdistinct r r' h'.2, hp r hr] at h'
      cases h'.1
    | _ => rfl
  · cases kind with
    | phi incoming => rfl
    | _ => cases hphi

/-- One splice has become another by insertions that belong to no phi and call some routines. -/
abbrev Adds (env : Env) (p : Routine → Prop) (given : Operand → Prop) : Splice → Splice → Prop :=
  Splice.Adds (InstKind.Plain env.routines p) given

end Env

namespace Splice.Adds

open Edit Weaving ShadowFrame

variable {given : Operand → Prop}

theorem usable_slot : ∀ arg ∈ [slotOperand slot], Usable given s u arg := by
  simp [Usable, slotOperand, Operand.value?]

/-- Insertions for some components, each of which makes something of its own. -/
theorem each {allowed : InstKind → Prop} {components : List Component} (A : Adds allowed given s u)
    (made : Splice → Component → ValueId → Prop)
    (hmono : ∀ {w w' c x}, Extends w w' → made w c x → made w' c x)
    (hmake : ∀ {c w x w'}, c ∈ components → Adds allowed given s w → Extends u w →
      (make c).Runs w x w' → Adds allowed given s w' ∧ Extends w w' ∧ made w' c x)
    (h : (Splice.each components make).Runs u results v) :
    Adds allowed given s v ∧ Extends u v ∧ ∀ c x, (c, x) ∈ results → made v c x := by
  induction components generalizing u results with
  | nil =>
    obtain ⟨rfl, rfl⟩ := runs_each_nil.mp h
    exact ⟨A, fun _ _ h => h, by simp⟩
  | cons c rest ih =>
    obtain ⟨x, w, more, hx, hmore, rfl⟩ := runs_each_cons.mp h
    obtain ⟨B, E, hmade⟩ := hmake (.head _) A (fun _ _ h => h) hx
    obtain ⟨C, E', hrest⟩ :=
      ih B (fun hc C E' => hmake (.tail _ hc) C (E.trans E')) hmore
    -- what was made first stays made
    refine ⟨C, E.trans E', fun c' x' hx' => ?_⟩
    rcases List.mem_cons.mp hx' with e | hx'
    · cases e
      exact hmono E' hmade
    · exact hrest c' x' hx'

section

variable (A : env.Adds p given s u)

include A

theorem loadSlot (hp : Lenient p) (h : (ShadowFrame.loadSlot env slot).Runs u md v) :
    env.Adds p given s v ∧ Extends u v ∧
      env.Consists md (fun c operand =>
        v.func.Made (Fresh s) (env.slotLoad slot c) operand ∧ Usable given s v operand) := by
  rw [loadSlot_eq, runs_map] at h
  obtain ⟨results, h, rfl⟩ := h
  obtain ⟨B, E, hmade⟩ :=
    A.each (fun w c x => w.func.Made (Fresh s) (env.slotLoad slot c) (.value x) ∧
    Usable given s w (.value x)) (fun E h => ⟨E.made h.1, h.2.mono E⟩)
      (fun {c} _ _ _ _ B _ hcall => by
      obtain ⟨C, E, N⟩ := B.call hcall (hp _ (by cases c <;> rfl)) usable_slot
      exact ⟨C, E, N.made, N.usable (by cases c <;> rfl)⟩) h
  exact ⟨B, E, Env.consists_recordOf (keys_of_runs_each h) hmade⟩

theorem storeSlot (hp : Lenient p)
    (hmd : ∀ c operand, md.get? c = some operand → Usable given s u operand)
    (h : (ShadowFrame.storeSlot env.routines md slot).Runs u ⟨⟩ v) :
    env.Adds p given s v ∧ Extends u v := by
  rw [storeSlot_eq env.width, runs_map] at h
  obtain ⟨results, h, -⟩ := h
  obtain ⟨B, E, -⟩ := A.each (fun _ _ _ => True) (fun _ h => h) (fun {c} _ _ _ hc B E hcall => by
    have hpart := hmd c _ (get?_component hc env.width)
    obtain ⟨C, E', -⟩ := B.call hcall (hp _ (by cases c <;> rfl))
      (List.forall_mem_cons.mpr ⟨hpart.mono E, usable_slot⟩)
    exact ⟨C, E', trivial⟩) h
  exact ⟨B, E⟩

theorem extractRecord (hrecord : Usable given s u (.value record))
    (h : (Weaving.extractRecord env record).Runs u md v) :
    env.Adds p given s v ∧ Extends u v ∧
      env.Consists md (fun c => v.func.Made (Fresh s)
        (.extract (.value record) (Routine.loadedField c))) := by
  rw [extractRecord_eq, runs_map] at h
  obtain ⟨results, h, rfl⟩ := h
  obtain ⟨B, E, hmade⟩ := A.each (fun w c x => w.func.Made (Fresh s)
    (.extract (.value record) (Routine.loadedField c)) (.value x)) (fun E h => E.made h)
    (fun _ B E hextract => by grind [extract, Usable.mono, New.made]) h
  exact ⟨B, E, Env.consists_recordOf (keys_of_runs_each h) hmade⟩

/-- A choice between two records has a choice for each component that both of them have. -/
theorem selectComponents (hcond : Usable given s u cond)
    (htrue : ∀ c operand, onTrue.get? c = some operand → Usable given s u operand)
    (hfalse : ∀ c operand, onFalse.get? c = some operand → Usable given s u operand)
    (h : (Weaving.selectComponents cond onTrue onFalse).Runs u md v) :
    env.Adds p given s v ∧ Extends u v ∧
      (∀ c, (md.get? c).isSome = ((onTrue.get? c).isSome && (onFalse.get? c).isSome)) ∧
      ∀ c a b operand, onTrue.get? c = some a → onFalse.get? c = some b →
        md.get? c = some operand → v.func.Made (Fresh s) (.select cond a b) operand := by
  rw [selectComponents_eq env.width, runs_map] at h
  obtain ⟨results, h, rfl⟩ := h
  have hkeys := keys_of_runs_each h
  obtain ⟨B, E, hmade⟩ := A.each (fun w c x => w.func.Made (Fresh s) (.select cond
    (onTrue.component env.width c) (onFalse.component env.width c)) (.value x))
      (fun E h => E.made h)
    (fun {c} _ _ _ hc B E hselect => by
      obtain ⟨ht, hf⟩ := Component.mem_ofHalves_and.mp hc
      obtain ⟨C, E', _, N⟩ := B.select hselect (hcond.mono E)
        ((htrue c _ (get?_component ht _)).mono E)
        ((hfalse c _ (get?_component hf _)).mono E)
      exact ⟨C, E', N.made⟩) h
  refine ⟨B, E, fun c => ?_, fun c a b operand ha hb hget => ?_⟩
  · rw [Bool.eq_iff_iff, isSome_get?_recordOf hkeys, hkeys, Component.mem_ofHalves_and,
      Bool.and_eq_true, ← mem_parts, ← mem_parts]
    rfl
  · grind [get?_recordOf, component_of_get?]

theorem storeSlots (hp : Lenient p) {mds : List (PointerMetadata × Nat)}
    (hmds : ∀ md ∈ mds, ∀ c operand, md.1.get? c = some operand → Usable given s u operand)
    (h : (mds.forM fun md => ShadowFrame.storeSlot env.routines md.1 (md.2 + 1)).Runs u ⟨⟩ v) :
    env.Adds p given s v := by
  refine (h.forM_induction (fun rest w => env.Adds p given s w ∧
    ∀ md ∈ rest, ∀ c operand, md.1.get? c = some operand → Usable given s w operand)
    ⟨A, hmds⟩ fun md rest w w' hw hbody => ?_).1
  obtain ⟨B, hrest⟩ := hw
  obtain ⟨C, E⟩ := B.storeSlot hp (hrest md (.head _)) hbody
  exact ⟨C, fun md' hmem c operand hget =>
    (hrest md' (.tail _ hmem) c operand hget).mono E⟩

end

end Splice.Adds

/-! ### Placeholders -/

namespace Splice.Adds

open Edit Weaving

/-- The tracked components get phis without edges, one each, and nothing else is inserted. -/
theorem placeholderPhis (h : (Weaving.placeholderPhis env).Runs s (spatial, temporal) v) :
    Adds (· = .phi []) Never s v ∧
      env.Consists (placeholderRecord spatial temporal)
        (fun _ => v.func.Made (Fresh s) (.phi [])) ∧
      ((placeholderShadows spatial temporal).map Prod.snd).Nodup ∧
      ∀ x info, v.func.value? x = some info → s.func.value? x = some info ∨
        x ∈ (placeholderShadows spatial temporal).map Prod.snd := by
  have h := runs_placeholderPhis h
  have start : Adds (· = .phi []) Never s s := .refl
  obtain ⟨A, -, hmade⟩ := start.each (fun w _ x => w.func.Made (Fresh s) (.phi []) (.value x))
    (fun E h => E.made h) (fun _ B _ hphi => by
      obtain ⟨C, E, N⟩ := B.insert hphi rfl (by simp [InstKind.operands])
      exact ⟨C, E, N.made⟩) h
  have I := inserts_each inserts_insert h
  have hrecord := Env.consists_recordOf (keys_of_runs_each h) hmade
  rw [recordOf_placeholderShadows] at hrecord
  exact ⟨A, hrecord, I.nodup, fun _ _ => I.mem_of_value?⟩

end Splice.Adds

end PointerGuard
