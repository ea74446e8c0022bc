import PointerGuard.Checks
import PointerGuard.GlobalSeed
import PointerGuard.Proofs.Concerns
import PointerGuard.Proofs.Naming
import PointerGuard.Proofs.Typing

/-!
# What insertions hand on

A condition on operands that holds of everything an insertion can make by itself, and of those that
are given, holds of all operands of what is inserted; with the right types, that is well typed. Both
are followed through each run of insertions, whatever its outcome.
-/

namespace PointerGuard

open Edit PointerGuard.Function PointerMetadata

variable {id : ValueId} {f g : Function} {cond ptr operand : Operand} {args : List Operand}
  {w : PointerWidth} {spatial temporal : Bool} {md : PointerMetadata} {t : RoutineTable}
  {point : InsertPoint} {i : Interface} {c : Component} {T : Terms}

/-! ### Ordinary failures -/

namespace Outcome

theorem ordinary_operandType : Ordinary (f.operandType operand) := by
  cases operand with
  | const c => exact ordinary_ok
  | value x =>
    rw [operandType]
    split
    · exact ordinary_ok
    · exact ordinary_error rfl

theorem ordinary_locate : Ordinary (f.locate point) := by
  rw [locate]
  split
  · exact ordinary_ok
  · exact ordinary_error rfl

theorem ordinary_addIncoming {phi : ValueId} {block : BlockId} :
    Ordinary (f.addIncoming phi operand block) := by
  rw [addIncoming]
  split
  · exact ordinary_ok
  · exact ordinary_error rfl

theorem ordinary_ofCall {ret : Ty} :
    Ordinary (ShadowFrame.ofCall f args ret) :=
  (ordinary_mapM fun _ _ => ordinary_operandType).bind fun _ _ => ordinary_ok

theorem ordinary_get {store : Store} : Ordinary (store.get f id) := by
  rw [Store.get]
  split
  · exact ordinary_ok
  · exact ordinary_error rfl

theorem ordinary_fold {c : Constant} : Ordinary (c.fold i) := by
  fun_induction Constant.fold i c with
  | case7 id t =>
    refine Ordinary.bind (fun e he => ?_) fun info _ => ?_
    · rw [Interface.global] at he
      split at he
      · cases he
      · cases he
        rfl
    · split <;> exact ordinary_ok
  | case9 base indices ty ih => exact ih
  | case10 value ty ih => exact ih
  | _ => first | exact ordinary_ok | exact ordinary_error rfl

end Outcome

open Outcome

/-! ### Recording -/

namespace Store

/-- All components that are recorded satisfy a condition. -/
def Each (P : ValueId → Component → Operand → Prop) (s : Store) : Prop :=
  ∀ v md, s.lookup v = some md → ∀ c operand, md.get? c = some operand → P v c operand

variable {P : ValueId → Component → Operand → Prop} {s : Store}

theorem Each.put (h : s.Each P) (hmd : ∀ c operand, md.get? c = some operand → P id c operand) :
    (s.put id md).Each P := by
  intro v found hlookup
  rw [lookup_put] at hlookup
  split at hlookup
  · rename_i heq
    cases hlookup
    exact heq ▸ hmd
  · exact h v found hlookup

private theorem Each.of_getD (h : s.Each P) (hget : ((s.lookup id).getD {}).get? c = some operand) :
    P id c operand := by
  cases hold : s.lookup id with
  | none =>
    rw [hold] at hget
    cases c <;> cases hget
  | some old =>
    rw [hold] at hget
    exact h id old hold c operand hget

/-- Recording keeps what holds of all components that are recorded if it holds of new ones of the
right types, also where it fails halfway. It fails in an ordinary way. -/
theorem associate_endsIn (hs : s.Each P) (hmd : ∀ c operand, md.get? c = some operand →
      f.operandType operand = .ok (s.componentType c) → P id c operand) :
    (associate f id md).EndsIn s (fun u => u.width = s.width ∧ u.Each P) (·.isOrdinary) := by
  have check : ∀ {c operand ty}, Ordinary (checkComponent f id c operand ty) := by
    refine ordinary_operandType.bind fun found _ => ?_
    split
    · exact ordinary_ok
    · exact ordinary_error rfl
  -- the second half is recorded on top of the first
  have loop : ∀ {halves t}, halves ⊆ md.halves → t.width = s.width ∧ t.Each P →
      (halves.forM (setHalf f id)).EndsIn t (fun u => u.width = s.width ∧ u.Each P)
        (·.isOrdinary) := by
    intro halves
    induction halves with
    | nil => exact fun _ ht => endsIn_pure ht
    | cons half rest ih =>
      intro t hsub ht
      obtain ⟨hmem, hrest⟩ := List.cons_subset.mp hsub
      refine .bind (endsIn_get_bind ?_) fun _ u _ hu => ih hrest hu
      have htypes : t.componentType = s.componentType := componentType_eq ht.1
      rw [htypes]
      refine .bind (endsIn_ofExcept ht check) fun _ _ hfirst ht' => ?_
      refine .bind (endsIn_ofExcept ht' check) fun _ _ hsecond _ => endsIn_set ?_
      refine ⟨ht.1, ht.2.put fun c operand hget => ?_⟩
      rcases get?_put hmem hget with ⟨hget, heq | heq⟩ | hget
      · grind [runs_ofExcept, checkComponent_eq_ok]
      · grind [runs_ofExcept, checkComponent_eq_ok]
      · exact ht.2.of_getD hget
  rw [associate_eq]
  exact loop (List.Subset.refl _) ⟨rfl, hs⟩

end Store

/-! ### Operands that are handed on -/

namespace PointerMetadata

/-- All components that are there satisfy a condition. -/
def All (q : Operand → Prop) (md : PointerMetadata) : Prop :=
  ∀ c operand, md.get? c = some operand → q operand

variable {q : Operand → Prop}

theorem All.of_halves {spatial : Option Spatial} {temporal : Option Temporal}
    (hspatial : ∀ bounds, spatial = some bounds → q bounds.base ∧ q bounds.bound)
    (htemporal : ∀ keys, temporal = some keys → q keys.key ∧ q keys.lock) :
    All q ⟨spatial, temporal⟩ := by
  intro c operand hget
  cases c with
  | base =>
    obtain ⟨bounds, hbounds, rfl⟩ := Option.map_eq_some_iff.mp hget
    exact (hspatial bounds hbounds).1
  | bound =>
    obtain ⟨bounds, hbounds, rfl⟩ := Option.map_eq_some_iff.mp hget
    exact (hspatial bounds hbounds).2
  | key =>
    obtain ⟨keys, hkeys, rfl⟩ := Option.map_eq_some_iff.mp hget
    exact (htemporal keys hkeys).1
  | lock =>
    obtain ⟨keys, hkeys, rfl⟩ := Option.map_eq_some_iff.mp hget
    exact (htemporal keys hkeys).2

end PointerMetadata

/-! ### What is inserted -/

/-- What is asked of the operands that insertions hand on. They satisfy a condition, they have the
types they are used at if types are followed, and certain operands may be handed on as sizes. -/
structure Terms where
  use : Operand → Prop
  typed : Prop
  sizes : Operand → Prop

namespace Terms

/-- Types are not followed. -/
def plain (q : Operand → Prop) : Terms := ⟨q, False, fun _ => False⟩

variable (T : Terms)

/-- Types are kept, as far as they are followed. -/
def Keeps (f g : Function) : Prop := T.typed → f.KeepsTypes g

/-- An operand may be handed on where a type is asked for. -/
def Handed (g : Function) (operand : Operand) (ty : Ty) : Prop :=
  T.use operand ∧ (T.typed → g.operandType operand = .ok ty)

/-- The components of a record may be handed on. -/
def Record (w : PointerWidth) (g : Function) (md : PointerMetadata) : Prop :=
  md.All T.use ∧ (T.typed → md.TypedIn w g)

/-- An instruction may be inserted, with a result of some type. -/
def Fits (t : RoutineTable) (g : Function) (ty : Ty) (kind : InstKind) : Prop :=
  kind.Weft t Any ∧ (∀ operand ∈ kind.operands, T.use operand) ∧
    (T.typed → kind.WellTyped t T.sizes g ty)

variable {T} {ty : Ty}

theorem Handed.mono (h : T.Handed f operand ty) (K : T.Keeps f g) : T.Handed g operand ty :=
  ⟨h.1, fun ht => K ht (h.2 ht)⟩

theorem Record.mono (h : T.Record w f md) (K : T.Keeps f g) : T.Record w g md :=
  ⟨h.1, fun ht => (h.2 ht).mono (K ht)⟩

theorem Record.handed (h : T.Record w g md) (hget : md.get? c = some operand) :
    T.Handed g operand (c.type w) :=
  ⟨h.1 c operand hget, fun ht => h.2 ht c operand hget⟩

end Terms

namespace Splice

/-- A condition on operands that insertions can hand on: it holds of all values, of the addresses of
routines and of constants that name no function, and casts to `i8*` keep it. -/
structure Carries (t : RoutineTable) (q : Operand → Prop) : Prop where
  value : ∀ x, q (.value x)
  callee : ∀ r, q (t.callee r)
  nameless : ∀ c : Constant, c.functions = [] → q (.const c)
  cast : ∀ c : Constant, q (.const c) → q (.const (.cast .bitcast c .voidPtr))

theorem carries_true : Carries t fun _ => True :=
  ⟨fun _ => trivial, fun _ => trivial, fun _ _ => trivial, fun _ _ => trivial⟩

/-- One splice has become another by insertions that fit. -/
inductive Spins (t : RoutineTable) (T : Terms) (s : Splice) : Splice → Prop
  | refl : Spins t T s s
  | push {u kind ty} : Spins t T s u → T.Fits t u.func ty kind → Spins t T s (u.push kind ty)

variable {T : Terms} {s u v : Splice}

namespace Spins

section

variable (h : Spins t T s u)

include h

theorem trans (h' : Spins t T u v) : Spins t T s v := by
  induction h' with
  | refl => exact h
  | push _ hkind ih => exact .push ih hkind

theorem plain : Spins t (.plain Any) s u := by
  induction h with
  | refl => exact .refl
  | push _ hkind ih => exact .push ih ⟨hkind.1, fun _ _ => trivial, False.elim⟩

theorem adds : Adds (·.Weft t Any) Any s u := by
  induction h with
  | refl => exact .refl
  | push _ hkind ih => exact .push ih hkind.1 fun _ _ => .inl trivial

theorem keeps : T.Keeps s.func u.func := fun _ => h.adds.extends.keepsTypes

/-- If types are followed then what is inserted is well typed. -/
theorem wellTypedFrom {n : Nat} (ht : T.typed) (hs : s.func.WellTypedFrom t T.sizes n) :
    u.func.WellTypedFrom t T.sizes n := by
  induction h with
  | refl => exact hs
  | push _ hkind ih => exact ih.insertAt (hkind.2.2 ht)

end

end Spins

end Splice

open Splice in
/-- Edits of a splice insert what fits, and fail in an ordinary way. -/
def Terms.concern (T : Terms) (t : RoutineTable) : Concern Splice where
  leads := Spins t T
  fails e := e.isOrdinary
  twin := Eq
  trans := Spins.trans
  arrive _ := .refl

namespace Splice

variable {T : Terms} {s : Splice} {ty : Ty} {lock address : Operand} {folded : FoldedMetadata}
  {r : Routine}

theorem gives_insert {kind : InstKind} (hkind : T.Fits t s.func ty kind) :
    (insert kind ty).Gives (T.concern t) s fun x u => u.func.operandType (.value x) = .ok ty := by
  intro u hu
  obtain ⟨x, v, hrun, -, htype⟩ := yields_insert (s := u) kind ty
  refine ⟨.of_end hrun ?_, fun y v' hrun' => ?_, fun _ h => h ▸ ⟨rfl, rfl⟩⟩
  · obtain ⟨-, rfl⟩ := runs_insert.mp hrun
    exact .push .refl ⟨hkind.1, hkind.2.1, fun ht => (hkind.2.2 ht).mono (Spins.keeps hu ht)⟩
  · obtain ⟨rfl, rfl⟩ := hrun.unique hrun'
    exact htype

theorem gives_operandType : (operandType operand).Gives (T.concern t) s fun ty u =>
    u.func.operandType operand = .ok ty := by
  have heeds : (operandType operand).Heeds (T.concern t) s :=
    gives_get_bind (fun _ _ _ h => h ▸ rfl) fun u _ => .heeds (gives_ofExcept ordinary_operandType)
  refine heeds.also fun u ty v _ hrun _ => ?_
  obtain ⟨htype, rfl⟩ := runs_operandType.mp hrun
  exact htype

theorem heeds_select {ifTrue ifFalse : Operand} (hcond : T.use cond)
    (htrue : T.Handed s.func ifTrue ty) (hfalse : T.Handed s.func ifFalse ty) :
    (select cond ifTrue ifFalse).Heeds (T.concern t) s := by
  refine gives_operandType.bind fun ty' u hu htype =>
    (gives_insert ⟨.select, ?_, fun ht => ?_⟩).heeds
  · simpa [InstKind.operands] using ⟨hcond, htrue.1, hfalse.1⟩
  · have hty := (Spins.keeps hu ht (htrue.2 ht)).symm.trans htype
    exact ⟨htype, hty ▸ Spins.keeps hu ht (hfalse.2 ht)⟩

theorem gives_extract {index : Nat} (h : T.use operand) :
    (extract operand index).Gives (T.concern t) s fun x u => ∀ record,
      s.func.operandType operand = .ok record → ∃ ty, record.element? index = some ty ∧
        u.func.operandType (.value x) = .ok ty := by
  refine gives_operandType.bind fun aggregate u hu htype => ?_
  split
  · rename_i ty helement
    refine (gives_insert ⟨.extract, by simpa [InstKind.operands] using h, fun _ => trivial⟩).mono
      fun x v _ hx record hrecord => ⟨ty, ?_, hx⟩
    have hsame := (hu.adds.extends.keepsTypes hrecord).symm.trans htype
    rw [Except.ok.inj hsame, helement]
  · exact gives_throw rfl

theorem heeds_phi : (phi ty).Heeds (T.concern t) s :=
  (gives_insert ⟨.phi, nofun, fun _ => nofun⟩).heeds

section

variable (C : Carries t T.use)

include C

/-- The result of a cast is known to be an `i8*` from the run that casting has. -/
theorem gives_toVoidPtr (h : T.use operand) : (toVoidPtr operand).Gives (T.concern t) s
    fun result u => T.Handed u.func result .voidPtr := by
  have carried : (toVoidPtr operand).Gives (T.concern t) s fun result _ => T.use result := by
    refine gives_operandType.andThen fun ty => gives_unless rfl fun _ =>
      gives_ite (gives_pure fun _ _ => h) ?_
    split
    · exact gives_pure fun _ _ => C.nameless _ rfl
    · exact gives_pure fun _ _ => C.cast _ h
    · exact (gives_insert
        ⟨.bitcast, by simpa [InstKind.operands] using h, fun _ => trivial⟩).andThen
        fun x => gives_pure fun _ _ => C.value x
  refine carried.also fun u result v _ hrun huse => ⟨huse, fun _ => ?_⟩
  obtain ⟨ty, htype, hpointer, -⟩ := toVoidPtr_cases hrun
  obtain ⟨_, _, hrun', -, hvoid⟩ := succeeds_toVoidPtr htype hpointer
  obtain ⟨rfl, rfl⟩ := hrun.unique hrun'
  exact hvoid

theorem gives_callPassing (hargs : ∀ arg ∈ args, T.use arg)
    (hpass : T.typed → List.Forall₂ (s.func.MayPass t T.sizes r) args (t.signature r).params) :
    (t.call r args).Gives (T.concern t) s fun x u =>
      T.Handed u.func (.value x) (t.signature r).ret := by
  refine (gives_insert ⟨.call trivial, fun operand hoperand => ?_, fun ht =>
    ⟨r, rfl, rfl, hpass ht⟩⟩).mono fun x u _ htype => ⟨C.value x, fun _ => htype⟩
  rcases List.mem_cons.mp hoperand with rfl | harg
  · exact C.callee r
  · exact hargs operand harg

theorem gives_call (hargs : List.Forall₂ (T.Handed s.func) args (t.signature r).params) :
    (t.call r args).Gives (T.concern t) s fun x u =>
      T.Handed u.func (.value x) (t.signature r).ret := by
  obtain ⟨huse, htyped⟩ := (List.forall₂_and_left _ _).mp hargs
  exact gives_callPassing C huse fun ht => htyped.imp fun _ _ h => .inl (h ht)

/-- A component that is there satisfies the condition, and so does what stands for one that is
not. -/
theorem Carries.component (w : PointerWidth) (hmd : md.All T.use) (c : Component) :
    T.use (md.component w c) := by
  cases hget : md.get? c with
  | some operand =>
    rw [component_of_get? w hget]
    exact hmd c operand hget
  | none =>
    obtain ⟨spatial, temporal⟩ := md
    cases c with
    | base | bound =>
      obtain rfl := Option.map_eq_none_iff.mp hget
      exact C.nameless _ rfl
    | key | lock =>
      obtain rfl := Option.map_eq_none_iff.mp hget
      exact C.nameless _ rfl

theorem handed_component (hwidth : T.typed → t.width = w) (hmd : T.Record w g md) (c : Component) :
    T.Handed g (md.component w c) (c.type t.width) :=
  ⟨C.component w hmd.1 c, fun ht => hwidth ht ▸ (hmd.2 ht).component c⟩

theorem handed_metadataStore (hwidth : T.typed → t.width = w) (hmd : T.Record w g md)
    (haddress : T.Handed g address .voidPtr) :
    List.Forall₂ (T.Handed g)
      [address, md.baseOrNull, md.boundOrNull, md.keyOrZero w, md.lockOrNull]
      (t.signature .metadataStore).params := by
  have component := handed_component C hwidth hmd
  exact .cons haddress (.cons (component .base) (.cons (component .bound)
    (.cons (component .key) (.cons (component .lock) .nil))))

section

variable (hnameless : folded.base.functions = [] ∧ folded.bound.functions = [])

include hnameless

theorem Carries.materialize (hlock : T.use lock) :
    (folded.materialize w spatial temporal lock).All T.use := by
  refine .of_halves (fun bounds h => ?_) fun keys h => ?_
  · grind [Carries.nameless]
  · split at h
    · cases h
      refine ⟨C.nameless _ rfl, ?_⟩
      split
      · exact C.nameless _ rfl
      · exact hlock
    · cases h

theorem record_materialize (htypes : folded.base.ty = .voidPtr ∧ folded.bound.ty = .voidPtr)
    (hlock : T.Handed g lock .voidPtr) :
    T.Record w g (folded.materialize w spatial temporal lock) :=
  ⟨C.materialize hnameless hlock.1, fun ht =>
    FoldedMetadata.typedIn_materialize htypes.1 htypes.2 (hlock.2 ht)⟩

end

end

end Splice

/-- What holds of a function after any insertions at a place holds also after those that are made
before one fails. -/
theorem Function.splice_endsIn {α : Type} {J : Function → Prop} {body : Edit Splice α}
    {P : α → Splice → Prop} (hf : J f)
    (hJ : ∀ b i v, f.locate? point = some (b, i) → Splice.Spins t T ⟨f, b, i⟩ v → J v.func)
    (hbody : ∀ b i, body.Gives (T.concern t) ⟨f, b, i⟩ P) :
    (splice point body).EndsIn f J (·.isOrdinary) := by
  refine endsIn_get_bind ((endsIn_ofExcept hf ordinary_locate).bind fun place g hrun _ => ?_)
  obtain ⟨b, i⟩ := place
  obtain ⟨hlocate, -⟩ := runs_ofExcept.mp hrun
  have hends := (hbody b i _ .refl).endsIn
  refine (endsIn_set (hJ b i _ (locate_eq_ok_iff.mp hlocate) hends.1)).bind fun _ _ _ h => ?_
  exact endsIn_ofExcept h hends.2

namespace Weaving

open Splice ShadowFrame

variable {env : Env} {T : Terms} {s : Splice} {slot : Nat} {access : Access}
  {make : Component → Edit Splice ValueId} {components : List Component}

/-! ### Bodies of splices -/

theorem heeds_each (hmake : ∀ c ∈ components, (make c).Heeds (T.concern t) s) :
    (each components make).Heeds (T.concern t) s :=
  heeds_mapM fun c hc => (hmake c hc).map

theorem heeds_placeholderPhis : (placeholderPhis env).Heeds (T.concern t) s := by
  rw [placeholderPhis_eq]
  exact (heeds_each fun _ _ => heeds_phi).map

section

variable (C : Carries env.routines T.use)

include C

theorem handed_slotOperand : T.Handed g (slotOperand slot) (.int 32) :=
  ⟨C.nameless _ rfl, fun _ => rfl⟩

theorem gives_record (hmake : ∀ c ∈ components, (make c).Heeds (T.concern env.routines) s) :
    (recordOf <$> each components make).Gives (T.concern env.routines) s fun md _ => md.All T.use
    := by
  refine .map ((heeds_each hmake).mono fun results _ _ _ c operand hget => ?_)
  obtain ⟨x, rfl, -⟩ := get?_placeholderRecord.mp hget
  exact C.value x

theorem gives_extractRecord {record : ValueId} : (extractRecord env record).Gives
    (T.concern env.routines) s fun md _ => md.All T.use := by
  rw [extractRecord_eq]
  exact gives_record C fun _ _ => (gives_extract (C.value record)).heeds

/-- A choice is made between all components that both records have. -/
theorem gives_selectComponents {onTrue onFalse : PointerMetadata} (hcond : T.use cond)
    (htrue : T.Record w s.func onTrue) (hfalse : T.Record w s.func onFalse) :
    (selectComponents cond onTrue onFalse).Gives (T.concern env.routines) s
      fun md _ => md.All T.use := by
  rw [selectComponents_eq w]
  refine gives_record C fun c hc => ?_
  obtain ⟨ht, hf⟩ := Component.mem_ofHalves_and.mp hc
  exact heeds_select hcond (htrue.handed (get?_component ht w))
    (hfalse.handed (get?_component hf w))

variable (hwidth : T.typed → env.routines.width = env.width)

include hwidth

theorem heeds_storeSlot (hmd : T.Record env.width s.func md) :
    (storeSlot env.routines md slot).Heeds (T.concern env.routines) s := by
  rw [storeSlot_eq env.width]
  refine (heeds_each fun c _ => (gives_call C ?_).heeds).map
  have component := handed_component C hwidth hmd
  cases c <;> exact .cons (component _) (.cons (handed_slotOperand C) .nil)

theorem gives_loadSlot : (loadSlot env slot).Gives (T.concern env.routines) s fun md u =>
    T.Record env.width u.func md := by
  have carried : (loadSlot env slot).Gives (T.concern env.routines) s fun md _ => md.All T.use := by
    rw [loadSlot_eq]
    refine gives_record C fun c _ => (gives_call C ?_).heeds
    cases c <;> exact .cons (handed_slotOperand C) .nil
  -- the types of what was loaded are known from the run that loading has
  refine carried.also fun u md v _ hrun hmd => ⟨hmd, fun ht => ?_⟩
  obtain ⟨_, _, hrun', -, htyped⟩ := succeeds_loadSlot (s := u) (hwidth ht)
  obtain ⟨rfl, rfl⟩ := hrun.unique hrun'
  exact fun _ _ => htyped.operandType

theorem gives_loadParameter {param : ValueId} : (loadParameter env param slot).Gives
    (T.concern env.routines) s fun md _ => md.All T.use := by
  refine (gives_loadSlot C hwidth).bind fun md u hu hmd =>
    gives_ite ?_ (gives_pure fun _ _ => hmd.1)
  split
  · rename_i bounds hbounds
    have hbase : md.get? .base = some bounds.base := by simp [get?, hbounds]
    have hbound : md.get? .bound = some bounds.bound := by simp [get?, hbounds]
    refine (gives_toVoidPtr C (C.value param)).bind fun ptr v hv hptr => ?_
    exact (gives_call C (.cons hptr (.cons ((hmd.handed hbase).mono hv.keeps)
      (.cons ((hmd.handed hbound).mono hv.keeps) (.cons (handed_slotOperand C) .nil))))).andThen
      fun _ => gives_pure fun _ _ => hmd.1
  · exact gives_pure fun _ _ => hmd.1

theorem heeds_spatialCheck {bytes : Nat} (hptr : T.use ptr) (hmd : T.Record env.width s.func md) :
    (spatialCheck env access ptr bytes md).Heeds (T.concern env.routines) s := by
  refine (gives_toVoidPtr C hptr).bind fun raw u hu hraw => ?_
  have component := handed_component C hwidth (hmd.mono hu.keeps)
  split
  · refine (gives_call C ?_).done
    have hsize : ∀ size, T.Handed u.func (.const (.int env.width.bits size))
        env.routines.width.intPtrTy :=
      fun size => ⟨C.nameless _ rfl, fun ht => hwidth ht ▸ rfl⟩
    cases access <;> exact .cons (component .base) (.cons (component .bound)
      (.cons hraw (.cons (hsize _) .nil)))
  · exact gives_throw rfl

theorem heeds_temporalCheck (hmd : T.Record env.width s.func md) :
    (temporalCheck env access md).Heeds (T.concern env.routines) s := by
  have component := handed_component C hwidth hmd
  refine (gives_call C ?_).done
  cases access <;> exact .cons (component .lock) (.cons (component .key)
    (.cons (component .base) (.cons (component .bound) .nil)))

end

end Weaving

theorem Module.heeds_seedFields {config : Config} {fields : List PointerField} {s : Splice}
    (C : Splice.Carries t T.use) (hwidth : T.typed → t.width = i.width)
    (hfields : ∀ field ∈ fields, T.Handed s.func (.const field.address) .voidPtr) :
    (seedFields i t config fields).Heeds (T.concern t) s := by
  refine gives_ite_bind (P := fun lock u => T.Handed u.func lock .voidPtr)
    (.map (Splice.gives_call C .nil)) (gives_pure fun _ _ => ⟨C.nameless _ rfl, fun _ => rfl⟩)
    fun lock u hu hlock => heeds_forM fun field hfield => ?_
  refine Gives.bind (gives_ofExcept ordinary_fold) fun folded v hv hfold => ?_
  refine (Splice.gives_call C (Splice.handed_metadataStore C hwidth ?_ ?_)).done
  · exact Splice.record_materialize C (Constant.functions_of_fold hfold) (Constant.fold_types hfold)
      (hlock.mono hv.keeps)
  · exact (hfields field hfield).mono (hu.trans hv).keeps

end PointerGuard
