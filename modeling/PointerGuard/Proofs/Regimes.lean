import PointerGuard.Instrument
import PointerGuard.Proofs.Covering
import PointerGuard.Proofs.Spinning

/-!
# What single edits keep, all passes keep

A *regime* says where single edits lead a weaving, of which kind the operands are that they hand to
each other, and which instructions, places and phis they can reach. All passes then lead a weaving
nowhere else, whatever their outcome, and cannot tell weavings apart that are alike in what they
look up.
-/

namespace PointerGuard.Weaving

open Edit Outcome Splice ShadowFrame PointerGuard.Function Weaving InstKind

variable {env : Env}

/-- All operands may be handed on where nothing is asked of them. -/
theorem carries_any (env : Env) : Splice.Carries env.routines fun _ => True := Splice.carries_true

theorem width_of_untyped (env : Env) : False → env.routines.width = env.width := False.elim

/-- Where single edits lead a weaving within a reach. They hand on operands as `terms` asks, among
them those of the instructions that passes come to, and look up the metadata of `own` values. A
search that comes to a missing block may fault, and so may an access whose pointer is followed
without an end or to something too large. -/
structure Regime (env : Env) where
  terms : Terms
  leads : Weaving → Weaving → Prop
  fails : Error → Prop
  visits : ValueId → Prop
  places : InsertPoint → Prop := fun _ => True
  shadows : ValueId → Prop := fun _ => True
  own : ValueId → Prop := fun _ => True
  marked : Prop := True
  trans : ∀ {s t u}, leads s t → leads t u → leads s u
  arrive : ∀ {s t}, leads s t → leads t t
  carries : Splice.Carries env.routines terms.use := by exact carries_any env
  ordinary : ∀ e : Error, e.isOrdinary → fails e
  -- types, as far as they are followed
  width : terms.typed → env.routines.width = env.width := by exact width_of_untyped env
  keeps : ∀ {s t}, leads s t → terms.Keeps s.func t.func := by exact fun _ => False.elim
  storeWidth : ∀ {s}, leads s s → terms.typed → s.store.width = env.width := by
    exact fun _ => False.elim
  -- what passes can reach
  before : ∀ {id}, places (.before id) := by intros; trivial
  prologue : places .prologue := by trivial
  after : ∀ {s id kind}, leads s s → visits id → s.func.kind? id = some kind →
    kind.isTerminator = false → places (.after id) := by intros; trivial
  fresh : ∀ {s x}, leads s s → s.func.values.size ≤ x.index → shadows x := by intros; trivial
  program : ∀ {s b id}, leads s s → id ∈ s.func.programInsts b → visits id
  deferred : ∀ {s id}, leads s s → id ∈ s.deferred → visits id
  expected : ∀ {s ph c x}, leads s s → ph ∈ s.placeholders → (c, x) ∈ ph.shadows →
    shadows x ∧ (terms.typed → s.func.operandType (.value x) = .ok (c.type env.width)) := by
      exact fun _ _ _ => ⟨trivial, False.elim⟩
  -- what passes find
  operand : ∀ {s id kind operand}, leads s s → visits id → s.func.kind? id = some kind →
    operand ∈ kind.operands → terms.use operand := by intros; trivial
  owned : ∀ {s id kind v}, leads s s → visits id → s.func.kind? id = some kind →
    .value v ∈ kind.operands → own v := by intros; trivial
  edges : ∀ {s t ph incoming v block}, leads s s → leads s t → ph ∈ s.placeholders →
    t.func.kind? ph.phi = some (.phi incoming) → (.value v, block) ∈ incoming → own v := by
      intros; trivial
  native : ∀ {s v}, leads s s → v.func = s.func.id → own v := by intros; trivial
  size : ∀ {s id callee target source size rest sig}, leads s s → visits id → terms.typed →
    s.func.kind? id = some (.call callee (target :: source :: size :: rest) sig) →
    env.interface.isCopy callee → terms.sizes size := by exact fun _ _ => False.elim
  record : ∀ {s v md}, leads s s → own v → s.store.lookup v = some md →
    terms.Record env.width s.func md := by exact fun _ _ _ => ⟨fun _ _ _ => trivial, False.elim⟩
  globalLock : ∀ {s lock}, leads s s → s.globalLock = some lock →
    terms.Handed s.func lock .voidPtr := by exact fun _ _ => ⟨trivial, False.elim⟩
  frameKey : ∀ {s keys}, leads s s → s.frameKey = some keys →
    terms.Handed s.func keys.key env.width.keyTy ∧ terms.use keys.lock := by
      exact fun _ _ => ⟨⟨trivial, False.elim⟩, trivial⟩
  -- what passes do
  splice : ∀ {s point b i v}, leads s s → places point → s.func.locate? point = some (b, i) →
    Spins env.routines terms ⟨s.func, b, i⟩ v → leads s { s with func := v.func }
  edge : ∀ {s phi operand ty block g}, leads s s → shadows phi →
    (terms.typed → s.func.operandType (.value phi) = .ok ty) → terms.Handed s.func operand ty →
    s.func.addIncoming phi operand block = .ok g → leads s { s with func := g }
  lock : ∀ {s lock}, leads s s → terms.Handed s.func lock .voidPtr →
    leads s { s with globalLock := some lock }
  frame : ∀ {s keys}, leads s s →
    terms.Handed s.func keys.key env.width.keyTy ∧ terms.use keys.lock →
    leads s { s with frameKey := some keys }
  count : ∀ {s report}, leads s s → leads s { s with report := report }
  cover : ∀ {s covered}, leads s s → leads s { s with covered := covered }
  expect : ∀ {s id added}, leads s s → visits id → (∀ c x, (c, x) ∈ added →
    shadows x ∧ (terms.typed → s.func.operandType (.value x) = .ok (c.type env.width))) →
    leads s { s with placeholders := s.placeholders ++ [⟨id, added⟩] }
  defer : ∀ {s id}, leads s s → visits id → leads s { s with deferred := s.deferred ++ [id] }
  fill : ∀ {s}, leads s s → leads s { s with placeholders := [] }
  retry : ∀ {s}, leads s s → leads s { s with deferred := [] }
  -- faults
  search : ∀ {s start}, leads s s → s.func.flowGraph.bfs start = none →
    fails (.fault .danglingEdge) := by intros; trivial
  source : ∀ {s t id kind ptr}, leads s s → leads s t → visits id → s.func.kind? id = some kind →
    kind.accessedPointer? = some ptr → t.func.source? ptr = none →
      fails (.fault (.cyclicDerivation ptr)) := by intros; trivial
  oversize : ∀ {s t id kind ptr ty}, leads s s → leads s t → visits id →
    s.func.kind? id = some kind → kind.accessedPointer? = some ptr →
    (t.func.accessType? id kind = some ty ∨ t.func.Crosses env.interface.valueType? ptr ty) →
    Layout.wordSize? env.width ty = none → fails (.fault (.oversized ty)) := by intros; trivial

/-- Edits of a weaving lead where a regime lets them, and cannot tell weavings apart that are alike
in what passes look up. -/
def Regime.concern (R : Regime env) : Concern Weaving where
  leads := R.leads
  fails := R.fails
  twin := Alike R.own R.marked
  trans := R.trans
  arrive := R.arrive

/-- Recording metadata leads nowhere else, also where it fails halfway. -/
def Regime.Records (R : Regime env) : Prop :=
  ∀ {s id md}, R.leads s s → md.All R.terms.use →
    R.leads s { s with store := ((Store.associate s.func id md).apply s.store).2 }

namespace Regime

variable (R : Regime env) {s : Weaving} {id : ValueId} {callee operand : Operand}
  {md : PointerMetadata} {frame : ShadowFrame} {ty : Ty}

/-- An operand that passes may look up. -/
def Owns (operand : Operand) : Prop := ∀ v, operand = .value v → R.own v

/-- The components of a record may be handed on. -/
abbrev Has (s : Weaving) (md : PointerMetadata) : Prop := R.terms.Record env.width s.func md

variable {R} {point : InsertPoint} {source ptr cond returned : Operand} {mds : List PointerMetadata}
  {copies : Option Operand} {α : Type} {args operands : List Operand} {phi : ValueId}
  {body : Edit Splice α}

theorem owns (hs : R.leads s s) (hid : R.visits id) {kind : InstKind}
    (hkind : s.func.kind? id = some kind) (hoperand : operand ∈ kind.operands) : R.Owns operand :=
  fun _ e => R.owned hs hid hkind (e ▸ hoperand)

/-! ### Single edits -/

/-- Insertions keep to a regime, also those that are made before one fails. -/
theorem splicing {P : α → Function → Prop} (hpoint : R.places point) (h : ∀ t b i, R.leads s t →
      body.Gives (R.terms.concern env.routines) ⟨t.func, b, i⟩ fun a u => P a u.func) :
    (Weaving.splice point body).Gives R.concern s fun a t => P a t.func := by
  intro t ht
  have htt := R.arrive ht
  have hends : (Function.splice point body).EndsIn t.func
      (fun g => R.leads t { t with func := g }) R.fails :=
    (Function.splice_endsIn htt (fun _ _ _ => R.splice htt hpoint) fun b i => h t b i ht).mono
      (fun _ h => h) R.ordinary
  refine ⟨endsIn_within hends, fun a u hrun => ?_, fun u htu => ?_⟩
  · obtain ⟨b, i, v, -, hbody, rfl⟩ := runs_splice.mp hrun
    exact (h t b i ht _ .refl).result a v hbody
  · have same : (Function.splice point body).Agree (Function.splice point body) t.func
        u.func Eq := by
      rw [htu.func_eq]
      exact ⟨rfl, rfl⟩
    refine agree_within same fun g g' hg => ?_
    subst hg
    exact { htu with func_eq := rfl }

theorem making {P : α → Prop} (hpoint : R.places point) (h : ∀ t b i, R.leads s t →
      body.Gives (R.terms.concern env.routines) ⟨t.func, b, i⟩ fun a _ => P a) :
    (Weaving.splice point body).Gives R.concern s fun a _ => P a :=
  splicing (P := fun a _ => P a) hpoint h

theorem inserting (hpoint : R.places point)
    (h : ∀ t b i, R.leads s t → body.Heeds (R.terms.concern env.routines) ⟨t.func, b, i⟩) :
    (Weaving.splice point body).Heeds R.concern s :=
  making hpoint h

theorem counting {change : FunctionReport → FunctionReport} :
    (Weaving.count change).Heeds R.concern s :=
  heeds_modify (fun _ ht => R.count (R.arrive ht)) fun _ _ h =>
    { h with report_eq := congrArg change h.report_eq }

theorem operandTyping :
    (operandType operand).Gives R.concern s fun ty t => t.func.operandType operand = .ok ty := by
  have heeds : (operandType operand).Heeds R.concern s :=
    gives_get_bind (fun _ _ _ h => by rw [h.func_eq]) fun _ _ =>
      .heeds (gives_ofExcept fun e he => R.ordinary e (ordinary_operandType e he))
  intro t ht
  refine ⟨(heeds t ht).endsIn, fun ty u hrun => ?_, (heeds t ht).agree⟩
  obtain ⟨hty, rfl⟩ := runs_operandType.mp hrun
  exact hty

theorem recording (hrecords : R.Records) (hmd : md.All R.terms.use) :
    (associate id md).Gives R.concern s fun _ t => R.Has t md := by
  intro t ht
  have hordinary : Ordinary ((Store.associate t.func id md).apply t.store).1 :=
    (Store.associate_endsIn (P := fun _ _ _ => True) (fun _ _ _ _ _ _ => trivial)
      fun _ _ _ _ => trivial).2
  refine ⟨endsIn_get_bind (endsIn_within ⟨hrecords (R.arrive ht) hmd, fun e he =>
    R.ordinary e (hordinary e he)⟩), fun _ u hrun => ⟨hmd, fun hty c operand hget => ?_⟩,
    fun u htu => agree_get_bind ?_⟩
  · obtain ⟨store, hstore, rfl⟩ := runs_associate.mp hrun
    rw [Store.associate_type hstore hget, ← R.storeWidth (R.arrive ht) hty]
    rfl
  · dsimp only
    rw [htu.func_eq]
    exact agree_within (Store.associate_agree htu.store) fun _ _ h => { htu with store := h }

/-! ### Requests -/

theorem requestGlobalLock : (Weaving.requestGlobalLock env).Gives R.concern s fun lock t =>
    R.terms.Handed t.func lock .voidPtr := by
  refine gives_get_bind (fun _ _ _ h => by rw [h.globalLock_eq]) fun t ht => ?_
  split
  · rename_i lock hlock
    exact gives_pure fun u hu => (R.globalLock (R.arrive ht) hlock).mono (R.keeps hu)
  · refine (splicing (P := fun x g => R.terms.Handed g (.value x) .voidPtr) R.prologue
      fun _ _ _ _ => gives_call R.carries .nil).bind fun x u _ hx => ?_
    refine Gives.andThen (heeds_modify (fun v hv => R.lock (R.arrive hv) (hx.mono (R.keeps hv)))
      fun _ _ h => { h with globalLock_eq := rfl }) fun _ => ?_
    exact gives_pure fun v hv => hx.mono (R.keeps hv)

theorem requestFrameKey : (Weaving.requestFrameKey env).Gives R.concern s fun keys t =>
    R.terms.Handed t.func keys.key env.width.keyTy ∧ R.terms.use keys.lock := by
  refine gives_get_bind (fun _ _ _ h => by rw [h.frameKey_eq]) fun t ht => ?_
  split
  · rename_i keys hkeys
    have hframe := R.frameKey (R.arrive ht) hkeys
    exact gives_pure fun u hu => ⟨hframe.1.mono (R.keeps hu), hframe.2⟩
  · refine (splicing (P := fun keys g => R.terms.Handed g keys.key env.width.keyTy ∧
      R.terms.use keys.lock) R.prologue fun _ _ _ _ => ?_).bind fun keys u _ hkeys => ?_
    · refine (gives_call R.carries .nil).bind fun pair v _ hpair => ?_
      refine (gives_extract (R.carries.value pair)).andThen fun lock => ?_
      refine (gives_extract (R.carries.value pair)).bind fun key x hx hkey => ?_
      refine gives_pure fun y hy => ⟨⟨R.carries.value key, fun ht => ?_⟩, R.carries.value lock⟩
      -- the key is the second part of what was returned
      obtain ⟨ty, helement, hkey⟩ := hkey _ (hpair.2 ht)
      obtain rfl : env.routines.width.keyTy = ty := Option.some.inj helement
      exact hy.keeps ht (R.width ht ▸ hkey)
    · have later : ∀ {v}, R.leads u v → R.terms.Handed v.func keys.key env.width.keyTy ∧
          R.terms.use keys.lock := fun hv => ⟨hkeys.1.mono (R.keeps hv), hkeys.2⟩
      refine Gives.andThen (heeds_modify (fun v hv => R.frame (R.arrive hv) (later hv))
        fun _ _ h => { h with frameKey_eq := rfl }) fun _ => gives_pure fun v hv => later hv

/-- The metadata of a constant without a function in its bounds. -/
theorem materialize {folded : FoldedMetadata}
    (hnameless : folded.base.functions = [] ∧ folded.bound.functions = [])
    (htypes : folded.base.ty = .voidPtr ∧ folded.bound.ty = .voidPtr) :
    (materialize env folded).Gives R.concern s fun md t => R.Has t md := by
  refine gives_ite_bind requestGlobalLock
    (gives_pure fun _ _ => ⟨R.carries.nameless _ rfl, fun _ => rfl⟩) fun lock t _ hlock => ?_
  exact gives_pure fun u hu => record_materialize R.carries hnameless htypes
    (hlock.mono (R.keeps hu))

theorem tryResolve (hown : R.Owns operand) :
    (tryResolve env operand).Gives R.concern s fun found t =>
      ∀ md, found = some md → R.Has t md := by
  cases operand with
  | const c =>
    refine Gives.bind (gives_ofExcept fun e he => R.ordinary e (ordinary_fold e he))
      fun folded t _ hfold => ?_
    refine (materialize (Constant.functions_of_fold hfold) (Constant.fold_types hfold)).bind
      fun md u _ hmd => ?_
    exact gives_pure fun v hv _ e => Option.some.inj e ▸ hmd.mono (R.keeps hv)
  | value x =>
    refine gives_get_bind (fun _ _ _ h => by rw [h.store.lookup_eq x (hown x rfl)]) fun t ht => ?_
    exact gives_pure fun u hu md hmd => (R.record (R.arrive ht) (hown x rfl) hmd).mono (R.keeps hu)

theorem resolve (hown : R.Owns operand) :
    (resolve env operand).Gives R.concern s fun md t => R.Has t md := by
  cases operand with
  | const c =>
    exact Gives.bind (gives_ofExcept fun e he => R.ordinary e (ordinary_fold e he))
      fun folded t _ hfold =>
        materialize (Constant.functions_of_fold hfold) (Constant.fold_types hfold)
  | value x =>
    refine gives_get_bind (fun _ _ _ h => ?_) fun t ht => ?_
    · rw [Store.get, Store.get, h.store.lookup_eq x (hown x rfl), h.func_eq]
    · refine (gives_ofExcept fun e he => R.ordinary e (ordinary_get e he)).mono
        fun md u hu hmd => ?_
      rw [Store.get] at hmd
      split at hmd
      · rename_i hlookup
        cases hmd
        exact (R.record (R.arrive ht) (hown x rfl) hlookup).mono (R.keeps hu)
      · cases hmd

theorem tryResolveAll (hown : ∀ operand ∈ operands, R.Owns operand) :
    (tryResolveAll env operands).Gives R.concern s fun found t =>
      ∀ mds, found = some mds → ∀ md ∈ mds, R.Has t md := by
  induction operands generalizing s with
  | nil =>
    refine gives_pure fun _ _ mds hmds => ?_
    cases hmds
    exact nofun
  | cons operand rest ih =>
    rw [List.forall_mem_cons] at hown
    refine (tryResolve hown.1).bind fun found t _ hfound => ?_
    split
    · exact gives_pure fun _ _ => nofun
    · refine (ih hown.2).bind fun others u hu hothers => ?_
      split
      · exact gives_pure fun _ _ => nofun
      · refine gives_pure fun v hv mds hmds => ?_
        cases hmds
        exact List.forall_mem_cons.mpr ⟨(hfound _ rfl).mono (R.keeps (R.trans hu hv)),
          fun md hmd => (hothers _ rfl md hmd).mono (R.keeps hv)⟩

theorem has_null : R.Has s env.nullMetadata := by
  have hlock : R.terms.Handed s.func (.const .nullVoidPtr) .voidPtr :=
    ⟨R.carries.nameless _ rfl, fun _ => rfl⟩
  rw [Env.nullMetadata_eq]
  exact record_materialize R.carries ⟨rfl, rfl⟩ ⟨rfl, rfl⟩ hlock

/-! ### Loops over the program -/

theorem forProgramInsts {blocks : List BlockId} {visit : ValueId → Edit Weaving Unit}
    (hvisit : ∀ id, R.visits id → (visit id).Heeds R.concern s) :
    (forProgramInsts blocks visit).Heeds R.concern s := by
  refine heeds_forM fun b _ => gives_get_bind (fun _ _ _ h => by rw [h.func_eq]) fun t ht => ?_
  exact heeds_forM fun id hid => (hvisit id (R.program (R.arrive ht) hid)).later ht

theorem releaseFrameKey : (Weaving.releaseFrameKey env).Heeds R.concern s := by
  refine gives_get_bind (fun _ _ _ h => by rw [h.frameKey_eq, h.func_eq]) fun t ht => ?_
  split
  · rename_i keys hkeys
    refine heeds_forM fun ret _ => inserting R.before fun u _ _ hu => ?_
    have hkey := (R.frameKey (R.arrive ht) hkeys).1.mono (R.keeps hu)
    exact (gives_call R.carries (.cons ⟨hkey.1, fun ht => R.width ht ▸ hkey.2 ht⟩ .nil)).done
  · exact heeds_pure

theorem edgeMetadata {expected filled : Nat} {pred : BlockId} (hown : R.Owns operand) :
    (edgeMetadata env phi expected filled operand pred).Gives R.concern s fun md t =>
      R.Has t md := by
  refine gives_ite ((tryResolve hown).bind fun found t _ hfound => ?_)
    (gives_pure fun _ _ => has_null)
  split
  · exact gives_pure fun u hu => (hfound _ rfl).mono (R.keeps hu)
  · exact gives_get_bind (fun _ _ _ h => by rw [h.func_eq]) fun _ _ =>
      gives_throw (R.ordinary _ rfl)

theorem addIncoming {block : BlockId} (hphi : R.shadows phi)
    (htype : R.terms.typed → s.func.operandType (.value phi) = .ok ty)
    (hoperand : R.terms.Handed s.func operand ty) :
    (addIncoming phi operand block).Heeds R.concern s := by
  refine fun t ht => ⟨endsIn_get_bind ?_, fun _ _ _ => trivial, fun u htu => agree_get_bind ?_⟩
  · refine (endsIn_ofExcept (R.arrive ht) fun e he => R.ordinary e (ordinary_addIncoming e he)).bind
      fun g _ hrun _ => endsIn_set ?_
    exact R.edge (R.arrive ht) hphi (fun hty => R.keeps ht hty (htype hty))
      (hoperand.mono (R.keeps ht)) (runs_ofExcept.mp hrun).1
  · rw [htu.func_eq]
    exact (agree_ofExcept htu).bind fun g _ _ _ _ => agree_set { htu with func_eq := rfl }

theorem fillPlaceholder {ph : Placeholder} (hph : ∀ c x, (c, x) ∈ ph.shadows → R.shadows x ∧
      (R.terms.typed → s.func.operandType (.value x) = .ok (c.type env.width)))
    (hedges : ∀ {t incoming v block}, R.leads s t → t.func.kind? ph.phi = some (.phi incoming) →
      (.value v, block) ∈ incoming → R.own v) :
    (fillPlaceholder env ph).Heeds R.concern s := by
  refine gives_get_bind (fun _ _ _ h => by rw [h.func_eq]) fun t ht => ?_
  split
  · rename_i incoming hkind
    refine Gives.andThen (heeds_forM ?_) fun _ => ?_
    · rintro ⟨⟨operand, pred⟩, filled⟩ hedge
      have hown : R.Owns operand := fun v e =>
        hedges ht hkind (e ▸ List.fst_mem_of_mem_zipIdx hedge)
      refine (edgeMetadata hown).bind fun md u hu hmd => heeds_forM fun shadow hshadow => ?_
      obtain ⟨hphi, htype⟩ := hph _ _ hshadow
      exact addIncoming hphi (fun hty => R.keeps (R.trans ht hu) hty (htype hty))
        ⟨R.carries.component env.width hmd.1 shadow.1, fun hty => (hmd.2 hty).component shadow.1⟩
    · refine gives_get_bind (fun _ _ _ h => by rw [h.func_eq]) fun u _ => heeds_forM fun _ _ => ?_
      exact gives_ite heeds_pure (gives_throw (R.ordinary _ rfl))
  · exact gives_throw (R.ordinary _ rfl)

theorem fillPlaceholders : (fillPlaceholders env).Heeds R.concern s := by
  refine gives_get_bind (fun _ _ _ h => by rw [h.placeholders_eq]) fun t ht => ?_
  refine Gives.andThen (heeds_modify (fun _ hu => R.fill (R.arrive hu)) fun _ _ h =>
    { h with placeholders_eq := rfl }) fun _ => heeds_forM fun ph hph => ?_
  exact fillPlaceholder (fun c x => R.expected (R.arrive ht) hph) fun hu =>
    R.edges (R.arrive ht) hu hph

theorem recordStore (hid : R.visits id) : (Weaving.recordStore env id).Heeds R.concern s := by
  refine gives_get_bind (fun _ _ _ h => by rw [h.func_eq]) fun t ht => ?_
  split
  · rename_i stored ptr hkind
    have hptr : R.terms.use ptr := R.operand (R.arrive ht) hid hkind (.tail _ (.head _))
    have hown : R.Owns stored := owns (R.arrive ht) hid hkind (.head _)
    refine operandTyping.andThen fun _ => gives_ite ?_ heeds_pure
    refine (resolve hown).bind fun md u _ hmd => (inserting (R.after (R.arrive ht) hid hkind rfl)
      fun v _ _ hv => ?_).andThen fun _ => counting
    refine (gives_toVoidPtr R.carries hptr).bind fun address w hw haddress => ?_
    exact (gives_call R.carries (handed_metadataStore R.carries R.width
      ((hmd.mono (R.keeps hv)).mono hw.keeps) haddress)).done
  · exact heeds_pure

theorem auditMetadata : (auditMetadata env).Heeds R.concern s := by
  refine gives_get_bind (fun t u ht h => ?_) fun t _ => ?_
  · have hsame : (env.auditedValues t.func).find? (!u.store.has ·) =
        (env.auditedValues t.func).find? (!t.store.has ·) := by
      rw [← List.head?_filter, ← List.head?_filter]
      refine congrArg List.head? (List.filter_congr fun id hid => ?_)
      -- all pointers that are audited belong to the function
      rw [h.has_eq (R.native ht (func_eq_of_isPointerValue (List.mem_filter.mp hid).2))]
    rw [h.func_eq, hsame]
  · split
    · exact gives_throw (R.ordinary _ rfl)
    · exact heeds_pure

/-! ### Checks -/

theorem checkCallTarget (hcallee : R.terms.use callee) (hown : R.Owns callee) :
    (Weaving.checkCallTarget env id callee).Heeds R.concern s := by
  refine gives_ite ((resolve hown).bind fun md t _ hmd => ?_) heeds_pure
  refine (inserting R.before fun u _ _ hu => ?_).andThen fun _ => counting
  refine (gives_toVoidPtr R.carries hcallee).bind fun target v hv htarget => ?_
  have component := handed_component R.carries R.width ((hmd.mono (R.keeps hu)).mono hv.keeps)
  exact (gives_call R.carries (.cons (component .base) (.cons (component .bound)
    (.cons htarget .nil)))).done

theorem copyMetadata (hafter : R.places (.after id)) (hargs : ∀ arg ∈ args, R.terms.use arg)
    (hsize : ∀ target source size rest,
      args = target :: source :: size :: rest → env.interface.isCopy callee → R.terms.typed →
      R.terms.sizes size) : (copyMetadata env id callee args).Heeds R.concern s := by
  unfold Weaving.copyMetadata
  split
  · rename_i hcopy
    split
    · rename_i target source size rest
      simp only [List.forall_mem_cons] at hargs
      obtain ⟨htarget, hsource, hused, -⟩ := hargs
      refine operandTyping.andThen fun _ => gives_ite ?_ heeds_pure
      refine operandTyping.andThen fun _ => gives_ite ?_ heeds_pure
      refine (inserting hafter fun _ _ _ _ => ?_).andThen fun _ => counting
      refine (gives_toVoidPtr R.carries htarget).bind fun target u _ htarget => ?_
      refine (gives_toVoidPtr R.carries hsource).bind fun source v hv hsource => ?_
      refine (gives_callPassing R.carries (by simpa using ⟨htarget.1, hsource.1, hused⟩)
        fun ht => ?_).done
      have hsize := hsize _ _ size rest rfl (Bool.and_eq_true_iff.mp hcopy).2 ht
      exact .cons (.inl (hv.keeps ht (htarget.2 ht))) (.cons (.inl (hsource.2 ht))
        (.cons (.inr ⟨rfl, rfl, hsize⟩) .nil))
    · exact heeds_pure
  · exact heeds_pure

theorem fails_blocks (hs : R.leads s s) (h : s.func.bfsBlocks? = none) :
    R.fails (.fault .danglingEdge) := by
  rw [bfsBlocks?] at h
  split at h
  · exact R.search hs (Option.map_eq_none_iff.mp h)
  · cases h

theorem fails_searched {tree : DominatorTree} {opaqueCalls : Bool} (hs : R.leads s s)
    (h : s.func.searchedInDominated? tree opaqueCalls id = none) :
    R.fails (.fault .danglingEdge) := by
  rw [searchedInDominated?] at h
  split at h
  · rename_i inst _
    cases hsearch : s.func.flowGraph.bfs inst.block.index with
    | none => exact R.search hs hsearch
    | some nodes => simp [checkScope?, hsearch] at h
  · cases h

theorem bfsBlocks : bfsBlocks.Heeds R.concern s :=
  gives_get_bind (fun _ _ _ h => by rw [h.func_eq]) fun _ ht =>
    (gives_ofOption (fails_blocks (R.arrive ht))).heeds

section

variable (hmarked : R.marked)

include hmarked

theorem covering {tier : Tier} {insts : List ValueId} (hvisits : ∀ id ∈ insts, R.visits id) :
    (Weaving.cover tier source insts).Heeds R.concern s := by
  refine gives_get_bind (fun _ _ _ h => by rw [h.func_eq]) fun t ht => ?_
  refine Gives.andThen (gives_ofExcept fun e he => ?_) fun _ => heeds_modify
    (fun _ hu => R.cover (R.arrive hu)) fun _ _ h =>
      { h with covered_eq := fun _ => congrArg (· ++ _) (h.covered_eq hmarked) }
  split at he
  · -- the pointer is accessed by an instruction that is visited, and has no source
    rename_i ptr hendless
    cases he
    obtain ⟨id, hid, hptr⟩ := List.exists_of_findSome?_eq_some hendless
    obtain ⟨hptr, hnone⟩ := Option.filter_eq_some_iff.mp hptr
    obtain ⟨kind, hkind, hptr⟩ := Option.bind_eq_some_iff.mp hptr
    have htt := R.arrive ht
    exact R.source htt htt (hvisits id hid) hkind hptr (by simp_all)
  · cases he

theorem coverFrom : (coverFrom env id source).Heeds R.concern s := by
  refine gives_get_bind (fun _ _ _ h => by rw [h.func_eq]) fun t ht => ?_
  have htt := R.arrive ht
  refine gives_when (covering hmarked fun x hx => ?_) fun _ => gives_ite ?_ heeds_pure
  · obtain ⟨b, hx⟩ := exists_mem_of_searchedInBlock hx
    exact R.program htt hx
  · refine (gives_ofOption (fails_searched htt)).bind fun insts _ _ hinsts => covering hmarked
      fun x hx => ?_
    obtain ⟨b, hx⟩ := exists_mem_of_searchedInDominated hinsts hx
    exact R.program htt hx

theorem checkAccess {access : Access} (hptr : R.terms.use ptr) (hown : R.Owns ptr)
    (hsource : ∀ t, R.leads s t → t.func.source? ptr = none →
      R.fails (.fault (.cyclicDerivation ptr)))
    (hsize : Layout.wordSize? env.width ty = none → R.fails (.fault (.oversized ty)))
    (hcrossed : ∀ t ty, R.leads s t → t.func.Crosses env.interface.valueType? ptr ty →
      Layout.wordSize? env.width ty = none → R.fails (.fault (.oversized ty))) :
    (Weaving.checkAccess env access id ptr ty).Heeds R.concern s := by
  have proven : ∀ {t bytes}, R.leads s t → (isProven env ptr bytes).Heeds R.concern t := by
    intro t bytes ht
    refine gives_ite (gives_get_bind (fun _ _ _ h => by rw [h.func_eq]) fun u hu => ?_) heeds_pure
    refine Gives.andThen (gives_ofExcept fun e he => ?_) fun _ => heeds_pure
    split at he
    · rename_i hfound
      cases he
      obtain ⟨hcrosses, hnone⟩ := crosses_of_oversized hfound
      exact hcrossed u _ (R.trans ht hu) hcrosses hnone
    · cases he
  have spatial : ∀ {bytes}, (needsSpatial env access ptr bytes).Heeds R.concern s := fun {bytes} =>
    fun t ht => (gives_ite ((proven ht).andThen fun _ => gives_ite counting.done heeds_pure)
      heeds_pure) t (R.arrive ht)
  -- whether a key check is left out depends on the marks
  have temporal : ∀ {s source}, (needsTemporal env access id source).Heeds R.concern s := by
    refine gives_ite (gives_get_bind (fun _ _ _ h => ?_) fun _ _ => ?_) heeds_pure
    · rw [elision?, elision?, h.covered_eq hmarked, h.func_eq]
    · split
      · exact counting.done
      · exact heeds_pure
  refine gives_ite heeds_pure ((gives_ofOption hsize).andThen fun bytes =>
    spatial.andThen fun _ => gives_get_bind (fun _ _ _ h => by rw [h.func_eq]) fun t ht => ?_)
  refine (gives_ofOption (hsource t ht)).andThen fun source => temporal.andThen fun _ => ?_
  refine gives_ite ((resolve hown).bind fun md u _ hmd => ?_) heeds_pure
  refine (inserting R.before fun v _ _ hv => ?_).andThen fun _ => ?_
  · have hmd := hmd.mono (R.keeps hv)
    exact gives_when (heeds_spatialCheck R.carries R.width hptr hmd) fun _ =>
      gives_ite (heeds_temporalCheck R.carries R.width hmd) heeds_pure
  · refine gives_when counting fun _ => gives_ite ?_ heeds_pure
    exact counting.andThen fun _ => coverFrom hmarked

theorem checkInst (hid : R.visits id) : (checkInst env id).Heeds R.concern s := by
  refine gives_get_bind (fun _ _ _ h => by rw [h.func_eq]) fun t ht => ?_
  have htt := R.arrive ht
  dsimp only
  split
  · rename_i ptr hkind
    have hmem : ptr ∈ (load ptr).operands := List.mem_singleton_self _
    refine checkAccess hmarked (R.operand htt hid hkind hmem) (owns htt hid hkind hmem)
      (fun _ hu => R.source htt hu hid hkind rfl) (fun hnone => ?_)
      fun _ _ hu hcrosses => R.oversize htt hu hid hkind rfl (.inr hcrosses)
    cases hty : t.func.valueType? id with
    | none => simp [hty, Layout.wordSize?, Layout.word?, Layout.size] at hnone
    | some ty => exact R.oversize htt htt hid hkind rfl (.inl hty) (by rwa [hty] at hnone)
  · rename_i value ptr hkind
    have hmem : ptr ∈ (InstKind.store value ptr).operands := by simp [InstKind.operands]
    refine operandTyping.bind fun ty u hu hty => checkAccess hmarked
      (R.operand htt hid hkind hmem) (owns htt hid hkind hmem)
      (fun _ hv => R.source htt (R.trans hu hv) hid hkind rfl) (fun hnone => ?_)
      fun _ _ hv hcrosses => R.oversize htt (R.trans hu hv) hid hkind rfl (.inr hcrosses)
    exact R.oversize htt hu hid hkind rfl (.inl (by rw [accessType?, hty]; rfl)) hnone
  · rename_i callee args sig hkind
    have huse : ∀ operand ∈ callee :: args, R.terms.use operand := fun _ => R.operand htt hid hkind
    rw [List.forall_mem_cons] at huse
    refine (checkCallTarget huse.1 (owns htt hid hkind (.head _))).andThen fun _ => ?_
    refine copyMetadata (R.after htt hid hkind rfl) huse.2 fun _ _ _ _ e hcopy hty => ?_
    subst e
    exact R.size htt hid hty hkind hcopy
  · exact heeds_pure

theorem checkAll : (do
    let before := (← get).report.totalChecks
    let order ← Edit.ofOption .danglingEdge (← get).func.checkOrder?
    Weaving.forProgramInsts order (Weaving.checkInst env)
    let report := (← get).report
    return report.totalChecks != before || report.metadataCopies != 0 :
      Edit Weaving Bool).Heeds R.concern s := by
  refine gives_get_bind (fun _ _ _ h => by rw [h.report_eq]) fun t _ =>
    gives_get_bind (fun _ _ _ h => by rw [h.func_eq]) fun u hu => ?_
  refine Gives.andThen (gives_ofOption fun h => ?_) fun order => ?_
  · exact fails_blocks (R.arrive hu) (Option.map_eq_none_iff.mp h)
  · refine (forProgramInsts fun _ => checkInst hmarked).andThen fun _ => ?_
    exact gives_get_bind (fun _ _ _ h => by rw [h.report_eq]) fun _ _ => heeds_pure

theorem insertChecks : (Weaving.insertChecks env).Heeds R.concern s :=
  Gives.andThen (heeds_modify (fun _ ht => R.cover (R.arrive ht)) fun _ _ h =>
    { h with covered_eq := fun _ => rfl }) fun _ => checkAll hmarked

end

/-! ### What comes before a record -/

theorem stackKeys : (if env.config.temporalSafety then some <$> Weaving.requestFrameKey env
    else pure none).Gives R.concern s fun temporal _ =>
      ∀ keys, temporal = some keys → R.terms.use keys.key ∧ R.terms.use keys.lock := by
  refine gives_ite (.map ?_) (gives_pure fun _ _ => nofun)
  exact requestFrameKey.mono fun keys _ _ h _ e => Option.some.inj e ▸ ⟨h.1.1, h.2⟩

section

variable (hafter : R.places (.after id))

include hafter

theorem stackBounds (hcopies : ∀ operand, copies = some operand → R.terms.use operand) :
    (if env.config.spatialSafety then
      Weaving.splice (.after id) (some <$> allocaBounds env id ty copies) else pure none).Gives
      R.concern s fun spatial _ =>
        ∀ bounds, spatial = some bounds → R.terms.use bounds.base ∧ R.terms.use bounds.bound := by
  refine gives_ite (making hafter fun _ _ _ _ => .map ?_) (gives_pure fun _ _ => nofun)
  have hindex : R.terms.use (copies.getD (.const (.int env.width.bits 1))) := by
    cases copies with
    | none => exact R.carries.nameless _ rfl
    | some operand => exact hcopies operand rfl
  refine (gives_toVoidPtr R.carries (R.carries.value id)).bind fun base _ _ hbase => ?_
  refine (gives_insert ⟨.gep, ?_, fun _ => trivial⟩).andThen fun past => ?_
  · simpa [operands] using ⟨R.carries.value id, hindex⟩
  · refine (gives_toVoidPtr R.carries (R.carries.value past)).bind fun bound _ _ hbound => ?_
    exact gives_pure fun _ _ _ e => Option.some.inj e ▸ ⟨hbase.1, hbound.1⟩

theorem loadedRecord (hptr : R.terms.use ptr) :
    (Weaving.splice (.after id) do
      let address ← Splice.toVoidPtr ptr
      let record ← env.routines.call .metadataLoad [address]
      extractRecord env record).Gives R.concern s fun md _ => md.All R.terms.use := by
  refine making hafter fun _ _ _ _ =>
    (gives_toVoidPtr R.carries hptr).bind fun address _ _ haddress => ?_
  exact (gives_call R.carries (.cons haddress .nil)).andThen fun _ => gives_extractRecord R.carries

theorem selectedRecord {ifTrue ifFalse : PointerMetadata} (hcond : R.terms.use cond)
    (htrue : R.Has s ifTrue) (hfalse : R.Has s ifFalse) :
    (Weaving.splice (.after id) (selectComponents cond ifTrue ifFalse)).Gives R.concern s
      fun md _ => md.All R.terms.use :=
  making hafter fun _ _ _ ht => gives_selectComponents R.carries hcond
    (htrue.mono (R.keeps ht)) (hfalse.mono (R.keeps ht))

/-- The shadows of a phi are new when they have been spliced in. -/
theorem shadowPhis : (Weaving.splice (.after id) (placeholderPhis env)).Gives R.concern s
    fun phis _ => ∀ c x, (c, x) ∈ placeholderShadows phis.1 phis.2 → R.shadows x := by
  refine (inserting hafter fun _ _ _ _ => heeds_placeholderPhis).also
    fun t phis u ht hrun _ c x hx => ?_
  obtain ⟨b, i, v, -, hphis, -⟩ := runs_splice.mp hrun
  have hmade := (Adds.placeholderPhis hphis).2.1 c
  rw [mem_placeholderShadows.mp hx] at hmade
  split at hmade
  · obtain ⟨_, hget, y, rfl, hy, -⟩ := hmade
    cases Option.some.inj hget
    exact R.fresh (R.arrive ht) hy
  · cases hmade

omit hafter in
theorem openedFrame (hmds : ∀ md ∈ mds, R.Has s md) :
    (Weaving.splice (.before id) do
      let _ ← env.routines.call .allocateFrame [slotOperand frame.slotCount]
      mds.zipIdx.forM fun (md, n) => storeSlot env.routines md (n + 1)).Heeds R.concern s := by
  refine inserting R.before fun _ _ _ ht => ?_
  refine (gives_call R.carries (.cons (handed_slotOperand R.carries) .nil)).andThen fun _ => ?_
  refine heeds_forM fun md hmd => heeds_storeSlot R.carries R.width ?_
  exact (hmds md.1 (List.fst_mem_of_mem_zipIdx hmd)).mono (R.keeps ht)

theorem closedFrame : (Weaving.splice (.after id) (closeFrame env frame)).Gives R.concern s
    fun result _ => ∀ md, result = some md → md.All R.terms.use := by
  refine making hafter fun _ _ _ _ => gives_ite_bind (P := fun result _ =>
    ∀ md : PointerMetadata, result = some md → md.All R.terms.use)
    (.map ?_) (gives_pure fun _ _ => nofun) fun result _ _ hresult => ?_
  · exact (gives_loadSlot R.carries R.width).mono fun md _ _ h _ e => Option.some.inj e ▸ h.1
  · exact (gives_call R.carries .nil).andThen fun _ => gives_pure fun _ _ => hresult

end

/-! ### Propagation -/

theorem propagateReturn (hown : R.Owns returned) :
    (propagateReturn env id returned).Heeds R.concern s := by
  refine operandTyping.andThen fun _ =>
    gives_ite ((tryResolve hown).bind fun found _ _ hfound => ?_)
    heeds_pure
  split
  · exact (inserting R.before fun _ _ _ hu => heeds_storeSlot R.carries R.width
      ((hfound _ rfl).mono (R.keeps hu))).done
  · exact heeds_pure

theorem parameterMetadata {byval : Bool} {slot : Nat} :
    (parameterMetadata env id byval slot).Gives R.concern s fun md _ =>
      md.All R.terms.use :=
  gives_ite ((materialize ⟨rfl, rfl⟩ ⟨rfl, rfl⟩).mono fun _ _ _ h => h.1)
    (making R.prologue fun _ _ _ _ => gives_loadParameter R.carries R.width)

section

variable (hrecords : R.Records)

include hrecords

section

variable (hafter : R.places (.after id))

include hafter

theorem propagateAlloca (hcopies : ∀ operand, copies = some operand → R.terms.use operand) :
    (Weaving.propagateAlloca env id ty copies).Heeds R.concern s := by
  rw [propagateAlloca_eq]
  refine stackKeys.bind fun temporal _ _ htemporal => ?_
  refine (stackBounds hafter hcopies).bind fun spatial _ _ hspatial => ?_
  exact counting.andThen fun _ => (recording hrecords (.of_halves hspatial htemporal)).heeds

theorem propagateLoad (hptr : R.terms.use ptr) :
    (propagateLoad env id ptr).Heeds R.concern s :=
  (loadedRecord hafter hptr).bind fun _ _ _ hmd => counting.andThen fun _ =>
    (recording hrecords hmd).heeds

omit hafter in
theorem propagateDerived (hown : R.Owns source) :
    (propagateDerived env id source).Heeds R.concern s := by
  refine (tryResolve hown).bind fun found _ _ hfound => ?_
  split
  · exact (recording hrecords (hfound _ rfl).1).done
  · exact heeds_pure

theorem propagateSelect {ifTrue ifFalse : Operand} (hcond : R.terms.use cond)
    (htrue : R.Owns ifTrue) (hfalse : R.Owns ifFalse) :
    (propagateSelect env id cond ifTrue ifFalse).Heeds R.concern s := by
  refine (tryResolve htrue).bind fun onTrue _ _ htrue =>
    (tryResolve hfalse).bind fun onFalse _ hu hfalse => ?_
  split
  · refine (selectedRecord hafter hcond ((htrue _ rfl).mono (R.keeps hu)) (hfalse _ rfl)).bind
      fun md _ _ hmd => (recording hrecords hmd).done
  · exact heeds_pure

/-- The shadows of a phi have been recorded as its metadata when they are remembered. -/
theorem propagatePhi (hid : R.visits id) : (Weaving.propagatePhi env id).Heeds R.concern s := by
  refine (shadowPhis hafter).bind fun phis t _ hshadows => ?_
  refine (recording hrecords (.of_halves (fun bounds h => ?_) fun keys h => ?_)).bind
    fun _ u _ hmd => ?_
  · obtain ⟨pair, -, rfl⟩ := Option.map_eq_some_iff.mp h
    exact ⟨R.carries.value _, R.carries.value _⟩
  · obtain ⟨pair, -, rfl⟩ := Option.map_eq_some_iff.mp h
    exact ⟨R.carries.value _, R.carries.value _⟩
  · refine Gives.andThen (heeds_modify (fun v hv => R.expect (R.arrive hv) hid fun c x hx =>
      ⟨hshadows c x hx, fun ht => ?_⟩) fun _ _ h => ?_) fun _ => counting
    · exact R.keeps hv ht (hmd.2 ht c _ (mem_placeholderShadows.mp hx))
    · exact { h with placeholders_eq := congrArg (· ++ _) h.placeholders_eq }

theorem marshalCall (hmds : ∀ md ∈ mds, R.Has s md) :
    (Weaving.marshalCall env id frame mds).Heeds R.concern s := by
  refine gives_ite ((openedFrame hmds).andThen fun _ => ?_) heeds_pure
  refine (closedFrame hafter).bind fun result _ _ hresult => ?_
  split
  · exact (recording hrecords (hresult _ rfl)).andThen fun _ => counting
  · exact counting

theorem propagateCall {ret : Ty} (hown : ∀ operand ∈ args, R.Owns operand) :
    (propagateCall env id ret callee args).Heeds R.concern s := by
  refine gives_ite ?_ (gives_ite ?_ heeds_pure)
  · refine gives_get_bind (fun _ _ _ h => by rw [h.func_eq]) fun t _ =>
      Gives.andThen (gives_ofExcept fun e he => R.ordinary e (ordinary_ofCall e he)) fun frame => ?_
    refine (tryResolveAll fun operand hoperand => ?_).bind fun found _ _ hfound => ?_
    · grind
    · split
      · exact (marshalCall hrecords hafter (hfound _ rfl)).done
      · exact heeds_pure
  · exact (recording hrecords (has_null (s := s)).1).done

end

/-- One case for each kind of instruction that is looked at, then the others. -/
theorem propagate (hid : R.visits id) : (propagate env id).Heeds R.concern s := by
  refine gives_get_bind (fun _ _ _ h => by rw [h.func_eq]) fun t ht => ?_
  dsimp only
  split
  · rename_i ty inst hvalue
    have hkind := kind?_of_value? hvalue
    have huse : ∀ {operand}, operand ∈ inst.kind.operands → R.terms.use operand :=
      R.operand (R.arrive ht) hid hkind
    have hown : ∀ {operand}, operand ∈ inst.kind.operands → R.Owns operand :=
      owns (R.arrive ht) hid hkind
    have hafter : inst.kind.isTerminator = false → R.places (.after id) :=
      R.after (R.arrive ht) hid hkind
    have null : (if ty.isPointer then do associate id env.nullMetadata; return true
        else return true : Edit Weaving Bool).Heeds R.concern t :=
      gives_ite ((recording hrecords (has_null (s := t)).1).done) heeds_pure
    split
    all_goals
      rename_i heq
      rw [heq] at huse hown hafter
    · exact (propagateAlloca hrecords (hafter rfl) fun _ h =>
        huse (by simp [operands, h])).done
    · exact propagateCall hrecords (hafter rfl) fun _ h => hown (.tail _ h)
    · exact propagateReturn (hown (List.mem_singleton_self _))
    · exact gives_ite ((propagateLoad hrecords (hafter rfl)
        (huse (List.mem_singleton_self _))).done) heeds_pure
    · exact gives_ite (propagateDerived hrecords (hown (.head _))) heeds_pure
    · exact gives_ite (propagateDerived hrecords (hown (.head _))) heeds_pure
    · exact gives_ite (propagateSelect hrecords (hafter rfl) (huse (.head _))
        (hown (by simp [operands])) (hown (by simp [operands]))) heeds_pure
    · exact gives_ite ((propagatePhi hrecords (hafter rfl) hid).done) heeds_pure
    all_goals first | exact null | exact heeds_pure
  · exact gives_throw (R.ordinary _ rfl)

theorem loadParameters : (loadParameters env).Heeds R.concern s := by
  refine gives_get_bind (fun _ _ _ h => by rw [h.func_eq]) fun t _ => heeds_forM fun entry _ => ?_
  exact parameterMetadata.bind fun md _ _ hmd => (recording hrecords hmd).heeds

theorem propagateOrDefer (hid : R.visits id) :
    (propagateOrDefer env id).Heeds R.concern s := by
  refine (propagate hrecords hid).andThen fun _ => gives_ite heeds_pure ?_
  exact Gives.andThen (heeds_modify (fun _ ht => R.defer (R.arrive ht) hid) fun _ _ h =>
    { h with deferred_eq := congrArg (· ++ _) h.deferred_eq }) fun _ => counting

theorem resolveRounds {fuel : Nat} {waiting : List ValueId}
    (hwaiting : ∀ id ∈ waiting, R.visits id) :
    (resolveRounds env fuel waiting).Heeds R.concern s := by
  induction fuel generalizing waiting s with
  | zero => exact heeds_pure
  | succ fuel ih =>
    cases waiting with
    | nil => exact heeds_pure
    | cons first rest =>
      refine (gives_filterM fun id hid => (propagate hrecords (hwaiting id hid)).done).bind
        fun left t _ hsub => ?_
      -- what is left was waiting
      have hleft : ∀ {s}, (resolveRounds env fuel left).Heeds R.concern s :=
        ih fun id hid => hwaiting id (hsub hid)
      refine gives_ite (gives_get_bind (fun t _ ht h => ?_) fun u _ => ?_) hleft
      · rw [h.firstUnresolved_eq fun _ => R.native ht, h.func_eq]
      · exact Gives.andThen (P := fun _ _ => True) (gives_throw (R.ordinary _ rfl)) fun _ => hleft

theorem resolveDeferred : (resolveDeferred env).Heeds R.concern s := by
  refine gives_get_bind (fun _ _ _ h => by rw [h.deferred_eq]) fun t ht => ?_
  refine Gives.andThen (heeds_modify (fun _ hu => R.retry (R.arrive hu)) fun _ _ h =>
    { h with deferred_eq := rfl }) fun _ => ?_
  exact resolveRounds hrecords fun id hid => R.deferred (R.arrive ht) hid

/-! ### The passes -/

theorem createMetadata : (createMetadata env).Heeds R.concern s := by
  refine (loadParameters hrecords).andThen fun _ => bfsBlocks.andThen fun _ => ?_
  exact (forProgramInsts fun _ => propagateOrDefer hrecords).andThen fun _ => releaseFrameKey

theorem resolveMetadata : (resolveMetadata env).Heeds R.concern s := by
  refine (resolveDeferred hrecords).andThen fun _ => fillPlaceholders.andThen fun _ => ?_
  exact bfsBlocks.andThen fun _ => forProgramInsts fun _ => recordStore

theorem runPass (hchecks : (Weaving.insertChecks env).Heeds R.concern s) {pass : Pass} :
    (runPass env pass).Heeds R.concern s := by
  cases pass with
  | create => exact (createMetadata hrecords).done
  | resolve => exact (resolveMetadata hrecords).done
  | audit => exact auditMetadata.done
  | check => exact hchecks

theorem pipeline (hchecks : (Weaving.insertChecks env).Heeds R.concern s) :
    (env.config.pipeline.mapM (Weaving.runPass env)).Heeds R.concern s :=
  heeds_mapM fun _ _ => runPass hrecords hchecks

end

end Regime

end PointerGuard.Weaving
