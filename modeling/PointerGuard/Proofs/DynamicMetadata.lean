import PointerGuard.Proofs.Escorts
import PointerGuard.Proofs.Executions
import PointerGuard.Proofs.Filling
import PointerGuard.Proofs.Modules
import PointerGuard.Proofs.Samples

/-!
# Metadata follows pointers

Along an execution every pointer has metadata, given when it is computed: that of the pointer it is
derived from, of the arm or the edge that was taken, or else what its components are given on the
same visit. The record of a pointer is a list of operands that, read wherever the pointer is used,
give its metadata at that moment.
-/

namespace PointerGuard

open PointerGuard.Function InstKind

namespace Weaving

/-! ### Metadata along a path -/

section Definitions

variable {Val : Type} (s : Weaving) (env : Env) (I : Interpretation Val)

/-- What the record of an operand gives when values are known. -/
def reading (known : ValueId → Val) (operand : Operand) (c : Component) : Option Val :=
  ((s.resolved? env operand).bind (·.get? c)).map (I.eval known)

/-- The metadata that comes with an operand. That of a constant is read off its record. -/
def carried (known : ValueId → Val) (given : ValueId → Component → Option Val) :
    Operand → Component → Option Val
  | .value v => given v
  | .const k => s.reading env I known (.const k)

/-- The metadata that an instruction is given when it is executed in the block after a path, where
`old` is the metadata at the end of the path and `now` that of the moment. -/
def bestowed (b : BlockId) (past : List BlockId) (old now : ValueId → Component → Option Val)
    (x : ValueId) : Component → Option Val :=
  match s.func.kind? x with
  -- an address computed from another pointer belongs to the same object
  | some (.gep base _) => s.carried env I (s.func.valuesBefore I b past x) now base
  | some (.cast .bitcast value) => s.carried env I (s.func.valuesBefore I b past x) now value
  | some (.select cond ifTrue ifFalse) =>
    s.carried env I (s.func.valuesBefore I b past x) now
      (if I.truth (I.eval (s.func.valuesBefore I b past x) cond) then ifTrue else ifFalse)
  | some (.phi edges) =>
    match taken? edges past with
    | some operand => s.carried env I (s.func.valuesAfter I past) old operand
    -- on the first visit to the first block there is no edge to take
    | none => s.reading env I (s.func.valuesAfter I (b :: past)) (.value x)
  -- all else has what its components are given on this visit
  | _ => s.reading env I (s.func.valuesAfter I (b :: past)) (.value x)

/-- Parameters are given their metadata whenever control comes to the first block. -/
def entered (b : BlockId) (past : List BlockId) (old : ValueId → Component → Option Val)
    (v : ValueId) : Component → Option Val :=
  if b = ⟨0⟩ ∧ v ∈ s.func.params then
    s.reading env I (s.func.valuesAfter I (b :: past)) (.value v)
  else old v

/-- The metadata of pointers at the end of a path. -/
def metadataAfter : List BlockId → ValueId → Component → Option Val
  | [] => fun _ _ => none
  | b :: past =>
    assign (s.bestowed env I b past (metadataAfter past))
      (s.entered env I b past (metadataAfter past)) (s.func.instsOf b)

/-- The metadata of pointers right before an instruction of the block that is visited after a
path. -/
def metadataBefore (b : BlockId) (past : List BlockId) (x : ValueId) :
    ValueId → Component → Option Val :=
  assign (s.bestowed env I b past (s.metadataAfter env I past))
    (s.entered env I b past (s.metadataAfter env I past)) ((s.func.instsOf b).takeWhile (· ≠ x))

/-- The record of a pointer gives the metadata that the pointer has. -/
def Follows (known : ValueId → Val) (given : ValueId → Component → Option Val) (v : ValueId) :
    Prop :=
  ∀ md c operand, s.store.lookup v = some md → md.get? c = some operand →
    given v c = some (I.eval known operand)

/-- At the end of a path, the record of a pointer gives the metadata that the pointer has there. -/
def FollowsAfter (path : List BlockId) (v : ValueId) : Prop :=
  s.Follows I (s.func.valuesAfter I path) (s.metadataAfter env I path) v

/-- At the end of a path, all pointers of `f` that are defined there are followed. -/
def FollowsAll (f : Function) (path : List BlockId) : Prop :=
  ∀ b past v, path = b :: past → f.BeforeEnd v b → s.FollowsAfter env I path v

end Definitions

variable {Val : Type} {env : Env} {I : Interpretation Val} {f : Function} {t : Weaving}
  {a b : BlockId} {past : List BlockId} {v x y : ValueId} {kind : InstKind}
  {md : PointerMetadata} {c : Component} {operand part : Operand} {known : ValueId → Val}
  {given : ValueId → Component → Option Val} {incoming edges : List (Operand × BlockId)}

theorem reading_eq (hmd : t.resolved? env operand = some md) (hget : md.get? c = some part) :
    t.reading env I known operand c = some (I.eval known part) := by
  rw [reading, hmd, Option.bind_some, hget, Option.map_some]

theorem carried_eq (hfollows : ∀ v, operand = .value v → t.Follows I known given v)
    (hmd : t.resolved? env operand = some md) (hget : md.get? c = some part) :
    t.carried env I known given operand c = some (I.eval known part) := by
  cases operand with
  | value v => exact hfollows v rfl md c part hmd hget
  | const k => exact reading_eq hmd hget

theorem bestowed_of_derivedFrom? {old now : ValueId → Component → Option Val}
    (h : t.func.derivedFrom? x = some operand) :
    t.bestowed env I b past old now x =
      t.carried env I (t.func.valuesBefore I b past x) now operand := by
  rw [derivedFrom?] at h
  split at h
  · rename_i hkind
    cases h
    rw [bestowed, hkind]
  · rename_i hkind
    cases h
    rw [bestowed, hkind]
  · cases h

theorem metadataAfter_of_not_mem (h : v ∉ t.func.instsOf b) :
    t.metadataAfter env I (b :: past) v = t.entered env I b past (t.metadataAfter env I past) v :=
  assign_of_not_mem h

theorem metadataAfter_eq_bestowed (T : t.func.Tidy) (hx : x ∈ t.func.instsOf b) :
    t.metadataAfter env I (b :: past) x =
      t.bestowed env I b past (t.metadataAfter env I past) (t.metadataBefore env I b past x) x :=
  assign_eq_give T hx

/-! ### Phis and their shadows -/

/-- A shadow takes what belongs to what its phi takes. -/
theorem taken?_mirrored (hedges : List.Forall₂ (t.MirrorsEdge env c) incoming edges)
    (htaken : taken? incoming (a :: past) = some operand) :
    (operand, a) ∈ incoming ∧ ∃ mirrored, taken? edges (a :: past) = some mirrored ∧
      t.MirrorsEdge env c (operand, a) (mirrored, a) := by
  simp only [taken?, List.head?_cons, Option.bind_some] at htaken ⊢
  induction hedges with
  | nil => cases htaken
  | @cons edge mirrored _ _ hedge _ ih =>
    obtain ⟨used, source⟩ := edge
    obtain ⟨component, source'⟩ := mirrored
    obtain ⟨hsame, hmd⟩ := hedge
    obtain rfl : source' = source := hsame
    by_cases hblock : source' = a
    · subst hblock
      rw [List.find?_cons_of_pos (by simp)] at htaken ⊢
      cases htaken
      exact ⟨List.mem_cons_self .., component, rfl, rfl, hmd⟩
    · grind

/-! ### When all metadata has been gathered -/

/-- What is known of records when metadata has been gathered for a valid function, and control flow
is still the same. -/
structure Settled (env : Env) (f : Function) (t : Weaving) : Prop where
  valid : f.Valid
  params : f.ParamsFirst
  woven : t.Woven env Any f
  flow : t.func.flowGraph = f.flowGraph
  reachable : ∀ {a}, f.Reachable a → env.isReachable a
  escorted : t.Escorted f
  recorded : ∀ {v md}, f.Available (.value v) → t.store.lookup v = some md →
    f.OfProgram v ∧ t.Produced env f v md
  complete : ∀ v md, f.Available (.value v) → t.store.lookup v = some md → env.Complete md
  mirrors : ∀ {v incoming md c x}, f.Available (.value v) → f.kind? v = some (.phi incoming) →
    t.store.lookup v = some md → md.get? c = some (.value x) → t.Mirrors env c v x

namespace Settled

section

variable (S : Settled env f t) (hb : f.Reachable b) (hx : x ∈ f.programInsts b)
  (hkind : f.kind? x = some kind) (hphi : kind.isPhi = false) (hused : operand ∈ kind.operands)

include S hb hx hkind hphi hused

/-- What the record of an operand holds is defined before the instruction of the program that uses
the operand. -/
theorem before_use (hmd : t.resolved? env operand = some md) (hget : md.get? c = some (.value y)) :
    t.func.Before y x := by
  cases operand with
  | const k =>
    have hearly := S.escorted.early_of_component (const_or_globalLock_of_resolved? hmd hget)
    refine hearly.before ((reachable_congr S.flow).mpr hb) ?_
    rwa [S.woven.grows.programInsts_eq S.valid.tidy]
  | value v =>
    obtain ⟨hbefore, havailable⟩ :=
      S.valid.use hb (List.mem_of_mem_filter hx) hkind hphi hused
    exact (S.escorted.record havailable hmd hget).before S.valid S.woven.grows S.flow hb hx hbefore

/-- At an instruction of the program that uses an operand, what comes with the operand is the same
as at the end of the block. -/
theorem carried_before :
    t.carried env I (t.func.valuesBefore I b past x) (t.metadataBefore env I b past x) operand =
      t.carried env I (t.func.valuesAfter I (b :: past)) (t.metadataAfter env I (b :: past))
        operand := by
  have T := S.woven.func_tidy
  have hxb := S.woven.grows.mem_instsOf S.valid.tidy (List.mem_of_mem_filter hx)
  cases operand with
  | value v =>
    have hbefore := (S.valid.use hb (List.mem_of_mem_filter hx) hkind hphi hused).1
    exact (S.woven.grows.before_of_flowGraph S.valid.tidy S.flow hbefore).assign_eq T hxb
  | const k =>
    funext c
    simp only [carried, reading]
    cases hmd : t.resolved? env (.const k) with
    | none => rfl
    | some md =>
      cases hget : md.get? c with
      | none => simp [hget]
      | some part => grind [eval_valuesBefore, before_use]

end

/-! One visit to a block. Pointers that were computed on the way there go on being followed by their
records, and those that are computed in the block are from then on. -/

/-- A pointer that is not computed in the block keeps its metadata, and its record still gives it,
if the block is strictly dominated by one at the end of which the pointer is defined. -/
theorem follows_of_dominated (S : Settled env f t) (hv : f.BeforeEnd v a)
    (hab : f.StrictlyDominates a b)
    (hold : t.metadataAfter env I (b :: past) v = t.metadataAfter env I past v)
    (hfollows : t.FollowsAfter env I past v) : t.FollowsAfter env I (b :: past) v := by
  intro md c operand hlookup hget
  rw [hold, hfollows md c operand hlookup hget]
  cases operand with
  | const k => rfl
  | value y =>
    -- the components of the record are not computed again either
    have hescorts := S.escorted.record (hv.available hab.2.1) hlookup hget
    have hend := hescorts.beforeEnd S.valid S.woven.grows S.flow hab.2.1 hv
    have hy := hend.not_mem_dominated S.woven.func_tidy
      ((strictlyDominates_congr S.flow).mpr hab)
    rw [Interpretation.eval, Interpretation.eval, valuesAfter_of_not_mem hy]

section Visit

variable (S : Settled env f t) (path : t.func.Path (b :: past))

include S path

theorem reachable_last : f.Reachable b := (reachable_congr S.flow).mp path.reachable

/-- A choice takes one arm, and so do the choices between the components of its arms. -/
theorem follows_select {cond ifTrue ifFalse onTrue onFalse : Operand}
    {mdTrue mdFalse : PointerMetadata} (hv : v ∈ f.programInsts b)
    (hkind : f.kind? v = some (.select cond ifTrue ifFalse))
    (htrue : t.resolved? env ifTrue = some mdTrue) (hfalse : t.resolved? env ifFalse = some mdFalse)
    (honTrue : mdTrue.get? c = some onTrue) (honFalse : mdFalse.get? c = some onFalse)
    (hmade : t.func.Made (t.func.Trails v) (.select cond onTrue onFalse) operand)
    (hfollows : ∀ w, f.Before w v → t.FollowsAfter env I (b :: past) w) :
    t.metadataAfter env I (b :: past) v c =
      some (I.eval (t.func.valuesAfter I (b :: past)) operand) := by
  have T := S.woven.func_tidy
  have hb := S.reachable_last path
  have hvf := List.mem_of_mem_filter hv
  have hvb := S.woven.grows.mem_instsOf S.valid.tidy hvf
  have hkindt : t.func.kind? v = some (.select cond ifTrue ifFalse) := by
    rw [S.woven.kind?_eq (index_lt_of_kind? hkind).2, hkind]
  obtain ⟨z, rfl, htrails, hkindz⟩ := hmade
  have hzb := htrails.mem T hvb
  -- the choice of a component comes behind, with nothing it depends on in between
  have hlater : ∀ {y}, t.func.Before y v → t.func.Before y z :=
    fun h => h.trans T (.inr (.inl htrails.precedes)) hvb
  have hbefore : ∀ y, .value y ∈ (select cond ifTrue ifFalse).operands → f.Before y v :=
    fun y hy => (S.valid.use hb hvf hkind rfl hy).1
  have hcond : ∀ y, cond = .value y → t.func.Before y v := fun y e =>
    S.woven.grows.before_of_flowGraph S.valid.tidy S.flow
      (hbefore y (by simp [operands, e]))
  have hvalue : t.func.valuesAfter I (b :: past) z = I.eval (t.func.valuesAfter I (b :: past))
      (if I.truth (I.eval (t.func.valuesAfter I (b :: past)) cond) then onTrue else onFalse) := by
    rw [valuesAfter_eq_outcome T hzb, outcome, hkindz]
    simp only
    rw [eval_valuesBefore T hzb fun y e => hlater (hcond y e)]
    refine eval_valuesBefore T hzb fun y e => hlater ?_
    split at e
    · exact S.before_use hb hv hkind rfl (.tail _ (.head _)) htrue (e ▸ honTrue)
    · exact S.before_use hb hv hkind rfl (by simp [operands]) hfalse (e ▸ honFalse)
  have hfollows' : ∀ operand ∈ (select cond ifTrue ifFalse).operands, ∀ w,
      operand = .value w → t.FollowsAfter env I (b :: past) w := by grind
  rw [metadataAfter_eq_bestowed T hvb, bestowed, hkindt, Interpretation.eval, hvalue]
  simp only
  rw [eval_valuesBefore T hvb hcond]
  split
  · rw [S.carried_before hb hv hkind rfl (.tail _ (.head _))]
    exact carried_eq (hfollows' _ (.tail _ (.head _))) htrue honTrue
  · rw [S.carried_before hb hv hkind rfl (by simp [operands])]
    exact carried_eq (hfollows' _ (by simp [operands])) hfalse honFalse

/-- A phi and its shadows take what belongs together, on whichever edge control comes. -/
theorem follows_phi (hv : v ∈ f.instsOf b) (hkind : f.kind? v = some (.phi incoming))
    (hlookup : t.store.lookup v = some md) (hget : md.get? c = some operand)
    (hmd : env.Consists md fun _ operand =>
      ∃ edges, t.func.Made (t.func.Trails v) (.phi edges) operand)
    (hpast : t.FollowsAll env I f past) :
    t.metadataAfter env I (b :: past) v c =
      some (I.eval (t.func.valuesAfter I (b :: past)) operand) := by
  have T := S.woven.func_tidy
  have hb := S.reachable_last path
  have hvb := S.woven.grows.mem_instsOf S.valid.tidy hv
  have havailable := BeforeEnd.available (.inr (.inl hv)) hb
  obtain ⟨_, z, rfl, htrails, -⟩ := hmd.made hget
  have hzb := htrails.mem T hvb
  obtain ⟨incoming', edges, hkindt, hkindz, hedges⟩ := S.mirrors havailable hkind hlookup hget
  obtain rfl : incoming' = incoming := by
    rw [S.woven.kind?_eq (index_lt_of_kind? hkind).2, hkind] at hkindt
    exact (phi.inj (Option.some.inj hkindt)).symm
  rw [metadataAfter_eq_bestowed T hvb, bestowed, hkindt]
  simp only
  cases htaken : taken? incoming' past with
  | none => exact reading_eq hlookup hget
  | some used =>
    -- control has come from some block, at the end of which the records were right
    rcases path.cases with ⟨-, rfl⟩ | ⟨a, before, rfl, path', -⟩
    · cases htaken
    have ha := S.reachable_last path'
    obtain ⟨hmem, mirrored, htaken', -, md', hcomponent, hmd'⟩ := taken?_mirrored hedges htaken
    rw [if_pos (S.reachable ha)] at hmd'
    have hend : ∀ w, used = .value w → f.BeforeEnd w a := fun w e =>
      ((S.valid.fits hv hkind).phi hb _ rfl).defined w a (e ▸ hmem) ha
    have hcomplete : env.Complete md' :=
      complete_of_resolved? (fun w record e => S.complete w record ((hend w e).available ha)) hmd'
    have hget' := hcomplete.get?_component (hmd.tracks_of_get? hget) env.width
    have hz : t.func.valuesAfter I (b :: a :: before) z =
        I.eval (t.func.valuesAfter I (a :: before)) mirrored := by
      rw [valuesAfter_eq_outcome T hzb, outcome, hkindz]
      simp only [htaken']
    rw [Interpretation.eval, hz, show mirrored = _ from hcomponent]
    exact carried_eq (fun w e => hpast _ _ _ rfl (hend w e)) hmd' hget'

/-- The pointers that are computed in a block are followed by their records, if those are that are
known by then. -/
theorem follows_of_before (hv : v ∈ f.instsOf b)
    (hfollows : ∀ w, f.Before w v → t.FollowsAfter env I (b :: past) w)
    (hpast : t.FollowsAll env I f past) : t.FollowsAfter env I (b :: past) v := by
  intro md c operand hlookup hget
  have T := S.woven.func_tidy
  have hb := S.reachable_last path
  have hvb := S.woven.grows.mem_instsOf S.valid.tidy hv
  have havailable := BeforeEnd.available (.inr (.inl hv)) hb
  obtain ⟨inst, hinst⟩ := S.valid.tidy.listed hv
  have hkind? : ∀ {kind}, t.func.kind? v = some kind → f.kind? v = some kind := fun h => by
    rw [← S.woven.kind?_eq (index_lt_of_inst? hinst).2, h]
  have hprogram : v ∈ f.programInsts b := by
    rcases (S.recorded havailable hlookup).1 with hparam | hprogram
    · exact absurd hv (IsParam.not_mem S.valid.tidy (S.params v hparam))
    · exact List.mem_filter.mpr ⟨hv, hprogram⟩
  -- pointers that come from nowhere in the function have what their components are given
  have fresh : t.bestowed env I b past (t.metadataAfter env I past)
        (t.metadataBefore env I b past v) v =
      t.reading env I (t.func.valuesAfter I (b :: past)) (.value v) →
      t.metadataAfter env I (b :: past) v c =
        some (I.eval (t.func.valuesAfter I (b :: past)) operand) := fun h => by
    rw [metadataAfter_eq_bestowed T hvb, h]
    exact reading_eq hlookup hget
  have hnone : ∀ {n position}, f.pointerParams[n]? = some (v, position) → False := fun h => by
    have hkind := S.woven.kind?_of_param S.params h
    rw [S.woven.kind?_eq (index_lt_of_inst? hinst).2, kind?, hinst] at hkind
    cases hkind
  cases (S.recorded havailable hlookup).2 with
  | slot hparam => exact (hnone hparam).elim
  | byval hparam => exact (hnone hparam).elim
  | alloca hkind => exact fresh (by rw [bestowed, hkind])
  | load hkind => exact fresh (by rw [bestowed, hkind])
  | call hkind => exact fresh (by rw [bestowed, hkind])
  | @null kind hkind hnowhere =>
    refine fresh ?_
    rw [bestowed, hkind]
    cases kind with
    | cast op value =>
      cases op with
      | intToPtr => rfl
      | _ => cases hnowhere
    | extract => rfl
    | call => rfl
    | _ => cases hnowhere
  | derived hsource hresolved =>
    obtain ⟨kind, hkind, hphi, hused⟩ := kind?_of_derivedFrom? hsource
    rw [metadataAfter_eq_bestowed T hvb, bestowed_of_derivedFrom? hsource,
      S.carried_before hb hprogram (hkind? hkind) hphi hused]
    refine carried_eq (fun w e => hfollows w ?_) hresolved hget
    exact (S.valid.use hb hv (hkind? hkind) hphi (e ▸ hused)).1
  | select hkind htrue hfalse hsome hmade =>
    -- the component is there because both arms have it
    have hboth := hsome c
    rw [hget, Option.isSome_some, eq_comm, Bool.and_eq_true] at hboth
    obtain ⟨onTrue, honTrue⟩ := Option.isSome_iff_exists.mp hboth.1
    obtain ⟨onFalse, honFalse⟩ := Option.isSome_iff_exists.mp hboth.2
    exact S.follows_select path hprogram (hkind? hkind) htrue hfalse honTrue honFalse
      (hmade c onTrue onFalse operand honTrue honFalse hget) hfollows
  | phi hkind hmd => exact S.follows_phi path hv (hkind? hkind) hlookup hget hmd hpast

/-- Parameters are given their metadata in the first block and keep it elsewhere. -/
theorem follows_param (hv : f.IsParam v)
    (hpast : t.FollowsAll env I f past) : t.FollowsAfter env I (b :: past) v := by
  have hb := S.reachable_last path
  have hnot := (S.woven.grows.isParam hv).not_mem (b := b) S.woven.func_tidy
  by_cases hentry : b = ⟨0⟩
  · intro md c operand hlookup hget
    have hparam : v ∈ t.func.params := by
      have havailable := BeforeEnd.available (.inl hv) hb
      rw [S.woven.params_eq]
      refine (S.recorded havailable hlookup).1.resolve_right fun hprogram => ?_
      obtain ⟨inst, hinst, -⟩ := isProgramInst_iff.mp hprogram
      obtain ⟨ty, position, hvalue⟩ := hv
      simp [inst?, hvalue] at hinst
    rw [metadataAfter_of_not_mem hnot, entered, if_pos ⟨hentry, hparam⟩]
    exact reading_eq hlookup hget
  · rcases path.cases with ⟨rfl, -⟩ | ⟨a, before, hpast', -⟩
    · exact absurd rfl hentry
    refine S.follows_of_dominated (.inl hv) (strictlyDominates_entry hb hentry) ?_
      (hpast _ _ _ hpast' (.inl hv))
    rw [metadataAfter_of_not_mem hnot, entered, if_neg fun h => hentry h.1]

/-- What was computed in a block on every way there was right at the end of the last block. -/
theorem follows_listed (hv : v ∈ f.instsOf a) (hab : f.StrictlyDominates a b)
    (hpast : t.FollowsAll env I f past) : t.FollowsAfter env I (b :: past) v := by
  have T := S.valid.tidy
  have hnot : v ∉ t.func.instsOf b := fun hvb =>
    hab.1 (S.woven.func_tidy.block_eq (S.woven.grows.mem_instsOf T hv) hvb)
  -- control has come from a block that the other one dominates too, or is
  obtain ⟨last, before, hpast', hend⟩ : ∃ last before, past = last :: before ∧
      f.BeforeEnd v last := by
    rcases path.cases with ⟨rfl, -⟩ | ⟨last, before, hpast', path', edge⟩
    · exact absurd rfl hab.ne_entry
    · have edge := (mem_successors_congr S.flow).mp edge
      exact ⟨last, before, hpast', hab.beforeEnd_pred edge (S.reachable_last path') hv⟩
  refine S.follows_of_dominated (.inr (.inl hv)) hab ?_ (hpast _ _ _ hpast' hend)
  rw [metadataAfter_of_not_mem hnot, entered, if_neg fun h => ?_]
  rw [S.woven.params_eq] at h
  exact IsParam.not_mem T (S.params v h.2) hv

/-- A visit to a block: if records were right at the end of the last one, they are at its end. -/
theorem follows_visit (hend : f.BeforeEnd v b)
    (hpast : t.FollowsAll env I f past) : t.FollowsAfter env I (b :: past) v := by
  rcases hend with hparam | hv | ⟨a, hv, hab⟩
  · exact S.follows_param path hparam hpast
  · -- by induction on what stands before the pointer in its block
    obtain ⟨front, rest, hsplit⟩ := List.append_of_mem hv
    induction hlength : front.length using Nat.strongRecOn generalizing v front rest with
    | _ n ih =>
      refine S.follows_of_before path hv (fun w hw => ?_) hpast
      rcases (before_iff_definedBehind S.valid.tidy hsplit).mp hw with
        hparam | hfront | ⟨a, hw, hab⟩
      · exact S.follows_param path hparam hpast
      · obtain ⟨front', middle, rfl⟩ := List.append_of_mem hfront
        have hsplit' : f.instsOf b = front' ++ w :: (middle ++ v :: rest) := by simp [hsplit]
        refine ih front'.length ?_ (by simp [hsplit']) _ _ hsplit' rfl
        simp only [← hlength, List.length_append, List.length_cons]
        omega
      · exact S.follows_listed path hw hab hpast
  · exact S.follows_listed path hv hab hpast

end Visit

/-- At the end of every path, the records of the pointers that are defined there give their
metadata. -/
theorem follows (S : Settled env f t) {path : List BlockId} (hpath : t.func.Path path) :
    t.FollowsAll env I f path := by
  induction hpath with
  | enter =>
    rintro b past v ⟨⟩ hend
    refine S.follows_visit .enter hend fun b past v hnil => ?_
    cases hnil
  | step path edge ih =>
    rintro b past v ⟨⟩ hend
    exact S.follows_visit (path.step edge) hend ih

/-- Right before an instruction of the program that uses a pointer, the record of the pointer gives
its metadata. -/
theorem follows_use (S : Settled env f t) (path : t.func.Path (b :: past))
    (hx : x ∈ f.programInsts b) (hkind : f.kind? x = some kind) (hphi : kind.isPhi = false)
    (hused : .value v ∈ kind.operands) :
    t.Follows I (t.func.valuesBefore I b past x) (t.metadataBefore env I b past x) v := by
  intro md c operand hlookup hget
  have T := S.woven.func_tidy
  have hb := S.reachable_last path
  have hxf := List.mem_of_mem_filter hx
  have hxb := S.woven.grows.mem_instsOf S.valid.tidy hxf
  have hbefore := (S.valid.use hb hxf hkind hphi hused).1
  have hend := hbefore.beforeEnd S.valid.tidy (.inr (.inl hxf)) hxf
  calc t.metadataBefore env I b past x v c
      = t.metadataAfter env I (b :: past) v c := by
        rw [metadataBefore, metadataAfter]
        rw [(S.woven.grows.before_of_flowGraph S.valid.tidy S.flow hbefore).assign_eq T hxb]
    _ = some (I.eval (t.func.valuesAfter I (b :: past)) operand) :=
        S.follows path _ _ _ rfl hend md c operand hlookup hget
    _ = some (I.eval (t.func.valuesBefore I b past x) operand) := by
        rw [eval_valuesBefore T hxb fun y e => ?_]
        exact S.before_use hb hx hkind hphi hused hlookup (e ▸ hget)

end Settled

theorem Gathered.settled {store : Store} (G : Gathered env Any f (.start f store) t)
    (V : f.Valid) (hfirst : f.ParamsFirst) (hblocks : 0 < f.blocks.size)
    (htree : f.dominators? = some env.dominators) (hstore : store.Vacant f)
    (hflow : t.func.flowGraph = f.flowGraph) : Settled env f t where
  valid := V
  params := hfirst
  woven := Steps.woven G.steps ⟨V.tidy, .refl⟩
  flow := hflow
  reachable := (isReachable_iff hblocks htree).mpr
  escorted := Steps.escorted G.steps V ⟨V.tidy, .refl⟩ (escorted_start V hstore)
  recorded havailable hlookup := by
    rcases G.records hlookup with hold | R
    · cases (hstore _ (havailable.has V)).symm.trans hold
    · exact ⟨R.program, R.produced⟩
  complete := by
    refine Steps.complete_on G.steps (fun {u v kind w} S hv hkind hphi hused => ?_) ?_
    · -- what a value that may be used takes its metadata from may be used as well
      have W : u.Woven env Any f := Steps.woven S ⟨V.tidy, .refl⟩
      rw [W.kind?_eq (hv.index_lt V)] at hkind
      rcases hv v rfl with ⟨ty, position, hvalue⟩ | ⟨b, hvb, hb⟩
      · simp [kind?, inst?, hvalue] at hkind
      · exact (V.use hb hvb hkind hphi hused).2
    · intro v md hv hlookup
      cases (hstore v (hv.has V)).symm.trans hlookup
  mirrors havailable := G.mirrors (havailable.index_lt V)

end Weaving

/-- Metadata follows pointers along every execution. When metadata has been gathered for a function
that passes verification, then on every path and for every interpretation the record of a pointer
gives the pointer's metadata right before each instruction of the program that uses the pointer. For
what a phi takes it does so at the end of the block that control comes from. The operands in a
record are those that the definition of the pointer asks for. -/
theorem Env.gather_follows {Val : Type} {env : Env} {f : Function} {store : Store} {s t : Weaving}
    (hverify : f.verify = .ok ()) (hfirst : f.ParamsFirst)
    (htree : f.dominators? = some env.dominators)
    (hstore : ∀ v, f.Has v → store.lookup v = none)
    (hcreate : (Weaving.createMetadata env).Runs (.start f store) ⟨⟩ s)
    (hresolve : (Weaving.resolveMetadata env).Runs s ⟨⟩ t)
    (I : Interpretation Val) {b : BlockId} {past : List BlockId}
    (path : t.func.Path (b :: past)) :
    (∀ x ∈ f.programInsts b, ∀ kind v, f.kind? x = some kind → kind.isPhi = false →
      .value v ∈ kind.operands →
      t.Follows I (t.func.valuesBefore I b past x) (t.metadataBefore env I b past x) v) ∧
    (∀ next ∈ t.func.successors b, ∀ x ∈ f.programInsts next, ∀ edges,
      f.kind? x = some (.phi edges) →
      ∃ operand, taken? edges (b :: past) = some operand ∧ ∀ v, operand = .value v →
        t.Follows I (t.func.valuesAfter I (b :: past)) (t.metadataAfter env I (b :: past)) v) ∧
    ∀ v md, f.Has v → t.store.lookup v = some md → t.Produced env f v md := by
  have V := Function.valid_of_verify hverify
  have G := Weaving.gathered (p := Any) V.tidy hfirst hstore (fun _ _ => trivial) hcreate
    hresolve
  have W : t.Woven env Any f := Weaving.Steps.woven G.steps ⟨V.tidy, .refl⟩
  have hproduced : ∀ v md, f.Has v → t.store.lookup v = some md → t.Produced env f v md := by
    intro v md hv hlookup
    rcases G.records hlookup with hold | R
    · cases (hstore v hv).symm.trans hold
    · exact R.produced
  rcases W.grows.flowGraph_eq_or V.tidy with hflow | ⟨hnone, hlost⟩
  · have settled : ∀ {a x}, x ∈ f.programInsts a → Weaving.Settled env f t := fun hx => by
      have hlt := Function.index_lt_of_mem_instsOf (List.mem_of_mem_filter hx)
      exact G.settled V hfirst (by omega) htree hstore hflow
    refine ⟨fun x hx kind v hkind hphi hused => (settled hx).follows_use path hx hkind hphi hused,
      fun next hnext x hx edges hkind => ?_, hproduced⟩
    have S := settled hx
    have edge := (Function.mem_successors_congr hflow).mp hnext
    obtain ⟨operand, htaken, hend⟩ :=
      V.exists_taken (S.reachable_last path) edge (List.mem_of_mem_filter hx) hkind past
    exact ⟨operand, htaken, fun v e => S.follows path _ _ _ rfl (hend v e)⟩
  · -- nothing of the program is executed
    obtain ⟨rfl, rfl⟩ := List.cons.inj (path.eq_of_successors_eq_nil hlost)
    refine ⟨fun x hx => ?_, fun next hnext => ?_, hproduced⟩
    · rw [hnone] at hx
      cases hx
    · rw [hlost] at hnext
      cases hnext

/-! ### Pointers that change places

Two pointers are swapped in every round of a loop. Their phis take each other's values, so none of
the shadows may be computed before another has been read. -/

/-- Read through one of two pointers, and swap them until a flag is off. -/
def swapLoop : Function :=
  .ofBlocks ⟨0⟩ "swap" ⟨.void, [.ptr (.int 8), .ptr (.int 8), .int 1], false⟩ [
  [(.void, .jump ⟨1⟩)],
  [(.ptr (.int 8), .phi [(val 0, ⟨0⟩), (val 5, ⟨1⟩)]),
    (.ptr (.int 8), .phi [(val 1, ⟨0⟩), (val 4, ⟨1⟩)]), (.int 8, .load (val 4)),
    (.void, .branch (val 2) ⟨1⟩ ⟨2⟩)],
  [(.void, .ret none)]]

/-- Every instruction gives something of its own on every visit. -/
def byVisit : Interpretation (Nat × Nat) where
  const _ := (0, 0)
  arg v := (0, v.index)
  truth _ := true
  result visit x := (visit, x.index)

/-- In the second round the first phi is the second parameter. Its base was loaded from the slot of
that parameter on the first visit, by instruction 13, and the shadow that the record names, which
is instruction 17, has it. -/
theorem gather_follows_swapLoop :
    let env := gatherEnv swapLoop
    let t := gatherResolved swapLoop
    t.func.Path [⟨1⟩, ⟨1⟩, ⟨0⟩] ∧
      t.metadataBefore env byVisit ⟨1⟩ [⟨1⟩, ⟨0⟩] ⟨⟨0⟩, 6⟩ ⟨⟨0⟩, 4⟩ .base = some (0, 13) ∧
      t.metadataBefore env byVisit ⟨1⟩ [⟨1⟩, ⟨0⟩] ⟨⟨0⟩, 6⟩ ⟨⟨0⟩, 4⟩ .base =
        some (byVisit.eval (t.func.valuesBefore byVisit ⟨1⟩ [⟨1⟩, ⟨0⟩] ⟨⟨0⟩, 6⟩) (val 17)) := by
  intro env t
  have path : t.func.Path [⟨1⟩, ⟨1⟩, ⟨0⟩] :=
    .step (.step .enter (by decide +kernel)) (by decide +kernel)
  have hlookup : t.store.lookup ⟨⟨0⟩, 4⟩ =
      some ⟨some ⟨val 17, val 18⟩, some ⟨val 19, val 20⟩⟩ := by decide +kernel
  obtain ⟨hfollows, -⟩ := @Env.gather_follows (Nat × Nat) env swapLoop ⟨.bits64, []⟩
    (gatherCreated swapLoop) t (by decide +kernel) (by decide +kernel)
    (dominators_gatherEnv (by decide +kernel)) (fun _ _ => rfl)
    (runs_gatherCreated (by decide +kernel)) (runs_gatherResolved (by decide +kernel))
    byVisit ⟨1⟩ [⟨1⟩, ⟨0⟩] path
  refine ⟨path, by decide +kernel, ?_⟩
  exact hfollows ⟨⟨0⟩, 6⟩ (by decide +kernel) (.load (val 4)) ⟨⟨0⟩, 4⟩
    (by decide +kernel) rfl (by decide) _ .base _ hlookup rfl

end PointerGuard
