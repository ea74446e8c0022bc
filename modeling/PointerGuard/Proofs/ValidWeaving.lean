import PointerGuard.Proofs.Escorts
import PointerGuard.Proofs.Filling

/-!
# Weaving keeps functions valid

Whatever the passes insert uses the operands of an instruction next to it, their metadata, and what
was requested at the top. So it is enough that the components of a record are defined wherever the
pointer is. Shadow phis mirror a phi of the program in the end, and fit because that one does.
-/

namespace PointerGuard

open PointerGuard.Function

variable {f g : Function} {b : BlockId} {x y : ValueId} {kind : InstKind}
  {front rest : List ValueId}

namespace Function

/-- A valid function of which all instructions belong to the program, and that does not begin with
a phi. -/
structure Weavable (f : Function) : Prop where
  valid : f.Valid
  blocks : 0 < f.blocks.size
  params : f.ParamsFirst
  original : ∀ b, f.programInsts b = f.instsOf b
  entry : ∀ x ∈ f.instsOf ⟨0⟩, ∀ edges, f.kind? x ≠ some (.phi edges)

theorem Weavable.program_ne_nil (F : f.Weavable) : f.programInsts ⟨0⟩ ≠ [] := by
  rw [F.original]
  exact (F.valid.shaped ⟨0⟩ F.blocks).ne_nil

/-- A value that was inserted as a phi. -/
def IsShadow (f g : Function) (x : ValueId) : Prop :=
  f.values.size ≤ x.index ∧ ∃ edges, g.kind? x = some (.phi edges)

theorem Shaped.not_phi_behind (S : f.Shaped b) (hsplit : f.instsOf b = front ++ y :: rest)
    (hkind : f.kind? y = some kind) (hphi : kind.isPhi = false) :
    ∀ z ∈ rest, ∀ edges, f.kind? z ≠ some (.phi edges) := by
  intro z hz edges hedges
  obtain ⟨middle, last, rfl⟩ := List.append_of_mem hz
  obtain ⟨inst, hinst, -, -, -, hfront⟩ := S.insts (front ++ y :: middle) z last (by simp [hsplit])
  obtain ⟨inst', hinst', hkind'⟩ := kind?_eq_some_iff.mp hedges
  cases hinst.symm.trans hinst'
  obtain ⟨edges', hedges'⟩ := hfront (by rw [hkind']; rfl) y (by simp)
  cases hkind.symm.trans hedges'
  cases hphi

theorem Shaped.rest_ne_nil (S : f.Shaped b) (hsplit : f.instsOf b = front ++ y :: rest)
    (hkind : f.kind? y = some kind) (hterm : kind.isTerminator = false) : rest ≠ [] := by
  obtain ⟨inst, hinst, -, -, hlast, -⟩ := S.insts front y rest hsplit
  obtain ⟨inst', hinst', rfl⟩ := kind?_eq_some_iff.mp hkind
  cases hinst.symm.trans hinst'
  rintro rfl
  rw [hterm] at hlast
  cases hlast

end Function

namespace Weaving

variable {env : Env} {p : Routine → Prop} {own : ValueId → Prop} {s u t : Weaving} {v : ValueId}
  {md : PointerMetadata} {c : Component} {operand used : Operand} {store store' : Store}
  {w : Splice} {incoming edges : List (Operand × BlockId)} {i : Nat}

/-! ### What is kept -/

theorem Kept.gives (K : Kept own s u) (h : s.func.Gives operand) : u.func.Gives operand := by
  intro used hused
  obtain ⟨ty, htype, hvoid⟩ := h used hused
  exact ⟨ty, operandType_value_eq_ok.mp
    (K.operandType (operandType_value_eq_ok.mpr htype)), hvoid⟩

theorem Kept.isShadow (K : Kept own s u) (h : f.IsShadow s.func x) : f.IsShadow u.func x := by
  obtain ⟨hle, edges, hkind⟩ := h
  exact ⟨hle, K.phi hkind⟩

/-! ### Sound weavings -/

/-- An operand can be used everywhere: a constant, or a value defined at the top. -/
def AtTop (s : Weaving) (operand : Operand) : Prop :=
  s.func.Gives operand ∧ ∀ x, operand = .value x → s.func.Early x

/-- An operand can be used where a value of the function can, if that may be used at all. -/
def Accompanies (f : Function) (s : Weaving) (v : ValueId) (operand : Operand) : Prop :=
  s.func.Gives operand ∧
    (f.Available (.value v) → ∀ x, operand = .value x → s.func.Escorts v x)

/-- A value is a component in the record of a phi, and stands behind it. -/
def Carries (f : Function) (s : Weaving) (x : ValueId) : Prop :=
  ∃ v incoming md c, v.index < f.values.size ∧ s.func.kind? v = some (.phi incoming) ∧
    s.store.lookup v = some md ∧ md.get? c = some (.value x) ∧ s.func.Trails v x

/-- A weaving is sound: all it has inserted fits, up to phis, and what it has recorded can be used
where the pointers are. -/
structure Sound (f : Function) (s : Weaving) : Prop where
  fitting : s.func.Fitting (f.IsShadow s.func)
  shadow : ∀ {x}, f.IsShadow s.func x → s.Carries f x
  record : ∀ {v md c operand}, f.Has v → s.store.lookup v = some md → md.get? c = some operand →
    s.Accompanies f v operand
  lock : ∀ {operand}, s.globalLock = some operand → s.AtTop operand
  frame : ∀ {frameKey}, s.frameKey = some frameKey →
    s.AtTop frameKey.key ∧ ∀ x, frameKey.lock = .value x → s.func.Early x

theorem atTop_const (h : operand.value? = none) : s.AtTop operand := by
  refine ⟨fun used e => ?_, fun x e => ?_⟩
  all_goals
    rw [e] at h
    cases h

private theorem Kept.atTop (K : Kept own s u) (h : s.AtTop operand) : u.AtTop operand :=
  ⟨K.gives h.1, fun x e => K.early (h.2 x e)⟩

/-- What was there stays as it should be; the rest is left to show. -/
theorem Sound.of_kept (Q : s.Sound f) (K : Kept own s u)
    (hfitting : u.func.Fitting (f.IsShadow u.func))
    (hshadow : ∀ {x}, f.IsShadow u.func x → f.IsShadow s.func x ∨ u.Carries f x)
    (hrecord : ∀ {v md}, f.Has v → u.store.lookup v = some md → s.store.lookup v = some md ∨
      ∀ {c operand}, md.get? c = some operand → u.Accompanies f v operand)
    (hlock : u.globalLock = s.globalLock) (hframe : u.frameKey = s.frameKey) : u.Sound f where
  fitting := hfitting
  shadow hx := by
    rcases hshadow hx with hx | hx
    · obtain ⟨v, incoming, md, c, hv, hkind, hlookup, hget, htrails⟩ := Q.shadow hx
      obtain ⟨incoming', hkind'⟩ := K.phi hkind
      exact ⟨v, incoming', md, c, hv, hkind', K.record hlookup, hget, K.trails htrails⟩
    · exact hx
  record hv hlookup hget := by
    rcases hrecord hv hlookup with hlookup | haccompanies
    · obtain ⟨hgives, hescorts⟩ := Q.record hv hlookup hget
      exact ⟨K.gives hgives, fun havailable x e => K.escorts (hescorts havailable x e)⟩
    · exact haccompanies hget
  lock h := K.atTop (Q.lock (hlock ▸ h))
  frame h := by
    obtain ⟨hkey, hearly⟩ := Q.frame (hframe ▸ h)
    exact ⟨K.atTop hkey, fun x e => K.early (hearly x e)⟩

/-! ### Records -/

theorem Sound.atTop_of_component (Q : s.Sound f)
    (h : operand.value? = none ∨ s.globalLock = some operand) : s.AtTop operand :=
  h.elim atTop_const Q.lock

theorem Sound.escorted (Q : s.Sound f) (V : f.Valid) : s.Escorted f where
  record havailable hlookup hget :=
    (Q.record (havailable.has V) hlookup hget).2 havailable _ rfl
  lock h := (Q.lock h).2 _ rfl
  frame h hx := by
    obtain ⟨hkey, hlock⟩ := Q.frame h
    rcases hx with hx | hx
    · exact hkey.2 _ hx
    · exact hlock _ hx

/-! ### Steps -/

section

variable (Q : s.Sound f) (F : f.Weavable) (W : s.Woven env p f)

include Q F W

/-- What may be used next to an instruction is defined before it. -/
theorem Sound.serves (hy : y ∈ s.func.instsOf b) (hlt : y.index < f.values.size)
    (hkind : s.func.kind? y = some kind) (hphi : kind.isPhi = false) (h : s.Serves env y operand) :
    s.func.Gives operand ∧
      (s.func.Reachable b → ∀ used, operand = .value used → s.func.Before used y) := by
  have T := F.valid.tidy
  have fits := Q.fitting.fits hy hkind fun h => absurd hlt (Nat.not_lt.mpr h.1)
  have hyf : y ∈ f.instsOf b := by
    rw [← W.grows.filter_instsOf T b, List.mem_filter]
    exact ⟨hy, by simpa using hlt⟩
  have hkindf : f.kind? y = some kind := by rw [← W.kind?_eq hlt, hkind]
  have hprogram : y ∈ s.func.programInsts b := by
    rw [W.grows.programInsts_eq T, F.original]
    exact hyf
  have htop : s.AtTop operand → s.func.Gives operand ∧
      (s.func.Reachable b → ∀ used, operand = .value used → s.func.Before used y) :=
    fun h => ⟨h.1, fun hb used e => (h.2 used e).before hb hprogram⟩
  rcases h with ⟨kind', hkind', h⟩ | ⟨frameKey, hframe, rfl⟩
  · cases hkind.symm.trans hkind'
    rcases h with hoperand | ⟨used, md, c, hused, hmd, hget⟩
    · grind [UsesFit.gives, UsesFit.before]
    · cases used with
      | const k => exact htop (Q.atTop_of_component (const_or_globalLock_of_resolved? hmd hget))
      | value v =>
        have hv : f.Has v := by
          obtain ⟨ty, htype, -⟩ := (F.valid.fits hyf hkindf).gives _ hused v rfl
          obtain ⟨info, hvalue, -⟩ := Option.map_eq_some_iff.mp htype
          exact Option.isSome_iff_exists.mpr ⟨info, hvalue⟩
        obtain ⟨hgives, hescorts⟩ := Q.record hv hmd hget
        refine ⟨hgives, fun hb x e => ?_⟩
        have hbf := (W.grows.reachable_iff T F.program_ne_nil).mp hb
        obtain ⟨hbefore, havailable⟩ := F.valid.use hbf hyf hkindf hphi hused
        exact (hescorts havailable x e).before F.valid W.grows
          (W.grows.flowGraph_eq T F.program_ne_nil) hbf (by rwa [F.original]) hbefore
  · exact htop (Q.frame hframe).1

theorem Sound.entry (hx : x ∈ s.func.instsOf ⟨0⟩) (edges : List (Operand × BlockId)) :
    s.func.kind? x ≠ some (.phi edges) := by
  have T := F.valid.tidy
  have hold : ∀ {z incoming}, z.index < f.values.size → z ∈ s.func.instsOf ⟨0⟩ →
      s.func.kind? z ≠ some (.phi incoming) := by
    intro z incoming hz hmem hkind
    rw [W.kind?_eq hz] at hkind
    refine F.entry z ?_ incoming hkind
    rw [← W.grows.filter_instsOf T, List.mem_filter]
    exact ⟨hmem, by simpa using hz⟩
  intro hkind
  by_cases hlt : x.index < f.values.size
  · exact hold hlt hx hkind
  · -- it would stand behind a phi of the program
    obtain ⟨v, incoming, _, _, hv, hphi, -, -, htrails⟩ :=
      Q.shadow ⟨Nat.not_lt.mp hlt, edges, hkind⟩
    obtain ⟨c, hvc, hxc⟩ := htrails.precedes.mem_both
    obtain rfl := Q.fitting.tidy.block_eq hx hxc
    exact hold hv hvc hphi

theorem Sound.fitting_splice {point : InsertPoint} (hpoint : point.Anchored f s.func)
    (hlocate : s.func.locate? point = some (b, i))
    (A : env.Adds p (s.Given env point) ⟨s.func, b, i⟩ w) : w.func.Fitting (f.IsShadow s.func) := by
  have T := Q.fitting.tidy
  have hprogram : s.func.programInsts ⟨0⟩ ≠ [] := by
    rw [W.grows.programInsts_eq F.valid.tidy]
    exact F.program_ne_nil
  have hpointer : ∀ v, s.func.isPointerValue v → s.func.Gives (.value v) := by
    rintro v hv _ ⟨⟩
    rw [isPointerValue] at hv
    split at hv
    · rename_i ty htype
      refine ⟨ty, htype, ?_⟩
      exact Ty.isVoid_of_isPointer hv
    · cases hv
  cases point with
  | before y =>
    obtain ⟨hlt, kind, hkind, hphi⟩ := hpoint
    obtain ⟨front, rest, hsplit, rfl⟩ := locate?_before hlocate
    have hy : y ∈ s.func.instsOf b := by simp [hsplit]
    have S := Q.fitting.shaped b (index_lt_of_mem_instsOf hy)
    refine A.fitting Q.fitting hprogram hsplit (by simp) ?_ fun operand hgiven => ?_
    · rintro z hz edges hedges
      rcases List.mem_cons.mp hz with rfl | hz
      · cases hkind.symm.trans hedges
        cases hphi
      · exact S.not_phi_behind hsplit hkind hphi z hz edges hedges
    · obtain ⟨hgives, hbefore⟩ := Q.serves F W hy hlt hkind hphi hgiven
      exact ⟨hgives, fun hb used e =>
        (before_iff_definedBehind T hsplit).mp (hbefore hb used e)⟩
  | after y =>
    obtain ⟨hlt, kind, hkind, hphi, hterm⟩ := hpoint
    obtain ⟨front, rest, hsplit, rfl⟩ := locate?_after hlocate
    have hy : y ∈ s.func.instsOf b := by simp [hsplit]
    have S := Q.fitting.shaped b (index_lt_of_mem_instsOf hy)
    refine A.fitting Q.fitting hprogram (by simp [hsplit]) (S.rest_ne_nil hsplit hkind hterm)
      (S.not_phi_behind hsplit hkind hphi) fun operand hgiven => ?_
    rcases hgiven with hserves | ⟨rfl, hvalue⟩
    · obtain ⟨hgives, hbefore⟩ := Q.serves F W hy hlt hkind hphi hserves
      exact ⟨hgives, fun hb used e =>
        ((before_iff_definedBehind T hsplit).mp (hbefore hb used e)).append⟩
    · refine ⟨hpointer y hvalue, fun _ used e => ?_⟩
      cases e
      exact .inr (.inl (by simp))
  | prologue =>
    obtain ⟨rfl, -, top, rest, hsplit, rfl, htop, -⟩ := locate?_prologue hlocate
    refine A.fitting Q.fitting hprogram hsplit (fun hnil => hprogram ?_)
      (fun z hz => Q.entry F W (by simp [hsplit, hz])) fun operand hgiven => ?_
    · -- otherwise nothing of the program would be there
      refine List.filter_eq_nil_iff.mpr fun z hz => ?_
      rw [hsplit, hnil, List.append_nil] at hz
      simp [htop z hz]
    · obtain ⟨v, hv, rfl, hvalue⟩ := hgiven
      refine ⟨hpointer v hvalue, fun _ used e => ?_⟩
      cases e
      rw [W.params_eq] at hv
      exact .inl (W.grows.isParam (F.params v hv))
  | afterPhis b => exact hpoint.elim
  | beforeTerminator b => exact hpoint.elim

theorem Sound.fitting_placeholders {spatial temporal : Option (ValueId × ValueId)}
    (hkind : s.func.kind? v = some (.phi incoming))
    (hlocate : s.func.locate? (.after v) = some (b, i))
    (hphis : (placeholderPhis env).Runs ⟨s.func, b, i⟩ (spatial, temporal) w) :
    w.func.Fitting (f.IsShadow w.func) := by
  obtain ⟨A, -⟩ := Splice.Adds.placeholderPhis hphis
  have G := Step.grows_of_placeholders (p := p) hkind hlocate hphis
  have hprogram : s.func.programInsts ⟨0⟩ ≠ [] := by
    rw [W.grows.programInsts_eq F.valid.tidy]
    exact F.program_ne_nil
  obtain ⟨front, rest, hsplit, rfl⟩ := locate?_after hlocate
  have hv : v ∈ s.func.instsOf b := by simp [hsplit]
  have S := Q.fitting.shaped b (index_lt_of_mem_instsOf hv)
  have hfront : ∀ z ∈ front ++ [v], ∃ edges, s.func.kind? z = some (.phi edges) := by
    obtain ⟨inst, hinst, -, -, -, hphi⟩ := S.insts front v rest hsplit
    obtain ⟨inst', hinst', hkind'⟩ := kind?_eq_some_iff.mp hkind
    cases hinst.symm.trans hinst'
    intro z hz
    rcases List.mem_append.mp hz with hz | hz
    · exact hphi (by rw [hkind']; rfl) z hz
    · exact ⟨incoming, List.mem_singleton.mp hz ▸ hkind⟩
  -- what is new is a phi, so that only phis are pending
  have hpending : s.func.Fitting fun x => f.IsShadow s.func x ∨ s.func.values.size ≤ x.index :=
    Q.fitting.mono fun _ => .inl
  have fitting := A.fitting_phis hpending hprogram (by simp [hsplit])
    (S.rest_ne_nil hsplit hkind rfl) hfront fun _ => .inr
  refine ⟨fitting.shaped, fun {b x kind} hx hkindx hsettled => fitting.fits hx hkindx ?_⟩
  rintro (⟨hle, edges, hedges⟩ | hle)
  · exact hsettled ⟨hle, edges, G.kind?_eq hedges⟩
  · obtain rfl := A.allowed_of_new hle hkindx
    exact hsettled ⟨W.grows.size_le.trans hle, [], hkindx⟩

end

theorem gives_of_associate (h : (Store.associate g v md).Runs store ⟨⟩ store')
    (hget : md.get? c = some operand) : g.Gives operand := by
  rintro used rfl
  refine ⟨_, operandType_value_eq_ok.mp (Store.associate_type h hget), ?_⟩
  cases c <;> rfl

private theorem atTop_of_made {ty : Ty} (hmade : s.func.Made s.func.Early kind operand)
    (htype : s.func.operandType operand = .ok ty) (hvoid : ty.isVoid = false) :
    s.AtTop operand := by
  obtain ⟨x, rfl, hearly, -⟩ := hmade
  refine ⟨fun used e => ?_, fun z e => ?_⟩
  all_goals obtain rfl := Operand.value.inj e
  · exact ⟨ty, operandType_value_eq_ok.mp htype, hvoid⟩
  · exact hearly

theorem Step.sound (step : Step env p f own s u) (F : f.Weavable) (W : s.Woven env p f)
    (Q : s.Sound f) : u.Sound f := by
  have K := step.kept W
  cases step with
  | @splice point b i w hpoint hlocate A =>
    have fitting := Q.fitting_splice F W hpoint hlocate A
    refine Q.of_kept K (fitting.mono fun x => K.isShadow) (fun {x} hx => .inl ?_) (fun _ => .inl)
      rfl rfl
    obtain ⟨hle, edges, hedges⟩ := hx
    refine ⟨hle, edges, ?_⟩
    by_cases hlt : x.index < s.func.values.size
    · have G := (A.grows (fun _ h => h.1) (.of_anchored hpoint hlocate)).1
      rw [← kind?_congr (G.value?_eq hlt), hedges]
    · -- what is spliced in is no phi
      have hplain := A.allowed_of_new (Nat.not_lt.mp hlt) hedges
      cases hplain.2
  | @shadows phi incoming b i spatial temporal w store hown hnone hphi hkind hlocate
    hphis hassociate =>
    obtain ⟨-, -, -, hall⟩ := Splice.Adds.placeholderPhis hphis
    have G := Step.grows_of_placeholders (p := p) hkind hlocate hphis
    have htrails : ∀ {c x}, (placeholderRecord spatial temporal).get? c = some (.value x) →
        w.func.Trails phi x := by
      intro c x hget
      obtain ⟨z, hz, htrails, -⟩ := (made_placeholders W hkind hlocate hphis).made hget
      cases hz
      exact htrails
    refine Q.of_kept K (Q.fitting_placeholders F W hkind hlocate hphis) (fun {x} hx => ?_)
      (fun {v md} hv hlookup => ?_) rfl rfl
    · obtain ⟨hle, edges, hedges⟩ := hx
      obtain ⟨inst, ty, hkindx, hvalue⟩ := value?_of_kind? hedges
      rcases hall x _ hvalue with hvalue' | hx
      · refine .inl ⟨hle, edges, kind?_eq_some_iff.mpr ⟨inst, ?_, hkindx⟩⟩
        exact inst?_eq_some_iff.mpr ⟨ty, hvalue'⟩
      · -- a new phi is one of the placeholders
        obtain ⟨⟨c, x⟩, hmem, rfl⟩ := List.mem_map.mp hx
        have hget := mem_placeholderShadows.mp hmem
        refine .inr ⟨phi, incoming, _, c, hphi, G.kind?_eq hkind, ?_, hget, htrails hget⟩
        refine (Store.associate_lookup hassociate hnone).trans (if_neg fun hempty => ?_)
        rw [PointerMetadata.get?_of_isEmpty hempty] at hget
        cases hget
    · rcases lookup_of_associate hassociate hnone hlookup with hlookup | ⟨rfl, rfl⟩
      · exact .inl hlookup
      · refine .inr fun {c operand} hget => ⟨gives_of_associate hassociate hget, fun _ x e => ?_⟩
        exact .trails (htrails (e ▸ hget))
  | @edge shadow incoming edges hown hnew hkind =>
    have hshadow : f.IsShadow s.func shadow := ⟨hnew, incoming, hkind⟩
    have fitting : (s.func.withEdges shadow edges).Fitting (f.IsShadow s.func) :=
      Q.fitting.withEdges hkind hshadow
    refine Q.of_kept K (fitting.mono fun x => K.isShadow) (fun {x} hx => .inl ?_) (fun _ => .inl)
      rfl rfl
    obtain ⟨hle, edges', hedges'⟩ := hx
    by_cases hx : x = shadow
    · exact hx ▸ hshadow
    · rw [kind?_withEdges_of_ne hx] at hedges'
      exact ⟨hle, edges', hedges'⟩
  | @associate v md store hown hnone hproduced hassociate =>
    refine Q.of_kept K Q.fitting .inl (fun {w md'} hw hlookup => ?_) rfl rfl
    rcases lookup_of_associate hassociate hnone hlookup with hlookup | ⟨rfl, rfl⟩
    · exact .inl hlookup
    · refine .inr fun {c operand} hget => ⟨gives_of_associate hassociate hget, ?_⟩
      rintro havailable x rfl
      exact (Q.escorted F.valid).escorts_of_produced F.valid W hproduced hget havailable
  | @lock x hnone hmade htype =>
    refine { Q with lock := fun {operand} h => ?_ }
    cases h
    exact atTop_of_made hmade htype rfl
  | @frame pair frameKey hnone hpair hlock hkey _ htype =>
    refine { Q with frame := fun {frameKey'} h => ?_ }
    cases h
    refine ⟨atTop_of_made hkey htype rfl, fun x e => ?_⟩
    obtain ⟨z, hz, hearly, -⟩ := hlock
    cases e.symm.trans hz
    exact hearly
  | other hfunc hstore hlock hframe => grind [Sound.of_kept, Sound.fitting]

theorem Steps.sound (S : Steps env p f own s u) (F : f.Weavable) (W : s.Woven env p f)
    (Q : s.Sound f) : u.Sound f := by
  induction S with
  | refl => exact Q
  | tail S step ih => exact step.sound F (Steps.woven S W) ih

theorem sound_start (F : f.Weavable) (hstore : store.Vacant f) : (start f store).Sound f where
  fitting := F.valid.fitting
  shadow hx := by
    obtain ⟨hle, edges, hedges⟩ := hx
    exact absurd (index_lt_of_kind? hedges).2 (Nat.not_lt.mpr hle)
  record hv hlookup := by
    rw [start, hstore _ hv] at hlookup
    cases hlookup
  lock h := by cases h
  frame h := by cases h

/-! ### Phis with all their edges -/

/-- What is passed on for a component can be used where the operand can. -/
theorem Sound.component (Q : s.Sound f) (hused : ∀ v, used = .value v → f.Has v)
    (hmd : s.resolved? env used = some md) (c : Component) :
    s.AtTop (md.component env.width c) ∨
      ∃ v, used = .value v ∧ s.Accompanies f v (md.component env.width c) := by
  rcases md.component_eq env.width c with hget | hconst
  · cases used with
    | const k =>
      exact .inl (Q.atTop_of_component (const_or_globalLock_of_resolved? hmd hget))
    | value v => exact .inr ⟨v, rfl, Q.record (hused v rfl) hmd hget⟩
  · exact .inl (Weaving.atTop_const hconst)

theorem component_nullMetadata (c : Component) :
    (env.nullMetadata.component env.width c).value? = none := by
  rcases env.nullMetadata.component_eq env.width c with hget | hconst
  · exact get?_nullMetadata hget
  · exact hconst

/-- Edges that mirror others come from the same blocks, each with what belongs to one of the
others. -/
theorem mirrored_edges (h : List.Forall₂ (s.MirrorsEdge env c) incoming edges) :
    edges.map Prod.snd = incoming.map Prod.snd ∧
      ∀ mirrored ∈ edges, ∃ edge ∈ incoming, s.MirrorsEdge env c edge mirrored := by
  induction h with
  | nil => exact ⟨rfl, by simp⟩
  | cons hedge _ ih =>
    obtain ⟨hblocks, hmirrors⟩ := ih
    refine ⟨by rw [List.map_cons, List.map_cons, hedge.1, hblocks], fun mirrored hmem => ?_⟩
    rcases List.mem_cons.mp hmem with rfl | hmem
    · exact ⟨_, List.mem_cons_self .., hedge⟩
    · grind

private theorem Sound.mirror_fits (Q : s.Sound f) (F : f.Weavable) (W : s.Woven env p f)
    (hv : v.index < f.values.size) (hvb : v ∈ s.func.instsOf b) (hmirrors : s.Mirrors env c v x) :
    ∃ edges, s.func.kind? x = some (.phi edges) ∧ s.func.UsesFit b x (.phi edges) := by
  obtain ⟨incoming, edges, hkindv, hkindx, hedges⟩ := hmirrors
  have T := F.valid.tidy
  have hvf : v ∈ f.instsOf b := by
    rw [← W.grows.filter_instsOf T b, List.mem_filter]
    exact ⟨hvb, by simpa using hv⟩
  have hkindf : f.kind? v = some (.phi incoming) := by rw [← W.kind?_eq hv, hkindv]
  have fitsf := F.valid.fits hvf hkindf
  have fits := Q.fitting.fits hvb hkindv fun h => absurd hv (Nat.not_lt.mpr h.1)
  obtain ⟨hblocks, hmirrored⟩ := mirrored_edges hedges
  -- an edge carries something for the whole function, or goes with what the other edge carries
  have hcarries : ∀ operand a, (operand, a) ∈ edges → s.AtTop operand ∨
      ∃ v, (.value v, a) ∈ incoming ∧ s.Accompanies f v operand := by
    intro operand a hmem
    obtain ⟨⟨used, a'⟩, hedge, hsame, md, hoperand, hmd⟩ := hmirrored _ hmem
    obtain rfl : a = a' := hsame
    obtain rfl : operand = md.component env.width c := hoperand
    have hused : ∀ w, used = .value w → f.Has w := by
      rintro w rfl
      obtain ⟨ty, htype, -⟩ := fitsf.gives (.value w) (List.mem_map.mpr ⟨_, hedge, rfl⟩) w rfl
      obtain ⟨info, hvalue, -⟩ := Option.map_eq_some_iff.mp htype
      exact Option.isSome_iff_exists.mpr ⟨info, hvalue⟩
    split at hmd
    · grind [Sound.component]
    · rw [hmd]
      exact .inl (Weaving.atTop_const (component_nullMetadata c))
  refine ⟨edges, hkindx, fun operand hoperand => ?_, fun hb edges' e => ?_, fun _ h => by cases h⟩
  · obtain ⟨⟨operand', a⟩, hmem, rfl⟩ := List.mem_map.mp hoperand
    rcases hcarries _ _ hmem with htop | ⟨w, -, haccompanies⟩
    · exact htop.1
    · exact haccompanies.1
  obtain rfl : edges = edges' := InstKind.phi.inj e
  have phiFits := fits.phi hb incoming rfl
  have hbf := (W.grows.reachable_iff T F.program_ne_nil).mp hb
  refine ⟨?_, fun operand a hmem => ?_, hblocks ▸ phiFits.nodup, fun used a hmem ha => ?_⟩
  · rw [← phiFits.length, ← List.length_map Prod.snd, hblocks, List.length_map]
  · have hmem' : a ∈ incoming.map Prod.snd := hblocks ▸ List.mem_map.mpr ⟨_, hmem, rfl⟩
    obtain ⟨⟨operand', a'⟩, hedge, rfl⟩ := List.mem_map.mp hmem'
    exact phiFits.pred operand' a' hedge
  · rcases hcarries _ _ hmem with htop | ⟨w, hedge, haccompanies⟩
    · exact (htop.2 used rfl).beforeEnd ha
    · have haf := (W.grows.reachable_iff T F.program_ne_nil).mp ha
      have hend := (fitsf.phi hbf incoming rfl).defined w a hedge haf
      exact (haccompanies.2 (hend.available haf) used rfl).beforeEnd F.valid W.grows
        (W.grows.flowGraph_eq T F.program_ne_nil) haf hend

theorem Gathered.valid (G : Gathered env p f (.start f store) t) (F : f.Weavable)
    (hstore : store.Vacant f) : t.func.Valid := by
  have W : Woven env p f (.start f store) := ⟨F.valid.tidy, .refl⟩
  have Wt := Steps.woven G.steps W
  have Q := Steps.sound G.steps F W (sound_start F hstore)
  refine ⟨Q.fitting.shaped, fun {b x kind} hx hkind => ?_⟩
  by_cases hshadow : f.IsShadow t.func x
  · obtain ⟨v, incoming, md, c, hv, hphi, hlookup, hget, htrails⟩ := Q.shadow hshadow
    obtain ⟨b', hvb, hxb⟩ := htrails.precedes.mem_both
    obtain rfl := Q.fitting.tidy.block_eq hx hxb
    obtain ⟨edges, hkindx, fits⟩ := Q.mirror_fits F Wt hv hvb
      (G.mirrors hv (by rw [← Wt.kind?_eq hv, hphi]) hlookup hget)
    cases hkind.symm.trans hkindx
    exact fits
  · exact Q.fitting.fits hx hkind hshadow

end Weaving

end PointerGuard
