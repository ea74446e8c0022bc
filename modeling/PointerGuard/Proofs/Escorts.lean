import PointerGuard.Proofs.Recording
import PointerGuard.Proofs.ValidGrowth

/-!
# What is defined together with a pointer

The components of a record stand behind the pointer or at the top of the function, or they belong to
the pointer it is derived from. So they are defined wherever the pointer is, and they are not
computed again before the pointer itself is.
-/

namespace PointerGuard

variable {f : Function} {v x : ValueId} {p : Routine → Prop} {env : Env} {md : PointerMetadata}
  {operand : Operand}

namespace Function

variable {g : Function} {a b c : BlockId} {w y : ValueId} {t : RoutineTable}

/-- Wherever one value is defined, so is another: it is the same, stands at the top of the function
or behind the first one, or goes with the pointer the first one is derived from. -/
inductive Escorts (f : Function) : ValueId → ValueId → Prop
  | self {v : ValueId} : Escorts f v v
  | early {v x : ValueId} : f.Early x → Escorts f v x
  | trails {v x : ValueId} : f.Trails v x → Escorts f v x
  | source {v w x : ValueId} : f.derivedFrom? v = some (.value w) → Escorts f w x → Escorts f v x

theorem strictlyDominates_entry (hb : f.Reachable b) (hne : b ≠ ⟨0⟩) : f.StrictlyDominates ⟨0⟩ b :=
  ⟨hne.symm, .refl _ _, hb, .of_entry _ _ _⟩

theorem StrictlyDominates.ne_entry (h : f.StrictlyDominates a b) : b ≠ ⟨0⟩ := by
  rintro rfl
  obtain ⟨hne, -, -, hdom⟩ := h
  exact hne (BlockId.ext (by simpa using hdom _ .start))

/-- What is listed in a strict dominator of a block is defined at the end of its predecessors. -/
theorem StrictlyDominates.beforeEnd_pred (h : f.StrictlyDominates a b) (edge : b ∈ f.successors c)
    (hc : f.Reachable c) (hx : x ∈ f.instsOf a) : f.BeforeEnd x c := by
  obtain ⟨hne, ha, -, hdom⟩ := h
  by_cases hac : a = c
  · exact .inr (.inl (hac ▸ hx))
  · have hdom := hdom.pred (fun e => hne (BlockId.ext e)) (mem_succ_flowGraph.mpr edge)
    exact .inr (.inr ⟨a, hx, hac, ha, hc, hdom⟩)

theorem Early.before (h : f.Early x) (hb : f.Reachable b) (hy : y ∈ f.programInsts b) :
    f.Before x y := by
  obtain ⟨hy, hprogram⟩ := List.mem_filter.mp hy
  by_cases hentry : b = ⟨0⟩
  · subst hentry
    exact .inr (.inl (h.next y hprogram hy))
  · exact .inr (.inr ⟨⟨0⟩, b, h.mem, hy, strictlyDominates_entry hb hentry⟩)

theorem Early.beforeEnd (h : f.Early x) (hb : f.Reachable b) : f.BeforeEnd x b := by
  by_cases hentry : b = ⟨0⟩
  · exact .inr (.inl (hentry ▸ h.mem))
  · exact .inr (.inr ⟨⟨0⟩, h.mem, strictlyDominates_entry hb hentry⟩)

section

variable (T : f.Tidy) (h : f.Trails v x)

include T h

theorem Trails.mem (hv : v ∈ f.instsOf b) : x ∈ f.instsOf b := by
  obtain ⟨c, hvc, hx⟩ := h.precedes.mem_both
  rwa [T.block_eq hv hvc]

theorem Trails.before (hy : y ∈ f.programInsts b) (hbefore : f.Before v y) : f.Before x y := by
  obtain ⟨c, hv, hx⟩ := h.precedes.mem_both
  rcases hbefore with hparam | hprecedes | ⟨a, b', ha, hb', hdom⟩
  · exact absurd hv (hparam.not_mem T)
  · exact .inr (.inl (h.next y (List.mem_filter.mp hy).2 hprecedes))
  · obtain rfl := T.block_eq ha hv
    exact .inr (.inr ⟨a, b', hx, hb', hdom⟩)

theorem Trails.beforeEnd (hbefore : f.BeforeEnd v b) : f.BeforeEnd x b := by
  obtain ⟨c, hv, hx⟩ := h.precedes.mem_both
  rcases hbefore with hparam | hv' | ⟨a, ha, hdom⟩
  · exact absurd hv (hparam.not_mem T)
  · obtain rfl := T.block_eq hv hv'
    exact .inr (.inl hx)
  · obtain rfl := T.block_eq ha hv
    exact .inr (.inr ⟨a, hx, hdom⟩)

end

theorem BeforeEnd.cases (h : f.BeforeEnd x b) (hb : f.Reachable b) :
    f.IsParam x ∨ ∃ a, x ∈ f.instsOf a ∧ f.Reachable a := by
  rcases h with hparam | hx | ⟨a, hx, hdom⟩
  · exact .inl hparam
  · exact .inr ⟨b, hx, hb⟩
  · exact .inr ⟨a, hx, hdom.2.1⟩

/-- What is defined before an instruction is defined wherever that has been executed. -/
theorem Before.beforeEnd (T : f.Tidy) (h : f.Before w v) (hv : f.BeforeEnd v b)
    (hlisted : v ∈ f.instsOf a) : f.BeforeEnd w b := by
  rcases h with hparam | hprecedes | ⟨c, d, hw, hd, hdom⟩
  · exact .inl hparam
  · obtain ⟨c, hw, hv'⟩ := hprecedes.mem_both
    rcases hv with hparam | hv | ⟨d, hv, hdom⟩
    · exact absurd hlisted (hparam.not_mem T)
    · obtain rfl := T.block_eq hv hv'
      exact .inr (.inl hw)
    · obtain rfl := T.block_eq hv hv'
      exact .inr (.inr ⟨d, hw, hdom⟩)
  · rcases hv with hparam | hv | ⟨e, hv, hdom'⟩
    · exact absurd hlisted (hparam.not_mem T)
    · obtain rfl := T.block_eq hv hd
      exact .inr (.inr ⟨c, hw, hdom⟩)
    · obtain rfl := T.block_eq hv hd
      exact .inr (.inr ⟨c, hw, hdom.trans hdom'⟩)

theorem BeforeEnd.available (h : f.BeforeEnd x b) (hb : f.Reachable b) :
    f.Available (.value x) := by
  rintro _ ⟨⟩
  exact h.cases hb

/-- What is defined at the end of a block is not listed in the blocks that it strictly dominates. -/
theorem BeforeEnd.not_mem_dominated (T : f.Tidy) (h : f.BeforeEnd x a)
    (hab : f.StrictlyDominates a b) : x ∉ f.instsOf b := by
  intro hx
  rcases h with hparam | hx' | ⟨c, hx', hca⟩
  · exact hparam.not_mem T hx
  · exact hab.1 (T.block_eq hx' hx)
  · exact (hca.trans hab).1 (T.block_eq hx' hx)

theorem Available.has (V : f.Valid) (h : f.Available (.value v)) : f.Has v := by
  rcases h v rfl with ⟨ty, position, hvalue⟩ | ⟨b, hv, -⟩
  · exact Option.isSome_iff_exists.mpr ⟨_, hvalue⟩
  · obtain ⟨inst, hinst⟩ := V.tidy.listed hv
    exact has_of_kind? (kind?_of_inst? hinst)

/-! ### Escorts in what a valid function has grown into -/

namespace Escorts

variable (E : g.Escorts v x) (V : f.Valid) (G : f.Grows t p g) (hflow : g.flowGraph = f.flowGraph)
  (hb : f.Reachable b)

include E V G hflow hb

/-- What escorts a value is defined before every instruction of the program that the value is
defined before. -/
theorem before (hy : y ∈ f.programInsts b) (h : f.Before v y) : g.Before x y := by
  have T := V.tidy
  have hy' : y ∈ g.programInsts b := by rwa [G.programInsts_eq T]
  induction E with
  | self => exact G.before_of_flowGraph T hflow h
  | early hearly => exact hearly.before ((reachable_congr hflow).mpr hb) hy'
  | trails htrails => exact htrails.before (G.tidy T) hy' (G.before_of_flowGraph T hflow h)
  | @source v w _ hsource _ ih =>
    -- the source is used by the pointer, so it comes before it
    rcases h.cases (List.mem_of_mem_filter hy) hb T with hparam | ⟨a, hv, ha⟩
    · rw [(G.isParam hparam).derivedFrom?] at hsource
      cases hsource
    · rw [G.derivedFrom?_eq (T.index_lt hv)] at hsource
      obtain ⟨kind, hkind, hphi, hoperand⟩ := kind?_of_derivedFrom? hsource
      exact ih ((V.use ha hv hkind hphi hoperand).1.trans T h hv)

/-- What escorts a value is defined at the end of every block where the value is. -/
theorem beforeEnd (h : f.BeforeEnd v b) : g.BeforeEnd x b := by
  have T := V.tidy
  induction E with
  | self => exact G.beforeEnd_of_flowGraph T hflow h
  | early hearly => exact hearly.beforeEnd ((reachable_congr hflow).mpr hb)
  | trails htrails => exact htrails.beforeEnd (G.tidy T) (G.beforeEnd_of_flowGraph T hflow h)
  | @source v w _ hsource _ ih =>
    rcases h.cases hb with hparam | ⟨a, hv, ha⟩
    · rw [(G.isParam hparam).derivedFrom?] at hsource
      cases hsource
    · rw [G.derivedFrom?_eq (T.index_lt hv)] at hsource
      obtain ⟨kind, hkind, hphi, hoperand⟩ := kind?_of_derivedFrom? hsource
      exact ih ((V.use ha hv hkind hphi hoperand).1.beforeEnd T h hv)

end Escorts

end Function

theorem Env.Consists.made {c : Component} {made : Component → Operand → Prop}
    (h : env.Consists md made) (hget : md.get? c = some operand) : made c operand := by
  have hc := h c
  split at hc
  · grind
  · rw [hc] at hget
    cases hget

namespace Weaving

variable {own : ValueId → Prop} {s u : Weaving} {c : Component} {lock result : Operand}
  {folded : FoldedMetadata}

theorem Kept.escorts (K : Kept own s u) (h : s.func.Escorts v x) : u.func.Escorts v x := by
  induction h with
  | self => exact .self
  | early h => exact .early (K.early h)
  | trails h => exact .trails (K.trails h)
  | source hsource _ ih => exact .source (K.derivedFrom? hsource) ih

/-! ### Components of records -/

/-- The metadata of a constant is constant, but for its lock. -/
theorem get?_materialize {w : PointerWidth} {spatial temporal : Bool}
    (h : (folded.materialize w spatial temporal lock).get? c = some operand) :
    operand.value? = none ∨ operand = lock ∧ temporal ∧ folded.needsGlobalLock := by
  cases c with
  | base | bound =>
    cases spatial with
    | false => cases h
    | true =>
      cases h
      exact .inl rfl
  | key =>
    cases temporal with
    | false => cases h
    | true =>
      cases h
      exact .inl rfl
  | lock =>
    cases temporal with
    | false => cases h
    | true =>
      cases h
      cases hlock : folded.lock with
      | null => exact .inl rfl
      | global => exact .inr ⟨rfl, rfl, by simp [FoldedMetadata.needsGlobalLock, hlock]⟩

theorem get?_nullMetadata (h : env.nullMetadata.get? c = some operand) : operand.value? = none := by
  have hnull : env.nullMetadata = FoldedMetadata.null.materialize env.width
      env.config.spatialSafety env.config.temporalSafety (.const .nullVoidPtr) := rfl
  rcases get?_materialize (hnull ▸ h) with hconst | ⟨-, -, hneeds⟩
  · exact hconst
  · cases hneeds

theorem const_or_globalLock (hlock : s.lockFor? env folded = some lock)
    (hget : (folded.materialize env.width env.config.spatialSafety env.config.temporalSafety
      lock).get? c = some operand) : operand.value? = none ∨ s.globalLock = some operand := by
  rcases get?_materialize hget with hconst | ⟨rfl, htemporal, hneeds⟩
  · exact .inl hconst
  · rw [lockFor?, htemporal, hneeds] at hlock
    exact .inr hlock

theorem const_or_globalLock_of_resolved? {k : Constant} (h : s.resolved? env (.const k) = some md)
    (hget : md.get? c = some operand) : operand.value? = none ∨ s.globalLock = some operand := by
  rw [resolved?] at h
  split at h
  · grind [Option.map_eq_some_iff, const_or_globalLock]
  · cases h

theorem escorts_of_asVoidPtr (hoperand : ∀ x, operand = .value x → s.func.Escorts v x)
    (h : s.func.AsVoidPtr (s.func.Trails v) operand result) (hx : result = .value x) :
    s.func.Escorts v x := by
  cases h with
  | same => exact hoperand x hx
  | null => cases hx
  | const => cases hx
  | cast hmade =>
    obtain ⟨z, hz, htrails, -⟩ := hmade
    cases hx.symm.trans hz
    exact .trails htrails

theorem escorts_of_made {kind : InstKind} (h : s.func.Made (s.func.Trails v) kind (.value x)) :
    s.func.Escorts v x := by
  obtain ⟨z, hz, htrails, -⟩ := h
  cases hz
  exact .trails htrails

/-- The components of records are defined wherever the pointers are, and what was requested for the
whole function is defined at its top. -/
structure Escorted (f : Function) (s : Weaving) : Prop where
  record : ∀ {v md c x}, f.Available (.value v) → s.store.lookup v = some md →
    md.get? c = some (.value x) → s.func.Escorts v x
  lock : ∀ {x}, s.globalLock = some (.value x) → s.func.Early x
  frame : ∀ {frameKey x}, s.frameKey = some frameKey →
    frameKey.key = .value x ∨ frameKey.lock = .value x → s.func.Early x

theorem Escorted.early_of_component (Q : s.Escorted f)
    (h : (Operand.value x).value? = none ∨ s.globalLock = some (.value x)) : s.func.Early x :=
  Q.lock (h.resolve_left nofun)

/-- The components of a record can be used where the pointer can. -/
theorem Escorted.escorts_of_produced (Q : s.Escorted f) (V : f.Valid) (W : s.Woven env p f)
    (hproduced : s.Produced env f v md) (hget : md.get? c = some (.value x))
    (havailable : f.Available (.value v)) : s.func.Escorts v x := by
  cases hproduced with
  | slot _ _ hmd =>
    obtain ⟨z, hz, hearly, -⟩ := hmd.made hget
    cases hz
    exact .early hearly
  | byval _ _ hlock => exact .early (Q.early_of_component (const_or_globalLock hlock hget))
  | alloca _ _ hspatial _ htemporal =>
    cases c with
    | base =>
      obtain ⟨spatial, hmd, hbase⟩ := Option.map_eq_some_iff.mp hget
      obtain ⟨past, hvoid, -⟩ := hspatial spatial hmd
      refine escorts_of_asVoidPtr (fun z hz => ?_) hvoid hbase
      cases hz
      exact .self
    | bound =>
      obtain ⟨spatial, hmd, hbound⟩ := Option.map_eq_some_iff.mp hget
      obtain ⟨past, -, hpast, hvoid⟩ := hspatial spatial hmd
      refine escorts_of_asVoidPtr (fun z hz => ?_) hvoid hbound
      exact escorts_of_made (hz ▸ hpast)
    | key =>
      obtain ⟨temporal, hmd, hkey⟩ := Option.map_eq_some_iff.mp hget
      exact .early (Q.frame (htemporal temporal hmd) (.inl hkey))
    | lock =>
      obtain ⟨temporal, hmd, hlock⟩ := Option.map_eq_some_iff.mp hget
      exact .early (Q.frame (htemporal temporal hmd) (.inr hlock))
  | load _ _ _ hmd => exact escorts_of_made (hmd.made hget)
  | @derived source _ hsource hresolved =>
    cases source with
    | const k =>
      exact .early (Q.early_of_component (const_or_globalLock_of_resolved? hresolved hget))
    | value w =>
      -- a derived pointer is used only where its source can be used
      have hw : f.Available (.value w) := by
        rw [W.grows.derivedFrom?_eq (havailable.index_lt V)] at hsource
        exact havailable.of_derivedFrom? V hsource
      exact .source hsource (Q.record hw hresolved hget)
  | select _ _ _ hsome hmade =>
    have hboth := hsome c
    rw [hget, Option.isSome_some, eq_comm, Bool.and_eq_true] at hboth
    obtain ⟨a, ha⟩ := Option.isSome_iff_exists.mp hboth.1
    obtain ⟨b, hb⟩ := Option.isSome_iff_exists.mp hboth.2
    exact escorts_of_made (hmade c a b _ ha hb hget)
  | phi _ hmd =>
    obtain ⟨edges, hmade⟩ := hmd.made hget
    exact escorts_of_made hmade
  | call _ _ hmd => exact escorts_of_made (hmd.made hget)
  | null => cases get?_nullMetadata hget

/-! ### Steps -/

/-- What was there stays as it should be; the rest is left to show. -/
theorem Escorted.of_kept (Q : s.Escorted f) (K : Kept own s u)
    (hrecord : ∀ {v md}, u.store.lookup v = some md → s.store.lookup v = some md ∨
      ∀ {c x}, f.Available (.value v) → md.get? c = some (.value x) → u.func.Escorts v x)
    (hlock : u.globalLock = s.globalLock) (hframe : u.frameKey = s.frameKey) : u.Escorted f where
  record havailable hlookup hget := by
    rcases hrecord hlookup with hlookup | hescorts
    · exact K.escorts (Q.record havailable hlookup hget)
    · exact hescorts havailable hget
  lock h := K.early (Q.lock (hlock ▸ h))
  frame h hx := K.early (Q.frame (hframe ▸ h) hx)

theorem Step.escorted (step : Step env p f own s u) (V : f.Valid) (W : s.Woven env p f)
    (Q : s.Escorted f) : u.Escorted f := by
  have K := step.kept W
  cases step with
  | splice => exact Q.of_kept K .inl rfl rfl
  | shadows _ hnone _ hkind hlocate hphis hassociate =>
    refine Q.of_kept K (fun {v md} hlookup => ?_) rfl rfl
    rcases lookup_of_associate hassociate hnone hlookup with hlookup | ⟨rfl, rfl⟩
    · exact .inl hlookup
    · exact .inr fun _ hget => escorts_of_made ((made_placeholders W hkind hlocate hphis).made hget)
  | edge => exact Q.of_kept K .inl rfl rfl
  | associate _ hnone hproduced hassociate =>
    refine Q.of_kept K (fun {v md} hlookup => ?_) rfl rfl
    rcases lookup_of_associate hassociate hnone hlookup with hlookup | ⟨rfl, rfl⟩
    · exact .inl hlookup
    · exact .inr fun havailable hget => Q.escorts_of_produced V W hproduced hget havailable
  | lock _ hmade =>
    refine { Q with lock := fun {x} h => ?_ }
    obtain ⟨y, hy, hearly, -⟩ := hmade
    cases hy.symm.trans (Option.some.inj h)
    exact hearly
  | frame _ _ hlock hkey =>
    refine { Q with frame := fun {frameKey x} h hx => ?_ }
    cases h
    -- both parts of the key are taken apart at the top
    rcases hx with hx | hx
    · obtain ⟨y, hy, hearly, -⟩ := hkey
      cases hx.symm.trans hy
      exact hearly
    · obtain ⟨y, hy, hearly, -⟩ := hlock
      cases hx.symm.trans hy
      exact hearly
  | other hfunc hstore hlock hframe =>
    exact Q.of_kept K (fun hlookup => .inl (hstore ▸ hlookup)) hlock hframe

/-- The components of all records that are made in steps escort their pointers. -/
theorem Steps.escorted (S : Steps env p f own s u) (V : f.Valid) (W : s.Woven env p f)
    (Q : s.Escorted f) : u.Escorted f := by
  induction S with
  | refl => exact Q
  | tail S step ih => exact step.escorted V (Steps.woven S W) ih

theorem escorted_start {store : Store} (V : f.Valid) (hstore : store.Vacant f) :
    (start f store).Escorted f where
  record havailable hlookup := by
    rw [start, hstore _ (havailable.has V)] at hlookup
    cases hlookup
  lock h := by cases h
  frame h := by cases h

end Weaving

end PointerGuard
