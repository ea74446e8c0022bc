import PointerGuard.Proofs.Recording

/-!
# Edges of placeholders

The second pass gives each placeholder the edges of its phi. A shadow then has an edge for each of
them, with the component of what the phi takes from there, or null if nothing ever comes from there.
-/

namespace PointerGuard.Weaving

open Edit PointerGuard.Function

variable {expected filled : Nat} {ph : Placeholder} {phi x shadow id : ValueId} {t t' : Weaving}
  {operand value : Operand} {block pred : BlockId}

/-- An edge of a shadow mirrors an edge of its phi. -/
def MirrorsEdge (s : Weaving) (env : Env) (c : Component) (edge mirrored : Operand × BlockId) :
    Prop :=
  mirrored.2 = edge.2 ∧ ∃ md, mirrored.1 = md.component env.width c ∧
    if env.isReachable edge.2 then s.resolved? env edge.1 = some md else md = env.nullMetadata

/-- A phi carries a component of another. -/
def Mirrors (s : Weaving) (env : Env) (c : Component) (phi shadow : ValueId) : Prop :=
  ∃ incoming edges, s.func.kind? phi = some (.phi incoming) ∧
    s.func.kind? shadow = some (.phi edges) ∧
    List.Forall₂ (s.MirrorsEdge env c) incoming edges

variable {env : Env} {p : Routine → Prop} {own : ValueId → Prop} {f : Function} {s s' : Weaving}
  {c : Component}

theorem MirrorsEdge.of_kept (K : Kept own s s') {edge mirrored : Operand × BlockId}
    (h : s.MirrorsEdge env c edge mirrored) : s'.MirrorsEdge env c edge mirrored := by
  obtain ⟨hblock, md, hcomponent, hmd⟩ := h
  refine ⟨hblock, md, hcomponent, ?_⟩
  by_cases hreachable : env.isReachable edge.2
  · rw [if_pos hreachable] at hmd ⊢
    exact K.resolved? hmd
  · rwa [if_neg hreachable] at hmd ⊢

theorem Mirrors.of_kept (K : Kept own s s') (hphi : ¬own phi) (hshadow : ¬own shadow)
    (h : s.Mirrors env c phi shadow) : s'.Mirrors env c phi shadow := by
  obtain ⟨incoming, edges, hkind, hkind', hedges⟩ := h
  exact ⟨incoming, edges, K.kind? hkind fun _ => hphi, K.kind? hkind' fun _ => hshadow,
    hedges.imp fun _ _ => .of_kept K⟩

/-! ### One edge -/

theorem runs_addIncoming {a : Unit} :
    (addIncoming phi value block).Runs s a s' ↔
      ∃ incoming, s.func.kind? phi = some (.phi incoming) ∧
        { s with func := s.func.withEdges phi (incoming ++ [(value, block)]) } = s' := by
  rw [addIncoming]
  simp only [runs_bind, runs_ofExcept, addIncoming_eq_ok_iff]
  constructor
  · simp
  · simp

theorem addEdges_steps {shadows : List (Component × ValueId)} {value : Component → Operand}
    (hnodup : (shadows.map Prod.snd).Nodup)
    (hnew : ∀ x ∈ shadows.map Prod.snd, f.values.size ≤ x.index) (W : s.Woven env p f)
    (h : (shadows.forM fun shadow => addIncoming shadow.2 (value shadow.1) block).Runs s ⟨⟩ s') :
    Steps env p f (· ∈ shadows.map Prod.snd) s s' ∧ Steady s s' ∧
      ∀ c x edges, (c, x) ∈ shadows → s.func.kind? x = some (.phi edges) →
        s'.func.kind? x = some (.phi (edges ++ [(value c, block)])) := by
  induction shadows generalizing s with
  | nil =>
    obtain rfl := runs_forM_nil.mp h
    exact ⟨.refl, .refl, by simp⟩
  | cons shadow rest ih =>
    obtain ⟨t, hfirst, hrest⟩ := runs_forM_cons.mp h
    obtain ⟨incoming, hkind, rfl⟩ := runs_addIncoming.mp hfirst
    have step : Step env p f (· ∈ (shadow :: rest).map Prod.snd) s
        { s with func := s.func.withEdges shadow.2 (incoming ++ [(value shadow.1, block)]) } :=
      .edge (by simp) (hnew shadow.2 (by simp)) hkind
    rw [List.map_cons, List.nodup_cons] at hnodup
    have W' := step.woven W
    obtain ⟨S, hsteady, hedges⟩ :=
      ih hnodup.2 (fun x hx => hnew x (.tail _ hx)) W' hrest
    have K := S.kept W'
    refine ⟨.head step (S.mono fun x hx => .tail _ hx),
      ⟨hsteady.store, hsteady.report, hsteady.queues⟩, ?_⟩
    intro c x edges hmem hx
    rcases List.mem_cons.mp hmem with rfl | hmem
    · -- the first shadow is not among the rest, so it keeps the edge it just got
      grind [Kept.kind?, kind?_withEdges]
    · refine hedges c x edges hmem ?_
      have hne : x ≠ shadow.2 := fun e =>
        hnodup.1 (e ▸ List.mem_map.mpr ⟨(c, x), hmem, rfl⟩)
      rw [kind?_withEdges_of_ne hne, hx]

theorem edgeMetadata_steps {md : PointerMetadata} (W : s.Woven env p f) (hp : p .globalLock)
    (h : (edgeMetadata env phi expected filled operand pred).Runs s md s') :
    Steps env p f Never s s' ∧ Steady s s' ∧
      if env.isReachable pred then s'.resolved? env operand = some md
      else md = env.nullMetadata := by
  rw [edgeMetadata] at h
  by_cases hreachable : env.isReachable pred
  · rw [if_pos hreachable, runs_bind] at h
    obtain ⟨found, t, hresolve, h⟩ := h
    obtain ⟨S, hresolved, hsteady⟩ := tryResolve_steps W hp hresolve
    cases found with
    | none => simp at h
    | some found => grind [runs_pure]
  · grind [runs_pure, Steady.refl]

/-! ### One placeholder -/

/-- What holds while a placeholder still lacks some edges. -/
structure Fills (env : Env) (p : Routine → Prop) (f : Function) (ph : Placeholder) (s : Weaving)
    (incoming rest : List (Operand × BlockId)) (t : Weaving) : Prop where
  steps : Steps env p f (· ∈ ph.shadows.map Prod.snd) s t
  steady : Steady s t
  mirrors : ∃ front, incoming = front ++ rest ∧ ∀ c x, (c, x) ∈ ph.shadows →
    ∃ edges, t.func.kind? x = some (.phi edges) ∧
      List.Forall₂ (t.MirrorsEdge env c) front edges

theorem Fills.step {incoming rest : List (Operand × BlockId)}
    (F : Fills env p f ph s incoming ((operand, pred) :: rest) t) (W : s.Woven env p f)
    (hp : Lenient p) (hnodup : (ph.shadows.map Prod.snd).Nodup)
    (hnew : ∀ x ∈ ph.shadows.map Prod.snd, f.values.size ≤ x.index)
    (h : (edgeMetadata env ph.phi expected filled operand pred >>= fun md => ph.shadows.forM
      fun shadow => addIncoming shadow.2 (md.component env.width shadow.1) pred).Runs t ⟨⟩ t') :
    Fills env p f ph s incoming rest t' := by
  obtain ⟨md, u, hmd, hedges⟩ := runs_bind.mp h
  have Wt := Steps.woven F.steps W
  obtain ⟨S, hsteady, hmd⟩ := edgeMetadata_steps Wt (hp _ rfl) hmd
  have Wu := S.woven Wt
  obtain ⟨S', hsteady', hadded⟩ := addEdges_steps hnodup hnew Wu hedges
  obtain ⟨front, hincoming, hmirrors⟩ := F.mirrors
  refine ⟨(F.steps.trans S.any).trans S', (F.steady.trans hsteady).trans hsteady',
    front ++ [(operand, pred)], by simp [hincoming], fun c x hx => ?_⟩
  obtain ⟨edges, hkind, hfront⟩ := hmirrors c x hx
  have hkind := hadded c x edges hx ((S.kept Wt).kind? hkind fun _ h => h.elim)
  -- looking up the metadata may add code, and so may giving the edges: nothing is lost in either
  have hlast : u.MirrorsEdge env c (operand, pred) (md.component env.width c, pred) :=
    ⟨rfl, md, rfl, hmd⟩
  refine ⟨_, hkind, List.rel_append ?_ (.cons (.of_kept (S'.kept Wu) hlast) .nil)⟩
  exact hfront.imp fun _ _ h => .of_kept (S'.kept Wu) (.of_kept (S.kept Wt) h)

/-- Filling a placeholder is a loop over the edges of its phi; what comes after it only looks at the
function. -/
theorem runs_fillPlaceholder (h : (fillPlaceholder env ph).Runs s ⟨⟩ s') :
    ∃ incoming, s.func.kind? ph.phi = some (.phi incoming) ∧
      (incoming.zipIdx.forM fun entry => do
        let md ← edgeMetadata env ph.phi incoming.length entry.2 entry.1.1 entry.1.2
        ph.shadows.forM fun shadow =>
          addIncoming shadow.2 (md.component env.width shadow.1) entry.1.2).Runs s ⟨⟩ s' := by
  rw [fillPlaceholder, runs_get_bind] at h
  split at h
  · rename_i incoming hkind
    obtain ⟨_, t, hloop, hcheck⟩ := runs_bind.mp h
    have hsame : s' = t := by
      refine hcheck.forM_induction (fun _ u => u = t) rfl fun shadow _ u u' hu hbody => ?_
      simp only [runs_ite, runs_pure, runs_throw, and_false, or_false] at hbody
      rw [← hbody.2.2, hu]
    exact ⟨incoming, hkind, hsame ▸ hloop⟩
  · simp at h

theorem fillPlaceholder_mirrors (W : s.Woven env p f) (hp : Lenient p) (hstands : ph.Stands f s)
    (hnodup : (ph.shadows.map Prod.snd).Nodup) (h : (fillPlaceholder env ph).Runs s ⟨⟩ s') :
    Steps env p f (· ∈ ph.shadows.map Prod.snd) s s' ∧ Steady s s' ∧
      ∀ c x, (c, x) ∈ ph.shadows → s'.Mirrors env c ph.phi x := by
  have hnew : ∀ x ∈ ph.shadows.map Prod.snd, f.values.size ≤ x.index := fun _ => hstands.size_le
  obtain ⟨incoming, hkind, hloop⟩ := runs_fillPlaceholder h
  have F := hloop.forM_induction
    (fun rest t => Fills env p f ph s incoming (rest.map Prod.fst) t) ?_ ?_
  · obtain ⟨front, hincoming, hmirrors⟩ := F.mirrors
    obtain rfl : incoming = front := by simpa using hincoming
    refine ⟨F.steps, F.steady, fun c x hx => ?_⟩
    obtain ⟨edges, hedges, hall⟩ := hmirrors c x hx
    -- the phi itself is not one of the shadows, so its edges stay
    have hphi : ph.phi ∉ ph.shadows.map Prod.snd := fun hmem =>
      absurd hstands.phi_lt (Nat.not_lt.mpr (hnew _ hmem))
    exact ⟨incoming, edges, (Steps.kept F.steps W).kind? hkind fun _ => hphi, hedges, hall⟩
  · refine ⟨.refl, .refl, [], by simp, fun c x hx => ?_⟩
    exact ⟨[], (hstands.shadow c x hx).2, .nil⟩
  · grind [Fills.step]

/-! ### All placeholders -/

/-- What holds while some placeholders are still to be filled. -/
structure FillsAll (env : Env) (p : Routine → Prop) (f : Function) (placeholders : List Placeholder)
    (s : Weaving) (rest : List Placeholder) (t : Weaving) : Prop where
  steps : Steps env p f (· ∈ shadowIds placeholders) s t
  steady : Steady s t
  nodup : (shadowIds rest).Nodup
  stands : ∀ ph ∈ rest, ph ∈ placeholders ∧ ph.Stands f t
  mirrors : ∀ ph ∈ placeholders, ph ∈ rest ∨ ph.phi.index < f.values.size ∧
    ∀ c x, (c, x) ∈ ph.shadows → x ∉ shadowIds rest ∧ f.values.size ≤ x.index ∧
      t.Mirrors env c ph.phi x

theorem FillsAll.step {placeholders rest : List Placeholder}
    (F : FillsAll env p f placeholders s (ph :: rest) t) (W : s.Woven env p f) (hp : Lenient p)
    (h : (fillPlaceholder env ph).Runs t ⟨⟩ t') : FillsAll env p f placeholders s rest t' := by
  obtain ⟨hph, hstands⟩ := F.stands ph (.head _)
  have Wt := Steps.woven F.steps W
  have hnodup := F.nodup
  -- each placeholder has shadows of its own
  rw [shadowIds, List.flatMap_cons, List.nodup_append] at hnodup
  obtain ⟨hown, hrest, hdisjoint⟩ := hnodup
  obtain ⟨S, hsteady, hmirrors⟩ := fillPlaceholder_mirrors Wt hp hstands hown h
  have K := S.kept Wt
  have hnew : ∀ x ∈ ph.shadows.map Prod.snd, f.values.size ≤ x.index := fun _ => hstands.size_le
  refine ⟨F.steps.trans (S.mono fun x hx => List.mem_flatMap.mpr ⟨ph, hph, hx⟩),
    F.steady.trans hsteady, hrest, fun ph' hph' => ?_, fun ph' hph' => ?_⟩
  · obtain ⟨hmem, hstands'⟩ := F.stands ph' (.tail _ hph')
    refine ⟨hmem, hstands'.of_kept K (fun h => ?_) fun x _ hx hx' => ?_⟩
    · exact absurd hstands'.phi_lt (Nat.not_lt.mpr (hnew _ h))
    · grind
  · -- what was filled before is left alone, and the one filled now is done
    rcases F.mirrors ph' hph' with hmem | ⟨hlt, hdone⟩
    · rcases List.mem_cons.mp hmem with rfl | hmem
      · refine .inr ⟨hstands.phi_lt, fun c x hx => ?_⟩
        have hx' : x ∈ ph'.shadows.map Prod.snd := List.mem_map.mpr ⟨(c, x), hx, rfl⟩
        exact ⟨fun h => hdisjoint x hx' x h rfl, hnew x hx', hmirrors c x hx⟩
      · exact .inl hmem
    · refine .inr ⟨hlt, fun c x hx => ?_⟩
      obtain ⟨hout, hle, hmirror⟩ := hdone c x hx
      rw [shadowIds, List.flatMap_cons, List.mem_append, not_or] at hout
      refine ⟨hout.2, hle, hmirror.of_kept K (fun h => ?_) hout.1⟩
      exact absurd hlt (Nat.not_lt.mpr (hnew _ h))

theorem fillPlaceholders_mirrors (W : s.Woven env p f) (hp : Lenient p) (P : s.Pending f)
    (h : (fillPlaceholders env).Runs s ⟨⟩ s') :
    Steps env p f (· ∈ shadowIds s.placeholders) s s' ∧
      s'.store = s.store ∧ s'.report = s.report ∧
      ∀ ph ∈ s.placeholders, ∀ c x, (c, x) ∈ ph.shadows → s'.Mirrors env c ph.phi x := by
  rw [fillPlaceholders, runs_get_bind] at h
  simp only [runs_bind, runs_modify] at h
  obtain ⟨_, _, rfl, h⟩ := h
  have step : Steps env p f (· ∈ shadowIds s.placeholders) s { s with placeholders := [] } :=
    .single (.other rfl rfl rfl rfl (.inr rfl))
  have W' := step.woven W
  have F := h.forM_induction (FillsAll env p f s.placeholders { s with placeholders := [] }) ?_ ?_
  · refine ⟨step.trans F.steps, F.steady.store, F.steady.report, fun ph hph c x hx => ?_⟩
    rcases F.mirrors ph hph with hmem | ⟨-, hdone⟩
    · cases hmem
    · exact (hdone c x hx).2.2
  · refine ⟨.refl, .refl, P.nodup, fun ph hph => ⟨hph, ?_⟩, fun ph hph => .inl hph⟩
    exact { P.stands ph hph with }
  · intro ph rest t t' F hbody
    exact F.step W' hp hbody

/-! ### Stored pointers -/

theorem recordStore_steps (W : s.Woven env p f) (hlock : p .globalLock) (hstore : p .metadataStore)
    (hid : id.index < f.values.size) (h : (recordStore env id).Runs s ⟨⟩ s') :
    Steps env p f Never s s' := by
  rw [recordStore, runs_get_bind] at h
  split at h
  · rename_i stored ptr hkind
    simp only [runs_bind, runs_operandType] at h
    obtain ⟨ty, _, ⟨-, rfl⟩, h⟩ := h
    rcases runs_ite.mp h with ⟨-, h⟩ | ⟨-, h⟩
    · simp only [runs_bind, runs_splice, runs_count] at h
      obtain ⟨md, t, hresolve, _, _, ⟨b, i, v, hlocate, ⟨address, _, haddress, _, _, hcall, -, rfl⟩,
        rfl⟩, rfl⟩ := h
      obtain ⟨S, hresolved, -⟩ := resolve_steps W hlock hresolve
      have hkind := (S.kept W).nonphi hkind rfl
      -- the record of what is stored is put behind the store, where all of it can be used
      have anchored : InsertPoint.Anchored f t.func (.after id) := ⟨hid, _, hkind, rfl, rfl⟩
      have start : env.Adds p (t.Given env (.after id)) ⟨t.func, b, i⟩ ⟨t.func, b, i⟩ := .refl
      obtain ⟨A, E, -, huse⟩ := start.toVoidPtr haddress
        (.inl (.inl (.of_operand hkind (.tail _ (.head _)))))
      have hcomponent : ∀ c, Splice.Usable (t.Given env (.after id)) ⟨t.func, b, i⟩ ⟨t.func, b, i⟩
          (md.component env.width c) := by
        intro c
        rcases serves_component hkind (.head _) hresolved c with hserves | hconst
        · exact .inl (.inl hserves)
        · exact .inr (.inl hconst)
      obtain ⟨B, -⟩ := A.call hcall hstore (by
        simpa using ⟨huse, (hcomponent .base).mono E, (hcomponent .bound).mono E,
          (hcomponent .key).mono E, (hcomponent .lock).mono E⟩)
      exact (S.tail (.splice anchored hlocate B)).tail (.other rfl rfl rfl rfl (.inr rfl))
    · obtain ⟨-, rfl⟩ := runs_pure.mp h
      exact .refl
  · obtain ⟨-, rfl⟩ := runs_pure.mp h
    exact .refl

theorem recordStores_steps {blocks : List BlockId} (W : s.Woven env p f) (hp : Lenient p)
    (h : (forProgramInsts blocks (recordStore env)).Runs s ⟨⟩ s') : Steps env p f Never s s' := by
  have loop := forProgramInsts_induction h W.tidy
    (fun todo t => (∀ v ∈ todo, v.index < f.values.size) ∧ Steps env p f Never s t)
    (fun I => (I.2.woven W).grows) ⟨fun v hv => ?_, .refl⟩ ?_
  · exact loop.2
  · obtain ⟨kind, hkind⟩ :=
      exists_kind?_of_isProgramInst (isProgramInst_of_mem_flatMap v hv)
    exact (index_lt_of_kind? hkind).2
  · rintro id rest t t' ⟨htodo, S⟩ hvisit
    refine ⟨fun v hv => htodo v (.tail _ hv), S.trans ?_⟩
    exact recordStore_steps (S.woven W) (hp _ rfl) (hp _ rfl) (htodo id (.head _)) hvisit

/-- The phis beside those of the program are phis of the function. -/
theorem Gathers.func_eq {left : List ValueId} (G : Gathers env p f s left t) (W : s.Woven env p f)
    (hx : x ∈ shadowIds t.placeholders) : x.func = f.id := by
  obtain ⟨ph, hph, hx⟩ := List.mem_flatMap.mp hx
  obtain ⟨⟨c, y⟩, hy, rfl⟩ := List.mem_map.mp hx
  have hkind := ((G.pending.stands ph hph).shadow c y hy).2
  rw [← (Steps.woven G.steps W).grows.id_eq]
  exact (index_lt_of_kind? hkind).1

theorem resolveMetadata_steps (hfirst : f.ParamsFirst) (W : t.Woven env p f) (hp : Lenient p)
    (G : Gathers env p f s t.deferred t) (h : (resolveMetadata env).Runs t ⟨⟩ s') :
    Steps env p f (·.func = f.id) t s' := by
  simp only [resolveMetadata, runs_bind, runs_bfsBlocks] at h
  obtain ⟨_, u, hdeferred, _, w, hfill, blocks, _, ⟨-, rfl⟩, hstores⟩ := h
  have Gu := resolveDeferred_gathers W hp G.anew hdeferred
  have Wu := Steps.woven Gu.steps W
  have S := (fillPlaceholders_mirrors Wu hp Gu.pending hfill).1
  refine (Steps.mono (fun v hv => (hv.has hfirst).func_eq) Gu.steps).trans
    ((S.mono fun x hx => Gu.func_eq W hx).trans ?_)
  exact (recordStores_steps (S.woven Wu) hp hstores).any

/-! ### Both passes -/

/-- What the two passes that gather metadata have done to a function. -/
structure Gathered (env : Env) (p : Routine → Prop) (f : Function) (s t : Weaving) : Prop where
  steps : Steps env p f (·.func = f.id) s t
  mirrors : ∀ {v incoming md c x}, v.index < f.values.size → f.kind? v = some (.phi incoming) →
    t.store.lookup v = some md → md.get? c = some (.value x) → t.Mirrors env c v x
  records : ∀ {v md}, t.store.lookup v = some md → s.store.lookup v = some md ∨
    t.Recorded env f (fun v => (s.store.lookup v).isSome) v md

theorem Gathered.steps_any (G : Gathered env p f s t) (W : s.Woven env p f)
    (S : Steps env p f Never t t') : Gathered env p f s t' := by
  have K := S.kept (Steps.woven G.steps W)
  refine ⟨G.steps.trans S.any, fun hv hkind hlookup hget => ?_, fun hlookup => ?_⟩
  · rw [K.lookup id] at hlookup
    exact (G.mirrors hv hkind hlookup hget).of_kept K id id
  · rw [K.lookup id] at hlookup
    exact (G.records hlookup).imp_right fun R => R.of_kept K

theorem gathered {store : Store} (T : f.Tidy) (hfirst : f.ParamsFirst) (hstore : store.Vacant f)
    (hp : Lenient p) (hcreate : (createMetadata env).Runs (.start f store) ⟨⟩ t)
    (hresolve : (resolveMetadata env).Runs t ⟨⟩ s') : Gathered env p f (.start f store) s' := by
  have W : Woven env p f (.start f store) := ⟨T, .refl⟩
  simp only [resolveMetadata, runs_bind, runs_bfsBlocks] at hresolve
  obtain ⟨_, u, hdeferred, _, w, hfill, blocks, _, ⟨-, rfl⟩, hstores⟩ := hresolve
  have G :=
    resolveDeferred_gathers W hp (createMetadata_gathers T hfirst hstore hp hcreate) hdeferred
  have Wu := Steps.woven G.steps W
  obtain ⟨S, hsame, -, hmirrors⟩ := fillPlaceholders_mirrors Wu hp G.pending hfill
  have filled : Gathered env p f (.start f store) w := by
    refine ⟨(Steps.mono (fun v hv => (hv.has hfirst).func_eq) G.steps).trans
        (S.mono fun x hx => G.func_eq W hx),
      fun {v incoming md c x} hv hkind hlookup hget => ?_, fun {v md} hlookup => ?_⟩
    · rw [hsame] at hlookup
      obtain ⟨ph, hph, rfl⟩ :=
        G.pending.complete hv (by rw [Wu.kind?_eq hv, hkind]) hlookup
      exact hmirrors ph hph c x (((G.pending.stands ph hph).record c x).mpr ⟨md, hlookup, hget⟩)
    · rw [hsame] at hlookup
      exact (Steps.recorded G.steps W hfirst hlookup).imp_right fun R => R.of_kept (S.kept Wu)
  exact filled.steps_any W (recordStores_steps (S.woven Wu) hp hstores)

end PointerGuard.Weaving
