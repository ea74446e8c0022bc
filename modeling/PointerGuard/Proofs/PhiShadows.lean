import PointerGuard.Proofs.Accounts
import PointerGuard.Proofs.SharedRecords

/-!
# Shadows of phis

Each pointer phi that is visited gets one shadow phi for each tracked component, directly behind it.
In the end a shadow has an edge for each edge of its phi, with the component of what the phi takes
from there, or null if control never comes from there.
-/

namespace PointerGuard

open PointerGuard.Function

variable {visited : List ValueId} {p : Routine → Prop} {own : ValueId → Prop} {s u : Weaving}
  {incoming : List (Operand × BlockId)}

/-- What stands for a component of a pointer that is never there. -/
def Component.ofNull (w : PointerWidth) : Component → Operand
  | .key => .const (keyConstant w 0)
  | .base | .bound | .lock => .const .nullVoidPtr

theorem Env.component_nullMetadata (env : Env) (c : Component) :
    env.nullMetadata.component env.width c = c.ofNull env.width := by
  rw [nullMetadata]
  cases env.config.spatialSafety <;> cases env.config.temporalSafety <;> cases c <;> rfl

/-- Some values are listed directly behind another, in order. -/
def Function.Behind (f : Function) (v : ValueId) (xs : List ValueId) : Prop :=
  ∃ b, v :: xs <:+: f.instsOf b

variable {env : Env} {f : Function} {v : ValueId} {xs front rest : List ValueId} {ph : Placeholder}

/-! ### Insertions next to shadows -/

/-- Insertions leave a row of values together if they are not made within it: what is in front of
them is not one of the row, or what is behind them is not one but the first. -/
theorem Function.Behind.of_adds {allowed : InstKind → Prop} {given : Operand → Prop} {s u : Splice}
    (h : s.func.Behind v xs) (A : s.Adds allowed given u) (hb : s.block.index < s.func.blocks.size)
    (hsplit : s.func.instsOf s.block = front ++ rest) (hposition : s.position = front.length)
    (hcut : (∀ y ∈ front.getLast?, y ∉ v :: xs) ∨ ∀ y ∈ rest.head?, y ∉ xs) :
    u.func.Behind v xs := by
  obtain ⟨new, kinds, I⟩ := A.inserts
  obtain ⟨hlist, -, -, hother⟩ := I.instsOf_eq hb hsplit hposition
  obtain ⟨b, before, after, hrow⟩ := h
  by_cases hblock : b = s.block
  swap
  · exact ⟨b, before, after, by rw [hother b hblock, hrow]⟩
  subst hblock
  rw [hsplit, List.append_assoc] at hrow
  rcases List.append_eq_append_iff.mp hrow.symm with ⟨d, rfl, hrest⟩ | ⟨d, hfront, hd⟩
  · exact ⟨s.block, front ++ new ++ d, after, by rw [hlist, hrest]; simp⟩
  cases d with
  | nil => exact ⟨s.block, front ++ new, after, by rw [hlist, ← List.nil_append rest, ← hd]; simp⟩
  | cons y d =>
    obtain ⟨rfl, hxs⟩ : v = y ∧ xs ++ after = d ++ rest := by simpa using hd
    rcases List.append_eq_append_iff.mp hxs with ⟨e, rfl, hafter⟩ | ⟨e, hxs, hrest⟩
    · exact ⟨s.block, before, e ++ new ++ rest, by rw [hlist, hfront]; simp⟩
    cases e with
    | nil => exact ⟨s.block, before, new ++ rest, by rw [hlist, hfront, hxs]; simp⟩
    | cons x e =>
      -- the insertions would be made within the row
      rcases hcut with hcut | hcut
      · obtain ⟨y, hy⟩ : ∃ y, (v :: d).getLast? = some y :=
          ⟨_, List.getLast?_eq_some_getLast (List.cons_ne_nil v d)⟩
        have hmem : y ∈ v :: d := List.mem_of_getLast? hy
        refine absurd (?_ : y ∈ v :: xs) (hcut y ?_)
        · rw [hxs]
          exact List.mem_append_left _ hmem
        · rw [hfront, List.getLast?_append, hy]
          rfl
      · exact absurd (by simp [hxs]) (hcut x (by simp [hrest]))

namespace Weaving

open Edit

/-- A step leaves the shadows of a phi where they are, once the phi has a record. -/
theorem Step.behind (step : Step env p f own s u) (W : s.Woven env p f)
    (hkind : s.func.kind? v = some (.phi incoming)) (hnew : ∀ x ∈ xs, f.values.size ≤ x.index)
    (hrecord : xs ≠ [] → s.store.lookup v ≠ none) (h : s.func.Behind v xs) :
    u.func.Behind v xs := by
  -- an instruction of the program is none of the shadows
  have hout : ∀ {y : ValueId}, y.index < f.values.size → y ∉ xs := fun hy hmem =>
    absurd hy (Nat.not_lt.mpr (hnew _ hmem))
  cases step with
  | @splice point b i r hpoint hlocate A =>
    have place := Place.of_anchored hpoint hlocate
    cases point with
    | before y =>
      obtain ⟨before, after, hsplit, hi⟩ := locate?_before hlocate
      refine h.of_adds A place.block_lt hsplit hi (.inr ?_)
      rintro _ ⟨⟩
      exact hout hpoint.1
    | after y =>
      obtain ⟨before, after, hsplit, hi⟩ := locate?_after hlocate
      obtain ⟨hy, kind, hkind', hphi, -⟩ := hpoint
      refine h.of_adds A place.block_lt (by simpa using hsplit) hi (.inl ?_)
      rw [List.getLast?_concat]
      rintro _ ⟨⟩ hmem
      rcases List.mem_cons.mp hmem with rfl | hmem
      · cases hkind.symm.trans hkind'
        cases hphi
      · exact hout hy hmem
    | prologue =>
      obtain ⟨rfl, hb, top, after, hsplit, hi, -, hafter⟩ := locate?_prologue hlocate
      refine h.of_adds A hb hsplit hi (.inr fun y hy hmem => ?_)
      obtain ⟨after, rfl⟩ := List.head?_eq_some_iff.mp hy
      have hprogram := hafter y after rfl
      rw [W.grows.not_isProgramInst (hnew y hmem)] at hprogram
      cases hprogram
    | afterPhis b => exact hpoint.elim
    | beforeTerminator b => exact hpoint.elim
  | @shadows phi incoming' b i spatial temporal r store _ hnone hphi hkind' hlocate hphis _ =>
    obtain ⟨before, after, hsplit, hi⟩ := locate?_after hlocate
    have place := place_after hkind' rfl hlocate
    refine h.of_adds (Splice.Adds.placeholderPhis hphis).1 place.block_lt
      (by simpa using hsplit) hi ?_
    by_cases hempty : xs = []
    · exact .inr fun _ _ => by simp [hempty]
    · grind
  | edge =>
    obtain ⟨b, before, after, hrow⟩ := h
    exact ⟨b, before, after, by rw [instsOf_withEdges, hrow]⟩
  | associate => exact h
  | lock => exact h
  | frame => exact h
  | other hfunc =>
    rw [hfunc]
    exact h

theorem Steps.behind (S : Steps env p f own s u) (W : s.Woven env p f)
    (hkind : s.func.kind? v = some (.phi incoming)) (hnew : ∀ x ∈ xs, f.values.size ≤ x.index)
    (hrecord : xs ≠ [] → s.store.lookup v ≠ none) (h : s.func.Behind v xs) :
    u.func.Behind v xs := by
  induction S with
  | refl => exact h
  | tail S step ih =>
    have K := Steps.kept S W
    obtain ⟨edges, hkind⟩ := K.phi hkind
    refine step.behind (Steps.woven S W) hkind hnew (fun hxs => ?_) ih
    obtain ⟨md, hmd⟩ := Option.ne_none_iff_exists'.mp (hrecord hxs)
    simp [K.record hmd]

end Weaving

/-! ### Where shadows are put -/

/-- The shadows of a placeholder are for the components that are tracked, and they stand behind its
phi in the same order. -/
structure Placeholder.Lined (env : Env) (s : Weaving) (ph : Placeholder) : Prop where
  components : ph.shadows.map Prod.fst = env.components
  behind : s.func.Behind ph.phi (ph.shadows.map Prod.snd)

theorem Placeholder.Lined.of_steps (L : ph.Lined env s) (hstands : ph.Stands f s)
    (W : s.Woven env p f) (S : Weaving.Steps env p f own s u) : ph.Lined env u := by
  obtain ⟨incoming, hkind⟩ := hstands.phi
  refine ⟨L.components, S.behind W hkind (fun x hx => hstands.size_le hx) (fun hne => ?_) L.behind⟩
  have hshadows : ph.shadows ≠ [] := fun h => hne (by rw [h, List.map_nil])
  obtain ⟨⟨c, x⟩, hx⟩ := List.exists_mem_of_ne_nil _ hshadows
  obtain ⟨md, hmd, -⟩ := (hstands.record c x).mp hx
  simp [hmd]

namespace Weaving

open Edit

variable {s' t t' : Weaving} {id : ValueId} {done : Bool}

private theorem propagatePhi_lined (hkind : s.func.kind? id = some (.phi incoming))
    (h : (propagatePhi env id).Runs s ⟨⟩ s') :
    ∃ ph, s'.placeholders = s.placeholders ++ [ph] ∧ ph.phi = id ∧ ph.Lined env s' := by
  obtain ⟨b, i, spatial, temporal, v, _, hlocate, hphis, -, hfunc, -, -, -, -, -, hplaceholders⟩ :=
    propagatePhi_runs h
  obtain ⟨before, after, hsplit, hi⟩ := locate?_after hlocate
  have hshadows := runs_placeholderPhis hphis
  have I := Splice.inserts_each Splice.inserts_insert hshadows
  obtain ⟨hlist, -⟩ := I.instsOf_eq (place_after hkind rfl hlocate).block_lt
    (show s.func.instsOf b = (before ++ [id]) ++ after by simpa using hsplit) hi
  exact ⟨_, hplaceholders, rfl, Splice.keys_of_runs_each hshadows, b, before, after,
    by rw [hfunc, hlist]; simp⟩

/-- Propagation adds a placeholder if it comes to a pointer phi, and none otherwise. -/
theorem propagate_lined {kind : InstKind} (W : s.Woven env p f) (hnone : s.store.lookup id = none)
    (hp : Lenient p) (hkind : f.kind? id = some kind) (h : (propagate env id).Runs s done s') :
    f.isPointerPhi id = false ∧ s'.placeholders = s.placeholders ∨
      ∃ ph, s'.placeholders = s.placeholders ++ [ph] ∧ ph.phi = id ∧ ph.Lined env s' := by
  have hid := (index_lt_of_kind? hkind).2
  have hkind' : s.func.kind? id = some kind := by rw [W.kind?_eq hid, hkind]
  cases hphi : kind.isPhi with
  | false =>
    obtain ⟨-, hqueues⟩ := propagate_steps W hid hnone (fun r h _ => hp r h) hkind' hphi h
    refine .inl ⟨?_, congrArg Prod.fst hqueues⟩
    rw [isPointerPhi, hkind]
    cases kind with
    | phi incoming => cases hphi
    | _ => rfl
  | true =>
    obtain ⟨incoming, rfl⟩ := InstKind.exists_of_isPhi hphi
    obtain ⟨-, ⟨-, hphi⟩ | ⟨hpointer, rfl⟩⟩ := runs_propagate_phi hkind' h
    · exact .inr (propagatePhi_lined hkind' hphi)
    · rw [isPointerValue_congr (W.grows.value?_eq hid)] at hpointer
      exact .inl ⟨by rw [isPointerPhi, hkind, hpointer], rfl⟩

/-! ### Both passes -/

/-- What holds of the shadows while some of the visited instructions are still to come. -/
structure Lines (env : Env) (f : Function) (visited todo : List ValueId) (t : Weaving) : Prop where
  lined : ∀ ph ∈ t.placeholders, ph.Lined env t
  placeholder : ∀ v ∈ visited, f.isPointerPhi v → v ∈ todo ∨ ∃ ph ∈ t.placeholders, ph.phi = v

namespace Lines

variable {todo before after : List ValueId}

theorem propagate (W : s.Woven env p f) (hp : Lenient p)
    (G : Gathers env p f s (before ++ id :: after) t)
    (h : (Weaving.propagate env id).Runs t done t')
    (L : Lines env f visited (before ++ id :: after) t) :
    Lines env f visited (before ++ if done then after else id :: after) t' := by
  obtain ⟨⟨kind, hkind⟩, hnone, hfresh⟩ := G.todo id (by simp)
  have Wt := Steps.woven G.steps W
  obtain ⟨S, -⟩ := propagate_pending Wt hp (index_lt_of_kind? hkind).2 hnone hkind
    G.pending hfresh h
  have hold : ∀ ph ∈ t.placeholders, ph.Lined env t' := fun ph hph =>
    (L.lined ph hph).of_steps (G.pending.stands ph hph) Wt S
  have hleft : ∀ v, v ≠ id → v ∈ before ++ id :: after →
      v ∈ before ++ if done then after else id :: after := by
    intro v hne hv
    cases done <;> simpa [hne] using hv
  -- a pointer phi gets its placeholder now, and no other instruction gets one
  rcases propagate_lined Wt hnone hp hkind h with ⟨hother, hsame⟩ | ⟨ph, hmore, hphi, hlined⟩
  · refine ⟨by rwa [hsame], fun v hv hpointer => ?_⟩
    rw [hsame]
    refine (L.placeholder v hv hpointer).imp_left (hleft v ?_)
    rintro rfl
    rw [hother] at hpointer
    cases hpointer
  · constructor
    · grind
    · grind [placeholder]

/-- Steps that give nothing a record, and leave the placeholders alone, do not matter. -/
theorem steps_any (L : Lines env f visited todo t) (W : s.Woven env p f)
    (G : Gathers env p f s todo t) (S : Steps env p f Never t t')
    (hplaceholders : t'.placeholders = t.placeholders) : Lines env f visited todo t' := by
  refine ⟨fun ph hph => ?_, by rw [hplaceholders]; exact L.placeholder⟩
  rw [hplaceholders] at hph
  exact (L.lined ph hph).of_steps (G.pending.stands ph hph) (Steps.woven G.steps W) S

end Lines

/-- The first pass visits the blocks that are reached once the parameters have been recorded. -/
theorem createMetadata_lines {store : Store} (T : f.Tidy) (hfirst : f.ParamsFirst)
    (hstore : store.Vacant f) (hp : Lenient p)
    (h : (createMetadata env).Runs (.start f store) ⟨⟩ t) :
    ∃ g blocks, f.Grows env.routines p g ∧ (f.pointerParams = [] → g = f) ∧
      g.bfsBlocks? = some blocks ∧ Gathers env p f (.start f store) t.deferred t ∧
      Lines env f (blocks.flatMap f.programInsts) t.deferred t := by
  have W : Woven env p f (.start f store) := ⟨T, .refl⟩
  obtain ⟨r, blocks, u, hparams, ⟨S, hqueues⟩, hblocks, G, hinsts, hrelease⟩ :=
    runs_createMetadata T hfirst hstore hp h
  have hplaceholders : r.placeholders = [] := congrArg Prod.fst hqueues
  have L : Lines env f (blocks.flatMap f.programInsts)
      (r.deferred ++ blocks.flatMap f.programInsts) r :=
    ⟨by simp [hplaceholders], fun v hv _ => .inl (List.mem_append_right _ hv)⟩
  obtain ⟨G, L⟩ := forProgramInsts_keeps W hp (Lines.propagate W hp)
    (fun G S _ hplaceholders L => L.steps_any W G S hplaceholders) hinsts G L
  obtain ⟨S', hqueues'⟩ := releaseFrameKey_steps (Steps.woven G.steps W) (hp _ rfl) hrelease
  refine ⟨r.func, blocks, (Steps.woven S W).grows, fun hnone => ?_, hblocks,
    G.releaseFrameKey W hp hrelease, ?_⟩
  · rw [← loadParameters_nothing hnone hparams]
    rfl
  · rw [show t.deferred = u.deferred from congrArg (fun q => q.2.1) hqueues']
    exact L.steps_any W G S' (congrArg Prod.fst hqueues')

/-- What a shadow takes over an edge: the component of the metadata of what its phi takes from the
same block, or that of null if control never comes from there. -/
def CarriesEdge (env : Env) (f : Function) (t : Weaving) (c : Component)
    (edge carried : Operand × BlockId) : Prop :=
  carried.2 = edge.2 ∧
    (f.Reachable edge.2 → ∃ md, (resolve env edge.1).Runs t md t ∧
      carried.1 = md.component env.width c) ∧
    (¬f.Reachable edge.2 → carried.1 = c.ofNull env.width)

theorem MirrorsEdge.carriesEdge {c : Component} {edge mirrored : Operand × BlockId}
    (h : t.MirrorsEdge env c edge mirrored) (hblocks : 0 < f.blocks.size)
    (htree : f.dominators? = some env.dominators) : CarriesEdge env f t c edge mirrored := by
  obtain ⟨hblock, md, hcomponent, hmd⟩ := h
  have hiff : env.isReachable edge.2 ↔ f.Reachable edge.2 := isReachable_iff hblocks htree
  refine ⟨hblock, fun hreachable => ?_, fun hunreachable => ?_⟩
  · grind [runs_resolve_of_resolved?]
  · grind [Env.component_nullMetadata]

/-- The second pass fills placeholders, and leaves their shadows where they are. -/
theorem Lines.resolved (L : Lines env f visited [] u) (G : Gathers env p f s [] u)
    (W : s.Woven env p f) (hp : Lenient p) {blocks : List BlockId}
    (hfill : (fillPlaceholders env).Runs u ⟨⟩ t)
    (hstores : (forProgramInsts blocks (recordStore env)).Runs t ⟨⟩ t')
    (hph : ph ∈ u.placeholders) :
    ph.Lined env t' ∧
      (∀ c x, (c, x) ∈ ph.shadows ↔
        ∃ md, t'.store.lookup ph.phi = some md ∧ md.get? c = some (.value x)) ∧
      ∀ c x, (c, x) ∈ ph.shadows → f.values.size ≤ x.index ∧ t'.Mirrors env c ph.phi x := by
  have Wu := Steps.woven G.steps W
  have hstands := G.pending.stands ph hph
  obtain ⟨S, hsame, -, hmirrors⟩ := fillPlaceholders_mirrors Wu hp G.pending hfill
  have S' := recordStores_steps (S.woven Wu) hp hstores
  have K := S'.kept (S.woven Wu)
  refine ⟨(L.lined ph hph).of_steps hstands Wu (S.trans S'.any), fun c x => ?_, fun c x hx => ?_⟩
  · rw [hstands.record, K.lookup not_false, hsame]
  · exact ⟨(hstands.shadow c x hx).1,
      (hmirrors ph hph c x hx).of_kept K not_false not_false⟩

end Weaving

/-- When metadata has been gathered for a function whose first block has an instruction of the
program, or that has no pointer parameters, each reachable pointer phi of the program has a shadow
for each tracked component. The shadows are its record; they stand directly behind it in the order
of the components, and have its edges with the components of what it takes. -/
theorem Env.phis_are_shadowed {env : Env} {f : Function} {store : Store} {s t : Weaving}
    (hf : f.WellFormed) (htree : f.dominators? = some env.dominators)
    (hstore : ∀ v, v.func = f.id → store.lookup v = none)
    (hentry : f.programInsts ⟨0⟩ ≠ [] ∨ f.pointerParams = [])
    (hcreate : (Weaving.createMetadata env).Runs (.start f store) ⟨⟩ s)
    (hresolve : (Weaving.resolveMetadata env).Runs s ⟨⟩ t) :
    ∀ b v incoming, f.Reachable b → v ∈ f.programInsts b → f.isPointerValue v →
      f.kind? v = some (.phi incoming) →
      ∃ shadows : List (Component × ValueId),
        shadows.map Prod.fst = env.components ∧
        (∀ c x, (c, x) ∈ shadows ↔
          ∃ md, t.store.lookup v = some md ∧ md.get? c = some (.value x)) ∧
        t.func.Behind v (shadows.map Prod.snd) ∧
        ∀ c x, (c, x) ∈ shadows → f.values.size ≤ x.index ∧
          ∃ edges, t.func.kind? x = some (.phi edges) ∧
            List.Forall₂ (Weaving.CarriesEdge env f t c) incoming edges := by
  intro b v incoming hb hv hpointer hkind
  have hp : Lenient Any := fun _ _ => trivial
  have W : Weaving.Woven env Any f (.start f store) := ⟨hf.tidy, .refl⟩
  have hblocks : 0 < f.blocks.size :=
    Nat.zero_lt_of_lt (Function.index_lt_of_mem_instsOf (List.mem_of_mem_filter hv))
  obtain ⟨g, visited, grows, hsame, hvisited, G, L⟩ := Weaving.createMetadata_lines hf.tidy
    hf.paramsFirst (fun v hv => hstore v hv.func_eq) hp hcreate
  -- the walk is over the grown function; either condition makes it come to all reachable blocks
  have hmem : b ∈ visited := by
    rcases hentry with hentry | hnone
    · have walk : f.WalksOnceGrown env.routines visited := ⟨g, grows, hvisited⟩
      exact (walk.mem_iff hf.tidy hblocks fun _ => hentry).mpr hb
    · rw [hsame hnone] at hvisited
      exact (Function.mem_bfsBlocks_iff hblocks hvisited).mpr hb
  have hphi : f.isPointerPhi v := by rw [Function.isPointerPhi, hkind, hpointer]
  have Wt := Weaving.Steps.woven (Weaving.gathered hf.tidy hf.paramsFirst
    (fun v hv => hstore v hv.func_eq) hp hcreate hresolve).steps W
  simp only [Weaving.resolveMetadata, Edit.runs_bind, Weaving.runs_bfsBlocks] at hresolve
  obtain ⟨_, u, hdeferred, _, w, hfill, blocks, _, ⟨-, rfl⟩, hstores⟩ := hresolve
  obtain ⟨G, L⟩ := Weaving.resolveDeferred_keeps W hp (Weaving.Lines.propagate W hp)
    (fun G S _ hplaceholders L => L.steps_any W G S hplaceholders) hdeferred G L
  obtain ⟨ph, hph, rfl⟩ := (L.placeholder v (List.mem_flatMap.mpr ⟨b, hmem, hv⟩) hphi).resolve_left
    List.not_mem_nil
  obtain ⟨hlined, hrecord, hshadow⟩ := L.resolved G W hp hfill hstores hph
  refine ⟨ph.shadows, hlined.components, hrecord, hlined.behind, fun c x hx => ?_⟩
  obtain ⟨hnew, incoming', edges, hkind', hedges, hmirrors⟩ := hshadow c x hx
  obtain rfl : incoming = incoming' := by
    rw [Wt.kind?_eq (Function.index_lt_of_kind? hkind).2, hkind] at hkind'
    simpa using hkind'
  exact ⟨hnew, edges, hedges, hmirrors.imp fun _ _ h => h.carriesEdge hblocks htree⟩

/-- Both phis have four shadows. Those of the second carry the components of the first around the
loop. -/
theorem phis_are_shadowed_sideDoor :
    let env := gatherEnv sideDoor
    let t := gatherResolved sideDoor
    sideDoor.Reachable ⟨1⟩ ∧ ¬sideDoor.Reachable ⟨3⟩ ∧
      (∃ shadows : List (Component × ValueId),
        shadows.map Prod.fst = [.base, .bound, .key, .lock] ∧
        t.func.Behind ⟨⟨0⟩, 4⟩ (shadows.map Prod.snd)) ∧
      ∃ shadows : List (Component × ValueId),
        shadows.map Prod.fst = [.base, .bound, .key, .lock] ∧
        t.func.Behind ⟨⟨0⟩, 5⟩ (shadows.map Prod.snd) ∧
        ∀ c x, (c, x) ∈ shadows → ∃ edges, t.func.kind? x = some (.phi edges) ∧
          List.Forall₂ (Weaving.CarriesEdge env sideDoor t c)
            [(.value ⟨⟨0⟩, 1⟩, ⟨0⟩), (.value ⟨⟨0⟩, 4⟩, ⟨1⟩), (.value ⟨⟨0⟩, 1⟩, ⟨3⟩)] edges := by
  intro env t
  have hloop : sideDoor.Reachable ⟨1⟩ := ⟨_, .step .start (by decide +kernel)⟩
  have htree : sideDoor.dominators? = some env.dominators :=
    dominators_gatherEnv (by decide +kernel)
  have shadowed := Env.phis_are_shadowed (f := sideDoor) (by decide +kernel) htree (fun _ _ => rfl)
    (by decide +kernel) (runs_gatherCreated (by decide +kernel))
    (runs_gatherResolved (by decide +kernel))
  refine ⟨hloop, (Function.isReachable_iff (by decide +kernel) htree).not.mp (by decide +kernel),
    ?_, ?_⟩
  · obtain ⟨shadows, hcomponents, -, hbehind, -⟩ :=
      shadowed ⟨1⟩ ⟨⟨0⟩, 4⟩ _ hloop (by decide +kernel) rfl rfl
    exact ⟨shadows, hcomponents, hbehind⟩
  · obtain ⟨shadows, hcomponents, -, hbehind, hshadows⟩ :=
      shadowed ⟨1⟩ ⟨⟨0⟩, 5⟩ _ hloop (by decide +kernel) rfl rfl
    exact ⟨shadows, hcomponents, hbehind, fun c x hx => (hshadows c x hx).2⟩

/-- A phi in the second block, and a first block that only has a jump that was inserted. -/
def joinedEntry : Function :=
  (Function.ofBlocks ⟨0⟩ "f" ⟨.void, [.ptr (.int 8)], false⟩ [
    [(.void, .jump ⟨1⟩)],
    [(.ptr (.int 8), .phi [(val 0, ⟨0⟩)]), (.void, .ret none)]]).withInserted 1

/-- The function is valid and gathering succeeds, but the record of the parameter is loaded behind
the jump. The phi is never visited and gets no shadow. -/
theorem phis_not_shadowed_joinedEntry :
    joinedEntry.verify = .ok () ∧ joinedEntry.Reachable ⟨1⟩ ∧
      ⟨⟨0⟩, 2⟩ ∈ joinedEntry.programInsts ⟨1⟩ ∧ joinedEntry.isPointerPhi ⟨⟨0⟩, 2⟩ ∧
      ((Weaving.createMetadata (gatherEnv joinedEntry)).apply
        (.start joinedEntry ⟨.bits64, []⟩)).1.isOk ∧
      ((Weaving.resolveMetadata (gatherEnv joinedEntry)).apply
        (gatherCreated joinedEntry)).1.isOk ∧
      (gatherEnv joinedEntry).components = [.base, .bound, .key, .lock] ∧
      joinedEntry.phisAdded (gatherResolved joinedEntry).func = 0 ∧
      (gatherResolved joinedEntry).store.has ⟨⟨0⟩, 2⟩ = false :=
  ⟨by decide +kernel, ⟨_, .step .start (by decide +kernel)⟩, by decide +kernel⟩

end PointerGuard
