import PointerGuard.Proofs.Splices
import PointerGuard.Proofs.Validity

/-!
# Growth of valid functions

Everything that was defined before a use still is. An insertion that is not behind the terminator
keeps the shape of its block if it does not come between phis, and it fits if its operands are
defined where it stands.
-/

namespace PointerGuard

open PointerGuard.Function

variable {f : Function} {b : BlockId} {x : ValueId} {t : RoutineTable} {p : Routine → Prop}
  {front rest : List ValueId} {kind : InstKind} {pending : ValueId → Prop}

namespace Function

variable {g : Function} {c : BlockId} {y new : ValueId} {front' more rest' : List ValueId} {ty : Ty}
  {operand : Operand}

/-- A value is defined whenever control has come through the first part of a block. -/
def DefinedBehind (f : Function) (x : ValueId) (b : BlockId) (front : List ValueId) : Prop :=
  f.IsParam x ∨ x ∈ front ∨ ∃ a, x ∈ f.instsOf a ∧ f.StrictlyDominates a b

theorem before_iff_definedBehind (T : f.Tidy) (hsplit : f.instsOf b = front ++ y :: rest) :
    f.Before x y ↔ f.DefinedBehind x b front := by
  have hy : y ∈ f.instsOf b := by simp [hsplit]
  rw [Before, Precedes.of_append T hsplit]
  refine or_congr_right (or_congr_right ⟨?_, ?_⟩)
  · grind [Tidy.block_eq]
  · rintro ⟨a, ha, hdom⟩
    exact ⟨a, b, ha, hy, hdom⟩

theorem DefinedBehind.append (h : f.DefinedBehind x b front) :
    f.DefinedBehind x b (front ++ more) :=
  h.imp_right fun h => h.imp_left fun hx => List.mem_append_left _ hx

/-! ### The way out of the first block -/

/-- Control stays in the first block if no way leads out of it. -/
theorem Reachable.eq_entry (h : f.Reachable b) (hnone : f.successors ⟨0⟩ = []) : b = ⟨0⟩ := by
  obtain ⟨nodes, walk⟩ := h
  have hzero : b.index = 0 := by
    generalize b.index = n at walk
    induction walk with
    | start => rfl
    | step walk edge ih =>
      rw [ih, mem_succ_flowGraph, hnone] at edge
      cases edge
  exact BlockId.ext hzero

/-- Something of the program is in the first block if control comes to anything of the program,
unless control comes there by a way out of the first block that was inserted. -/
theorem Reachable.program_ne_nil (hb : f.Reachable b)
    (hentry : f.successors ⟨0⟩ ≠ [] → f.programInsts ⟨0⟩ ≠ []) (hx : x ∈ f.programInsts b) :
    f.programInsts ⟨0⟩ ≠ [] := by
  intro hnone
  by_cases hway : f.successors ⟨0⟩ = []
  · rw [hb.eq_entry hway, hnone] at hx
    cases hx
  · exact hentry hway hnone

/-- Control comes to a block, and the way there stays open while `f` becomes `g`: something of
the program is in the first block, or no way leads out of it, or control comes to the block in
`g` too. -/
def StaysReachable (f g : Function) (b : BlockId) : Prop :=
  f.Reachable b ∧ ((f.successors ⟨0⟩ ≠ [] → f.programInsts ⟨0⟩ ≠ []) ∨ g.Reachable b)

/-! ### What growth keeps -/

namespace Grows

variable (G : f.Grows t p g) (T : f.Tidy) (hprogram : f.programInsts ⟨0⟩ ≠ [])

include G

theorem isParam (h : f.IsParam x) : g.IsParam x := by
  obtain ⟨ty, position, hvalue⟩ := h
  exact ⟨ty, position, (G.value?_eq (index_lt_of_value? hvalue).2).trans hvalue⟩

theorem gives (h : f.Gives operand) : g.Gives operand := by
  intro used heq
  obtain ⟨ty, htype, hvoid⟩ := h used heq
  obtain ⟨info, hvalue, -⟩ := Option.map_eq_some_iff.mp htype
  exact ⟨ty, by rw [valueType?_congr (G.value?_eq (index_lt_of_value? hvalue).2), htype], hvoid⟩

include T

theorem mem_instsOf (h : x ∈ f.instsOf b) : x ∈ g.instsOf b := (G.instsOf_sublist T b).subset h

/-- Control flow stays the same, unless nothing of the program is in the first block and control
does not leave it any more. -/
theorem flowGraph_eq_or :
    g.flowGraph = f.flowGraph ∨ f.programInsts ⟨0⟩ = [] ∧ g.successors ⟨0⟩ = [] := by
  rcases G.successors_eq T ⟨0⟩ with hsame | ⟨-, hnone, hlost⟩
  · left
    have hsuccessors : g.successors = f.successors := by
      funext b
      rcases G.successors_eq T b with hsame' | ⟨hentry, -⟩
      · exact hsame'
      · obtain rfl : b = ⟨0⟩ := BlockId.ext hentry
        exact hsame
    have hpredecessors : g.predecessors = f.predecessors := by
      funext b
      rw [predecessors, predecessors, blockIds, blockIds, G.size_blocks, hsuccessors]
    rw [flowGraph, flowGraph, G.size_blocks, hsuccessors, hpredecessors]
  · exact .inr ⟨hnone, hlost⟩

/-- What is defined before an instruction stays defined before it. -/
theorem before_of_flowGraph (hflow : g.flowGraph = f.flowGraph) (h : f.Before x y) :
    g.Before x y := by
  rcases h with h | h | ⟨a, b, ha, hb, hdom⟩
  · exact .inl (G.isParam h)
  · obtain ⟨b, hx, hy⟩ := h.mem_both
    exact .inr (.inl ((G.precedes_iff T (T.index_lt hx)
      (T.index_lt hy)).mpr h))
  · exact .inr (.inr ⟨a, b, G.mem_instsOf T ha, G.mem_instsOf T hb,
      (strictlyDominates_congr hflow).mpr hdom⟩)

theorem beforeEnd_of_flowGraph (hflow : g.flowGraph = f.flowGraph) (h : f.BeforeEnd x b) :
    g.BeforeEnd x b := by
  rcases h with h | h | ⟨a, ha, hdom⟩
  · exact .inl (G.isParam h)
  · exact .inr (.inl (G.mem_instsOf T h))
  · exact .inr (.inr ⟨a, G.mem_instsOf T ha, (strictlyDominates_congr hflow).mpr hdom⟩)

include hprogram

theorem flowGraph_eq : g.flowGraph = f.flowGraph :=
  (G.flowGraph_eq_or T).resolve_right fun h => hprogram h.1

theorem predecessors_eq (b : BlockId) : g.predecessors b = f.predecessors b := by
  rw [predecessors, predecessors, blockIds, G.size_blocks]
  refine List.filter_congr fun a _ => ?_
  rw [decide_eq_decide, mem_successors_congr (G.flowGraph_eq T hprogram)]

theorem reachable_iff : g.Reachable b ↔ f.Reachable b :=
  reachable_congr (G.flowGraph_eq T hprogram)

omit hprogram in
theorem reachable_of_stays (h : f.StaysReachable g b) (hx : x ∈ f.programInsts b) :
    g.Reachable b := by
  obtain ⟨hb, hentry | hb'⟩ := h
  · exact (G.reachable_iff T (hb.program_ne_nil hentry hx)).mpr hb
  · exact hb'

theorem strictlyDominates_iff : g.StrictlyDominates b c ↔ f.StrictlyDominates b c :=
  strictlyDominates_congr (G.flowGraph_eq T hprogram)

theorem before (h : f.Before x y) : g.Before x y :=
  G.before_of_flowGraph T (G.flowGraph_eq T hprogram) h

theorem beforeEnd (h : f.BeforeEnd x b) : g.BeforeEnd x b :=
  G.beforeEnd_of_flowGraph T (G.flowGraph_eq T hprogram) h

theorem definedBehind (hfront : ∀ z ∈ front, z ∈ front') (h : f.DefinedBehind x b front) :
    g.DefinedBehind x b front' := by
  rcases h with h | h | ⟨a, ha, hdom⟩
  · exact .inl (G.isParam h)
  · exact .inr (.inl (hfront x h))
  · exact .inr (.inr ⟨a, G.mem_instsOf T ha, (G.strictlyDominates_iff T hprogram).mpr hdom⟩)

theorem usesFit (h : f.UsesFit b x kind) : g.UsesFit b x kind where
  gives operand hoperand := G.gives (h.gives operand hoperand)
  phi hb edges hkind := by
    have fits := h.phi ((G.reachable_iff T hprogram).mp hb) edges hkind
    refine ⟨?_, fun operand a hedge => ?_, fits.nodup, fun used a hedge ha => ?_⟩
    · rw [G.predecessors_eq T hprogram, fits.length]
    · rw [G.predecessors_eq T hprogram]
      exact fits.pred operand a hedge
    · exact G.beforeEnd T hprogram
        (fits.defined used a hedge ((G.reachable_iff T hprogram).mp ha))
  before hb hphi used hused :=
    G.before T hprogram (h.before ((G.reachable_iff T hprogram).mp hb) hphi used hused)

end Grows

/-! ### Fitting functions -/

/-- A function is valid, but for some phis whose edges are missing. -/
structure Fitting (f : Function) (pending : ValueId → Prop) : Prop where
  shaped : ∀ b : BlockId, b.index < f.blocks.size → f.Shaped b
  fits : ∀ {b x kind}, x ∈ f.instsOf b → f.kind? x = some kind → ¬pending x → f.UsesFit b x kind

variable {pending' : ValueId → Prop}

theorem Valid.fitting (V : f.Valid) : f.Fitting pending :=
  ⟨V.shaped, fun hx hkind _ => V.fits hx hkind⟩

theorem Fitting.tidy (F : f.Fitting pending) : f.Tidy := tidy_of_shaped F.shaped

theorem Fitting.mono (F : f.Fitting pending) (h : ∀ x, pending x → pending' x) :
    f.Fitting pending' :=
  ⟨F.shaped, fun hx hkind hpending => F.fits hx hkind fun hx => hpending (h _ hx)⟩

/-- A list with one more element, cut at some element: that comes before the new one, is the new
one, or comes after it. -/
theorem split_insert (h : front ++ new :: rest = front' ++ x :: rest') :
    (∃ middle, front = front' ++ x :: middle ∧ rest' = middle ++ new :: rest) ∨
      (x = new ∧ front' = front ∧ rest' = rest) ∨
      ∃ middle, rest = middle ++ x :: rest' ∧ front' = front ++ new :: middle := by
  rcases List.append_eq_append_iff.mp h with ⟨middle, rfl, hmiddle⟩ | ⟨middle, rfl, hmiddle⟩
  · cases middle with
    | nil => grind
    | cons z middle => grind
  · cases middle with
    | nil => grind
    | cons z middle => grind

/-- A block keeps its shape when an instruction that is no terminator is put in front of its rest,
if phis stay together. -/
theorem Shaped.insertAt (T : f.Tidy) (S : f.Shaped b) (hsplit : f.instsOf b = front ++ rest)
    (hrest : rest ≠ []) (hterm : kind.isTerminator = false)
    (hsuccessors : ∀ c, (f.insertAt b front.length kind ty).successors c = f.successors c)
    (hbefore : kind.isPhi → ∀ z ∈ front, ∃ edges, f.kind? z = some (.phi edges))
    (hbehind : kind.isPhi = false → ∀ z ∈ rest, ∀ edges, f.kind? z ≠ some (.phi edges)) :
    (f.insertAt b front.length kind ty).Shaped b := by
  have hb : b.index < f.blocks.size := by
    obtain ⟨z, hz⟩ := List.exists_mem_of_ne_nil _ S.ne_nil
    exact index_lt_of_mem_instsOf hz
  have hlist : (f.insertAt b front.length kind ty).instsOf b = front ++ f.nextValue :: rest := by
    rw [instsOf_insertAt hb, hsplit, List.take_left, List.drop_left]
  have hold : ∀ {z}, z ∈ f.instsOf b →
      (f.insertAt b front.length kind ty).kind? z = f.kind? z := by
    intro z hz
    obtain ⟨inst, hinst⟩ := T.listed hz
    rw [kind?, kind?, inst?_insertAt_of_some hinst, hinst]
  have hnew : f.nextValue ∉ f.instsOf b := T.nextValue_not_mem
  refine ⟨by rw [hlist]; simp, fun front' x rest' hcut => ?_, fun c hc => ?_⟩
  · rw [hlist] at hcut
    rcases split_insert hcut with ⟨middle, rfl, rfl⟩ | ⟨rfl, rfl, rfl⟩ | ⟨middle, rfl, rfl⟩
    case inr.inl =>
      refine ⟨_, inst?_insertAt_nextValue, rfl, fun h => hnew (by simp [hsplit, h]), ?_,
        fun hphi z hz => ?_⟩
      · rw [hterm, List.isEmpty_eq_false_iff.mpr hrest]
      · grind
    case inl =>
      -- nothing has changed in front of it
      obtain ⟨inst, hinst, hblock, hout, hlast, hphi⟩ :=
        S.insts front' x (middle ++ rest) (by simp [hsplit])
      refine ⟨inst, inst?_insertAt_of_some hinst, hblock, hout, ?_, fun h z hz => ?_⟩
      · rw [hlast, List.isEmpty_eq_false_iff.mpr (by simp [hrest]),
          List.isEmpty_eq_false_iff.mpr (by simp)]
      · rw [hold (by simp [hsplit, hz])]
        exact hphi h z hz
    case inr.inr =>
      obtain ⟨inst, hinst, hblock, hout, hlast, hphi⟩ :=
        S.insts (front ++ middle) x rest' (by simp [hsplit])
      have hx : x ∈ f.instsOf b := by simp [hsplit]
      refine ⟨inst, inst?_insertAt_of_some hinst, hblock, ?_, hlast, fun h z hz => ?_⟩
      · grind
      · have hkind := exists_phi_of_isPhi hinst h
        rcases List.mem_append.mp hz with hz | hz
        · grind
        rcases List.mem_cons.mp hz with rfl | hz
        · -- a phi is behind it, so it is one itself
          cases hisPhi : kind.isPhi with
          | true => exact exists_phi_of_isPhi inst?_insertAt_nextValue hisPhi
          | false => grind
        · grind
  · rw [hsuccessors] at hc
    rw [size_blocks_insertAt]
    exact S.targets c hc

theorem place_of_split (hsplit : f.instsOf b = front ++ rest) (hrest : rest ≠ []) :
    f.Place b front.length := by
  have hlength : front.length < (f.instsOf b).length := by
    grind [List.length_append, List.length_pos_iff]
  obtain ⟨z, hz⟩ := List.exists_mem_of_ne_nil _ hrest
  have hmem : z ∈ f.instsOf b := by simp [hsplit, hz]
  exact ⟨index_lt_of_mem_instsOf hmem, hlength.le, .inl hlength⟩

/-- A fitting function takes an instruction whose operands are defined where it is put, and a phi
without edges as one that is pending. -/
theorem Fitting.insertAt (F : f.Fitting pending) (hprogram : f.programInsts ⟨0⟩ ≠ [])
    (weft : kind.Weft t p) (hsplit : f.instsOf b = front ++ rest) (hrest : rest ≠ [])
    (hbefore : kind.isPhi → ∀ z ∈ front, ∃ edges, f.kind? z = some (.phi edges))
    (hbehind : kind.isPhi = false → ∀ z ∈ rest, ∀ edges, f.kind? z ≠ some (.phi edges))
    (hgives : ∀ operand ∈ kind.operands, f.Gives operand)
    (hdefined : f.Reachable b → ∀ used, .value used ∈ kind.operands → f.DefinedBehind used b front)
    (hpending : kind.isPhi → pending f.nextValue) :
    (f.insertAt b front.length kind ty).Fitting pending := by
  have T := F.tidy
  have place := place_of_split hsplit hrest
  have hb := place.block_lt
  have G : f.Grows t p (f.insertAt b front.length kind ty) := .insert .refl place weft
  have T' := G.tidy T
  constructor
  case shaped =>
    intro c hc
    rw [size_blocks_insertAt] at hc
    have hsuccessors : ∀ c, (f.insertAt b front.length kind ty).successors c = f.successors c := by
      intro c
      rcases G.successors_eq T c with hsame | ⟨hentry, hnone, -⟩
      · exact hsame
      · obtain rfl : c = ⟨0⟩ := BlockId.ext hentry
        exact absurd hnone hprogram
    by_cases hcb : c = b
    · subst hcb
      exact (F.shaped c hc).insertAt T hsplit hrest weft.not_isTerminator hsuccessors
        hbefore hbehind
    · have S := F.shaped c hc
      have hlist : (f.insertAt b front.length kind ty).instsOf c = f.instsOf c :=
        instsOf_insertAt_of_ne hcb
      refine ⟨by rw [hlist]; exact S.ne_nil, fun front' x rest' hcut => ?_, fun d hd => ?_⟩
      · grind [Shaped.insts, inst?_insertAt_of_some, Grows.kind?_eq]
      · rw [hsuccessors] at hd
        rw [size_blocks_insertAt]
        exact S.targets d hd
  case fits =>
    intro c x kind' hx hkind' hpending'
    rcases (mem_instsOf_insertAt hb).mp hx with hx | ⟨rfl, rfl⟩
    · obtain ⟨inst, hinst⟩ := T.listed hx
      have hkind : f.kind? x = some inst.kind := kind?_of_inst? hinst
      cases hkind'.symm.trans (G.kind?_eq hkind)
      exact G.usesFit T hprogram (F.fits hx hkind hpending')
    · obtain rfl : kind = kind' := by
        simpa [kind?, inst?_insertAt_nextValue] using hkind'
      have hphi : kind.isPhi = false := by grind
      have hlist : (f.insertAt c front.length kind ty).instsOf c =
          front ++ f.nextValue :: rest := by
        rw [instsOf_insertAt hb, hsplit, List.take_left, List.drop_left]
      refine ⟨fun operand hoperand => G.gives (hgives operand hoperand), fun _ edges h => ?_,
        fun hreach _ used hused => ?_⟩
      · rw [h] at hphi
        cases hphi
      · rw [before_iff_definedBehind T' hlist]
        exact G.definedBehind T hprogram (fun _ h => h)
          (hdefined ((G.reachable_iff T hprogram).mp hreach) used hused)

/-! Edges of one phi matter to nothing else. -/

section

variable {phi : ValueId} {incoming edges : List (Operand × BlockId)}
  (hphi : f.kind? phi = some (.phi incoming))

include hphi

theorem isParam_withEdges : (f.withEdges phi edges).IsParam x ↔ f.IsParam x := by
  obtain ⟨inst, ty, -, hvalue⟩ := value?_of_kind? hphi
  by_cases hx : x = phi
  · subst hx
    simp [IsParam, value?_withEdges hvalue, hvalue]
  · rw [IsParam, IsParam, value?_withEdges_of_ne hx]

theorem successors_withEdges : (f.withEdges phi edges).successors b = f.successors b := by
  rw [successors, successors, terminator?_withEdges hphi]
  cases hterm : f.terminator? b with
  | none => rfl
  | some last =>
    obtain ⟨-, kind, hkind, hisTerm⟩ := terminator?_eq_some_iff.mp hterm
    have hne : last ≠ phi := by
      rintro rfl
      cases hkind.symm.trans hphi
      cases hisTerm
    rw [Option.bind_some, Option.bind_some, kind?_withEdges_of_ne hne]

theorem predecessors_withEdges : (f.withEdges phi edges).predecessors b = f.predecessors b := by
  simp only [predecessors, blockIds, size_blocks_withEdges, successors_withEdges hphi]

theorem flowGraph_withEdges : (f.withEdges phi edges).flowGraph = f.flowGraph := by
  simp only [flowGraph, size_blocks_withEdges, successors_withEdges hphi,
    predecessors_withEdges hphi]

private theorem before_withEdges : (f.withEdges phi edges).Before x y ↔ f.Before x y := by
  simp only [Before, isParam_withEdges hphi, precedes_withEdges, instsOf_withEdges,
    strictlyDominates_congr (flowGraph_withEdges hphi)]

theorem usesFit_withEdges (h : f.UsesFit b x kind) : (f.withEdges phi edges).UsesFit b x kind := by
  have hreach : ∀ c, (f.withEdges phi edges).Reachable c ↔ f.Reachable c := fun _ =>
    reachable_congr (flowGraph_withEdges hphi)
  refine ⟨fun operand hoperand used heq => ?_, fun hb edges' hkind => ?_,
    fun hb hisPhi used hused => ?_⟩
  · rw [valueType?_withEdges hphi]
    exact h.gives operand hoperand used heq
  · obtain ⟨hlength, hpred, hnodup, hdefined⟩ := h.phi ((hreach b).mp hb) edges' hkind
    refine ⟨?_, fun operand a hedge => ?_, hnodup, fun used a hedge ha => ?_⟩
    · rw [predecessors_withEdges hphi, hlength]
    · rw [predecessors_withEdges hphi]
      exact hpred operand a hedge
    · have hend := hdefined used a hedge ((hreach a).mp ha)
      simpa only [BeforeEnd, isParam_withEdges hphi, instsOf_withEdges,
        strictlyDominates_congr (flowGraph_withEdges hphi)] using hend
  · grind [before_withEdges, UsesFit.before]

theorem Fitting.withEdges (F : f.Fitting pending) (hpending : pending phi) :
    (f.withEdges phi edges).Fitting pending := by
  obtain ⟨inst, hinst, hkind⟩ := kind?_eq_some_iff.mp hphi
  have hphis : ∀ {z}, (∃ edges', f.kind? z = some (.phi edges')) →
      ∃ edges', (f.withEdges phi edges).kind? z = some (.phi edges') := by
        grind [kind?_withEdges, kind?_withEdges_of_ne]
  constructor
  case shaped =>
    intro b hb
    rw [size_blocks_withEdges] at hb
    have S := F.shaped b hb
    refine ⟨by rw [instsOf_withEdges]; exact S.ne_nil, fun front x rest hcut => ?_, fun c hc => ?_⟩
    · rw [instsOf_withEdges] at hcut
      obtain ⟨inst', hinst', hblock, hout, hlast, hfirst⟩ := S.insts front x rest hcut
      by_cases hx : x = phi
      · subst hx
        cases hinst.symm.trans hinst'
        refine ⟨{ inst with kind := .phi edges }, by rw [inst?_withEdges hinst, if_pos rfl], hblock,
          hout, ?_, fun _ z hz => hphis (hfirst (by rw [hkind]; rfl) z hz)⟩
        rw [← hlast, hkind]
        rfl
      · exact ⟨inst', by rw [inst?_withEdges hinst, if_neg hx, hinst'], hblock, hout, hlast,
          fun h z hz => hphis (hfirst h z hz)⟩
    · rw [successors_withEdges hphi] at hc
      rw [size_blocks_withEdges]
      exact S.targets c hc
  case fits =>
    intro b x kind hx hkind' hnot
    rw [instsOf_withEdges] at hx
    have hne : x ≠ phi := fun e => hnot (e ▸ hpending)
    rw [kind?_withEdges_of_ne hne] at hkind'
    exact usesFit_withEdges hphi (F.fits hx hkind' hnot)

end

end Function

/-! ### Splices -/

namespace Splice.Adds

variable {given : Operand → Prop} {u s : Splice}

theorem allowed_of_new {allowed : InstKind → Prop} (A : Adds allowed given s u)
    (hle : s.func.values.size ≤ x.index) (hkind : u.func.kind? x = some kind) : allowed kind := by
  induction A with
  | refl => exact absurd (index_lt_of_kind? hkind).2 (Nat.not_lt.mpr hle)
  | @push u kind' ty A hallowed _ ih =>
    by_cases hx : x = u.func.nextValue
    · subst hx
      obtain rfl : kind' = kind := by
        simpa [Splice.push, kind?, inst?_insertAt_nextValue] using hkind
      exact hallowed
    · rw [Splice.push, kind?_congr (value?_insertAt_of_ne hx)] at hkind
      exact ih hkind

/-- Behind phis and in front of some instruction a function takes whatever uses operands that are
defined there. -/
theorem fitting (A : Adds (InstKind.Plain t p) given ⟨f, b, front.length⟩ u) (F : f.Fitting pending)
    (hprogram : f.programInsts ⟨0⟩ ≠ []) (hsplit : f.instsOf b = front ++ rest) (hrest : rest ≠ [])
    (hbehind : ∀ z ∈ rest, ∀ edges, f.kind? z ≠ some (.phi edges))
    (hgiven : ∀ operand, given operand → f.Gives operand ∧
      (f.Reachable b → ∀ used, operand = .value used → f.DefinedBehind used b front)) :
    u.func.Fitting pending := by
  have T := F.tidy
  have place := place_of_split hsplit hrest
  induction A with
  | refl => exact F
  | @push u kind ty A hkind hoperands ih =>
    obtain ⟨G, -⟩ := A.grows (t := t) (p := p) (fun _ h => h.1) place
    obtain ⟨ids, kinds, I⟩ := A.inserts
    obtain ⟨hlist, hposition, -⟩ := I.instsOf_eq place.block_lt hsplit rfl
    have hprogram' : u.func.programInsts ⟨0⟩ ≠ [] := by
      rw [G.programInsts_eq T]
      exact hprogram
    have hblock : u.block = b := I.block_eq
    rw [Splice.push, hblock, hposition]
    refine ih.insertAt hprogram' hkind.1 hlist hrest (fun h => ?_) (fun _ z hz edges h => ?_)
      (fun operand hoperand => ?_) (fun hreach used hused => ?_) fun h => ?_
    · rw [hkind.2] at h
      cases h
    · have hold := G.value?_eq (T.index_lt (b := b) (x := z) (by simp [hsplit, hz]))
      rw [kind?_congr hold] at h
      exact hbehind z hz edges h
    · rcases hoperands operand hoperand with h | h | ⟨x, ty, rfl, -, htype, hvoid⟩
      · exact G.gives (hgiven operand h).1
      · rintro used rfl
        cases h
      · rintro used ⟨⟩
        exact ⟨ty, htype, hvoid⟩
    · rcases hoperands _ hused with h | h | ⟨x, ty, hx, hle, htype, -⟩
      · grind [Grows.reachable_iff, Grows.definedBehind]
      · cases h
      · -- what was inserted before stands in front
        cases hx
        obtain ⟨info, hvalue, -⟩ := Option.map_eq_some_iff.mp htype
        exact .inr (.inl (List.mem_append_right _ (I.mem_of_new hle hvalue)))
    · rw [hkind.2] at h
      cases h

/-- Behind a phi a function takes phis without edges, which are then pending. -/
theorem fitting_phis (A : Adds (· = .phi []) given ⟨f, b, front.length⟩ u) (F : f.Fitting pending)
    (hprogram : f.programInsts ⟨0⟩ ≠ []) (hsplit : f.instsOf b = front ++ rest) (hrest : rest ≠ [])
    (hbefore : ∀ z ∈ front, ∃ edges, f.kind? z = some (.phi edges))
    (hpending : ∀ x : ValueId, f.values.size ≤ x.index → pending x) : u.func.Fitting pending := by
  have T := F.tidy
  have place := place_of_split hsplit hrest
  have hweft : ∀ kind : InstKind, kind = .phi [] → kind.Weft ⟨.bits64, []⟩ Never := by
    rintro _ rfl
    exact .phi
  induction A with
  | refl => exact F
  | @push u kind ty A hkind hoperands ih =>
    obtain ⟨G, -⟩ := A.grows hweft place
    obtain ⟨ids, kinds, I⟩ := A.inserts
    obtain ⟨hlist, hposition, -⟩ := I.instsOf_eq place.block_lt hsplit rfl
    have hprogram' : u.func.programInsts ⟨0⟩ ≠ [] := by
      rw [G.programInsts_eq T]
      exact hprogram
    have hblock : u.block = b := I.block_eq
    rw [Splice.push, hblock, hposition]
    subst hkind
    have hnone : (InstKind.phi []).operands = [] := rfl
    refine ih.insertAt hprogram' (hweft _ rfl) hlist hrest (fun _ z hz => ?_)
      (by simp [InstKind.isPhi]) (by simp [hnone]) (by simp [hnone]) fun _ => hpending _ G.size_le
    rcases List.mem_append.mp hz with hz | hz
    · grind [Grows.kind?_eq]
    · -- what was inserted before are phis as well
      obtain ⟨kind, -, hkind⟩ := List.mem_map.mp (I.map_kind? ▸ List.mem_map_of_mem hz)
      exact ⟨[],
        hkind.symm.trans (congrArg some (A.allowed_of_new (I.size_le_of_mem hz) hkind.symm))⟩

end Splice.Adds

end PointerGuard
