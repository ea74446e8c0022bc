import PointerGuard.Proofs.DominatorTrees
import PointerGuard.Proofs.Validity

/-!
# Validity along paths

A function passes verification if no way through the control flow graph comes to a use before the
definition has been executed. What a walk has executed is listed instruction by instruction; neither
dominance nor positions are mentioned.
-/

namespace PointerGuard.Function

variable {front : List ValueId} {f : Function} {b : BlockId} {x y : ValueId} {inst : Instruction}

/-- The instructions that are executed along a walk, with all those of its last block. -/
def executed (f : Function) (nodes : List Nat) : List ValueId :=
  nodes.flatMap fun n => f.instsOf ⟨n⟩

/-- Blocks are laid out well: none is empty, each instruction is listed once and says where, the
last one of a block is its only terminator, phis come first, and the blocks that are branched to
exist. -/
structure WellLaid (f : Function) : Prop where
  ne_nil : ∀ b : BlockId, b.index < f.blocks.size → f.instsOf b ≠ []
  listed : ∀ b, ∀ x ∈ f.instsOf b, ∃ inst, f.inst? x = some inst ∧ inst.block = b
  once : f.listing.Nodup
  terminated : ∀ b front x rest, f.instsOf b = front ++ x :: rest →
    ((∃ kind, f.kind? x = some kind ∧ kind.isTerminator) ↔ rest = [])
  phis : ∀ b : BlockId, ∃ phis others, f.instsOf b = phis ++ others ∧
    (∀ x ∈ phis, ∃ edges, f.kind? x = some (.phi edges)) ∧
    ∀ x ∈ others, ∀ edges, f.kind? x ≠ some (.phi edges)
  targets : ∀ a b, b ∈ f.successors a → b.index < f.blocks.size

/-- No walk comes to a use before the definition. -/
structure SoundOnPaths (f : Function) : Prop where
  laid : f.WellLaid
  /-- Operands name values of the function that are not void. -/
  gives : ∀ b, ∀ x ∈ f.instsOf b, ∀ kind, f.kind? x = some kind →
    ∀ used, .value used ∈ kind.operands →
    ∃ ty, f.valueType? used = some ty ∧ ty.isVoid = false
  /-- A phi has one edge for each block that leads to its own, and no other edge. -/
  edges : ∀ b, f.Reachable b → ∀ x ∈ f.instsOf b, ∀ edges, f.kind? x = some (.phi edges) →
    ∀ a, (edges.map Prod.snd).count a = if b ∈ f.successors a then 1 else 0
  /-- When a walk comes to an instruction, it has executed what the instruction uses. -/
  uses : ∀ b front x rest kind, f.instsOf b = front ++ x :: rest → f.kind? x = some kind →
    kind.isPhi = false → ∀ used, .value used ∈ kind.operands →
    ∀ visited, f.flowGraph.Walk 0 (visited ++ [b.index]) b.index →
      f.IsParam used ∨ used ∈ f.executed visited ++ front
  /-- When a walk comes to the end of a block, it has executed what phis take from there. -/
  edgeUses : ∀ b, f.Reachable b → ∀ x ∈ f.instsOf b, ∀ edges, f.kind? x = some (.phi edges) →
    ∀ used a, (.value used, a) ∈ edges →
    ∀ nodes, f.flowGraph.Walk 0 nodes a.index → f.IsParam used ∨ used ∈ f.executed nodes

/-! ### Executed on all walks -/

theorem mem_executed {nodes : List Nat} :
    x ∈ f.executed nodes ↔ ∃ n ∈ nodes, x ∈ f.instsOf ⟨n⟩ := by
  simp [executed]

section

variable (T : f.Tidy) (hb : f.Reachable b)

include T hb

/-- A value is executed on all walks to a place in a block if it is listed before the place, or in a
block that dominates. -/
theorem forall_walk_iff :
    (∀ visited, f.flowGraph.Walk 0 (visited ++ [b.index]) b.index →
        f.IsParam x ∨ x ∈ f.executed visited ++ front) ↔
      f.IsParam x ∨ x ∈ front ∨ ∃ a, x ∈ f.instsOf a ∧ f.StrictlyDominates a b := by
  constructor
  · intro h
    by_cases hparam : f.IsParam x
    · exact .inl hparam
    by_cases hx : x ∈ front
    · exact .inr (.inl hx)
    have hall : ∀ visited, f.flowGraph.Walk 0 (visited ++ [b.index]) b.index →
        ∃ n ∈ visited, x ∈ f.instsOf ⟨n⟩ := by grind [mem_executed]
    -- a walk that comes to the block for the first time has executed the value in another block
    obtain ⟨nodes, walk⟩ := hb
    obtain ⟨first, -, -, hfirst, hwalk⟩ := walk.split_first walk.last_mem
    obtain ⟨n, hn, hxn⟩ := hall first hwalk
    have hne : n ≠ b.index := fun e => hfirst (e ▸ hn)
    have hdom : f.flowGraph.Dominates 0 n b.index := by
      intro nodes' walk'
      obtain ⟨visited, rfl⟩ := List.getLast?_eq_some_iff.mp walk'.getLast?_eq
      obtain ⟨m, hm, hxm⟩ := hall visited walk'
      have hblock := T.block_eq hxm hxn
      simp only [BlockId.mk.injEq] at hblock
      exact List.mem_append_left _ (hblock ▸ hm)
    refine .inr (.inr ⟨⟨n⟩, hxn, ?_, hdom.reaches ⟨nodes, walk⟩, ⟨nodes, walk⟩, hdom⟩)
    intro e
    exact hne (congrArg BlockId.index e)
  · rintro (h | h | ⟨a, hxa, hne, -, -, hdom⟩) visited walk
    · exact .inl h
    · exact .inr (List.mem_append_right _ h)
    · have hmem : a.index ∈ visited := by
        have hindex : a.index ≠ b.index := fun e => hne (BlockId.ext e)
        simpa [hindex] using hdom _ walk
      exact .inr (List.mem_append_left _ (mem_executed.mpr ⟨a.index, hmem, hxa⟩))

theorem forall_walk_iff_before {rest : List ValueId} (hsplit : f.instsOf b = front ++ y :: rest) :
    (∀ visited, f.flowGraph.Walk 0 (visited ++ [b.index]) b.index →
        f.IsParam x ∨ x ∈ f.executed visited ++ front) ↔ f.Before x y := by
  have hy : y ∈ f.instsOf b := by simp [hsplit]
  rw [forall_walk_iff T hb, Before, Precedes.of_append T hsplit]
  refine or_congr_right (or_congr_right ⟨?_, ?_⟩)
  · rintro ⟨a, ha, h⟩
    exact ⟨a, b, ha, hy, h⟩
  · grind [Tidy.block_eq]

theorem forall_walk_iff_beforeEnd :
    (∀ nodes, f.flowGraph.Walk 0 nodes b.index → f.IsParam x ∨ x ∈ f.executed nodes) ↔
      f.BeforeEnd x b := by
  rw [BeforeEnd, ← forall_walk_iff T hb]
  constructor
  · intro h visited walk
    simpa [executed] using h _ walk
  · intro h nodes walk
    obtain ⟨visited, rfl⟩ := List.getLast?_eq_some_iff.mp walk.getLast?_eq
    simpa [executed] using h visited walk

end

/-! ### Layout -/

theorem exists_kind_iff (hinst : f.inst? x = some inst) {p : InstKind → Prop} :
    (∃ kind, f.kind? x = some kind ∧ p kind) ↔ p inst.kind := by
  simp [kind?, hinst]

theorem kind?_eq_phi_iff (hinst : f.inst? x = some inst) :
    (∃ edges, f.kind? x = some (.phi edges)) ↔ inst.kind.isPhi := by
  rw [kind?, hinst]
  cases hkind : inst.kind <;> simp [InstKind.isPhi, hkind]

private theorem Shaped.exists_phis (h : f.Shaped b) :
    ∃ phis others, f.instsOf b = phis ++ others ∧
      (∀ x ∈ phis, ∃ edges, f.kind? x = some (.phi edges)) ∧
      ∀ x ∈ others, ∀ edges, f.kind? x ≠ some (.phi edges) := by
  let isPhi : ValueId → Bool := fun x => (f.kind? x).any InstKind.isPhi
  have hiff : ∀ x, isPhi x ↔ ∃ edges, f.kind? x = some (.phi edges) := by
    intro x
    cases hkind : f.kind? x with
    | none => simp [isPhi, hkind]
    | some kind => cases kind <;> simp [isPhi, hkind, InstKind.isPhi]
  have hparts := (List.takeWhile_append_dropWhile (p := isPhi) (l := f.instsOf b)).symm
  refine ⟨_, _, hparts, fun x hx => (hiff x).mp (List.mem_takeWhile_imp hx), ?_⟩
  intro x hx edges hedges
  cases hothers : (f.instsOf b).dropWhile isPhi with
  | nil => simp [hothers] at hx
  | cons first rest =>
    -- the first of the others is not a phi, so no phi comes after it
    have hfirst : ¬isPhi first := by grind [List.dropWhile_get_zero_not]
    rw [hothers] at hparts hx
    rcases List.mem_cons.mp hx with rfl | hx
    · exact hfirst ((hiff x).mpr ⟨edges, hedges⟩)
    · obtain ⟨middle, last, rfl⟩ := List.append_of_mem hx
      obtain ⟨inst, hinst, -, -, -, hphi⟩ :=
        h.insts ((f.instsOf b).takeWhile isPhi ++ first :: middle) x last (by simpa using hparts)
      have hall := hphi ((kind?_eq_phi_iff hinst).mp ⟨edges, hedges⟩)
      exact hfirst ((hiff first).mpr (hall first (by simp)))

theorem wellLaid_iff : f.WellLaid ↔ ∀ b : BlockId, b.index < f.blocks.size → f.Shaped b := by
  constructor
  · intro L b hb
    have hnodup : (f.instsOf b).Nodup := by
      exact (List.nodup_flatMap.mp L.once).1 b (mem_blockIds.mpr hb)
    refine ⟨L.ne_nil b hb, fun front x rest hsplit => ?_, L.targets b⟩
    obtain ⟨inst, hinst, hblock⟩ := L.listed b x (by simp [hsplit])
    have hterm : inst.kind.isTerminator ↔ rest = [] :=
      (exists_kind_iff hinst).symm.trans (L.terminated b front x rest hsplit)
    refine ⟨inst, hinst, hblock, ?_, ?_, fun hphi y hy => ?_⟩
    · grind
    · rw [Bool.eq_iff_iff, hterm, List.isEmpty_iff]
    · -- a phi is in the first part of its block, and so is all that comes before it
      obtain ⟨phis, others, hparts, hphis, hothers⟩ := L.phis b
      obtain ⟨edges, hedges⟩ := (kind?_eq_phi_iff hinst).mpr hphi
      rw [hsplit] at hparts
      rcases List.append_eq_append_iff.mp hparts with ⟨middle, rfl, hrest⟩ | ⟨middle, rfl, hrest⟩
      · exact hphis y (List.mem_append_left _ hy)
      · grind
  · intro h
    have hlisted : ∀ b, ∀ x ∈ f.instsOf b, ∃ inst, f.inst? x = some inst ∧ inst.block = b :=
      fun b x hx => (h b (index_lt_of_mem_instsOf hx)).listed hx
    refine ⟨fun b hb => (h b hb).ne_nil, hlisted, (tidy_of_shaped h).nodup_listing, ?_, ?_, ?_⟩
    · intro b front x rest hsplit
      have hb : b.index < f.blocks.size := index_lt_of_mem_instsOf (x := x) (by simp [hsplit])
      obtain ⟨inst, hinst, -, -, hterm, -⟩ := (h b hb).insts front x rest hsplit
      rw [exists_kind_iff hinst, hterm, List.isEmpty_iff]
    · intro b
      by_cases hb : b.index < f.blocks.size
      · exact (h b hb).exists_phis
      · have hnil : f.instsOf b = [] :=
          List.eq_nil_iff_forall_not_mem.mpr fun x hx => hb (index_lt_of_mem_instsOf hx)
        exact ⟨[], [], by simp [hnil], by simp, by simp⟩
    · intro a b hab
      exact (h a (index_lt_of_mem_successors hab)).targets b hab

/-! ### Phis -/

/-- Edges that are as many as the predecessors, all different and all from predecessors are one from
each. -/
theorem count_edges_iff {edges : List (Operand × BlockId)} :
    (∀ a, (edges.map Prod.snd).count a = if b ∈ f.successors a then 1 else 0) ↔
      edges.length = (f.predecessors b).length ∧
        (∀ operand a, (operand, a) ∈ edges → a ∈ f.predecessors b) ∧
        (edges.map Prod.snd).Nodup := by
  have hnodup : (f.predecessors b).Nodup := nodup_blockIds.filter _
  have hcount : ∀ a, (f.predecessors b).count a = if b ∈ f.successors a then 1 else 0 := by
    intro a
    simp only [hnodup.count, mem_predecessors_iff]
  simp only [← hcount, ← List.perm_iff_count]
  constructor
  · intro hperm
    refine ⟨by simpa using hperm.length_eq, fun operand a h => ?_, hperm.nodup_iff.mpr hnodup⟩
    exact hperm.subset (List.mem_map.mpr ⟨_, h, rfl⟩)
  · rintro ⟨hlength, hpreds, hedges⟩
    have hsub : edges.map Prod.snd ⊆ f.predecessors b := by grind
    exact (List.subperm_of_subset hedges hsub).perm_of_length_le (by simp [hlength])

/-! ### Verification -/

theorem SoundOnPaths.valid (S : f.SoundOnPaths) : f.Valid := by
  have hshaped := wellLaid_iff.mp S.laid
  have T := tidy_of_shaped hshaped
  refine ⟨hshaped, fun {b x kind} hx hkind => ⟨?_, ?_, ?_⟩⟩
  · rintro _ hoperand used rfl
    exact S.gives b x hx kind hkind used hoperand
  · rintro hb edges rfl
    obtain ⟨hlength, hpreds, hnodup⟩ := count_edges_iff.mp (S.edges b hb x hx edges hkind)
    refine ⟨hlength, hpreds, hnodup, fun used a hedge ha => ?_⟩
    exact (forall_walk_iff_beforeEnd T ha).mp (S.edgeUses b hb x hx edges hkind used a hedge)
  · intro hb hphi used hused
    obtain ⟨front, rest, hsplit⟩ := List.append_of_mem hx
    apply (forall_walk_iff_before T hb hsplit).mp
    exact S.uses b front x rest kind hsplit hkind hphi used hused

theorem Valid.soundOnPaths (V : f.Valid) : f.SoundOnPaths := by
  refine ⟨wellLaid_iff.mpr V.shaped, ?_, ?_, ?_, ?_⟩
  · intro b x hx kind hkind used hused
    exact (V.fits hx hkind).gives _ hused used rfl
  · intro b hb x hx edges hkind
    have P := (V.fits hx hkind).phi hb edges rfl
    exact count_edges_iff.mpr ⟨P.length, P.pred, P.nodup⟩
  · intro b front x rest kind hsplit hkind hphi used hused visited walk
    have hb : f.Reachable b := ⟨_, walk⟩
    have hbefore := (V.fits (by simp [hsplit]) hkind).before hb hphi used hused
    exact (forall_walk_iff_before V.tidy hb hsplit).mpr hbefore visited walk
  · intro b hb x hx edges hkind used a hedge nodes walk
    have hend := ((V.fits hx hkind).phi hb edges rfl).defined used a hedge ⟨nodes, walk⟩
    exact (forall_walk_iff_beforeEnd V.tidy ⟨nodes, walk⟩).mpr hend nodes walk

/-- If all blocks that are branched to exist, the control flow graph is closed. -/
theorem flowGraph_closed (h : ∀ a b, b ∈ f.successors a → b.index < f.blocks.size) :
    f.flowGraph.Closed := by
  refine ⟨fun {m n} hn => ?_, flowGraph_converse⟩
  rw [mem_succ_flowGraph] at hn
  exact ⟨index_lt_of_mem_successors hn, h _ _ hn⟩

private theorem Valid.exists_dominators (V : f.Valid) (hblocks : 0 < f.blocks.size) :
    ∃ tree, f.dominators? = some tree := by
  have C := flowGraph_closed (wellLaid_iff.mpr V.shaped).targets
  exact DominatorTree.exists_compute C hblocks

/-- A function passes verification if no walk comes to a use before the definition. A declaration
has no instruction to come to. -/
theorem verify_eq_ok_iff_soundOnPaths : f.verify = .ok () ↔ f.SoundOnPaths := by
  rcases Nat.eq_zero_or_pos f.blocks.size with hblocks | hblocks
  · have hbody : f.isDeclaration := by simpa [isDeclaration] using hblocks
    have hvalid : f.Valid := by
      refine ⟨fun b hb => absurd hb (by omega), fun {b x kind} hx => ?_⟩
      exact absurd (index_lt_of_mem_instsOf hx) (by omega)
    simp only [verify, hbody]
    exact ⟨fun _ => hvalid.soundOnPaths, fun _ => rfl⟩
  · rw [verify_eq_ok_iff hblocks]
    exact ⟨fun h => h.2.soundOnPaths, fun S => ⟨S.valid.exists_dominators hblocks, S.valid⟩⟩

end PointerGuard.Function
