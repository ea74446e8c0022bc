import PointerGuard.Function.Verify
import PointerGuard.Proofs.Dominators
import PointerGuard.Proofs.Edits
import PointerGuard.Proofs.Order

/-!
# Valid functions

What it means that a function passes verification. A value comes before an instruction if it is
defined whenever control comes there; only ways through the control flow graph are mentioned.
-/

attribute [ext] PointerGuard.BlockId

namespace PointerGuard.Function

variable {f : Function} {tree : DominatorTree} {a b c : BlockId} {x y z : ValueId}
  {front rest seen insts : List ValueId} {operand : Operand} {phisDone : Bool} {kind : InstKind}

/-! ### Ways through a function -/

/-- Control may come to a block. -/
def Reachable (f : Function) (b : BlockId) : Prop := f.flowGraph.Reaches 0 b.index

/-- Control comes to a block through another one only. -/
def StrictlyDominates (f : Function) (a b : BlockId) : Prop :=
  a ≠ b ∧ f.Reachable a ∧ f.Reachable b ∧ f.flowGraph.Dominates 0 a.index b.index

theorem mem_succ_flowGraph {m n : Nat} : n ∈ f.flowGraph.succ m ↔ ⟨n⟩ ∈ f.successors ⟨m⟩ := by
  simp only [flowGraph, List.mem_map]
  constructor
  · rintro ⟨c, hc, rfl⟩
    exact hc
  · exact fun h => ⟨_, h, rfl⟩

section

variable {g : Function} (hflow : g.flowGraph = f.flowGraph)

include hflow

theorem reachable_congr : g.Reachable b ↔ f.Reachable b := by
  rw [Reachable, Reachable, hflow]

theorem mem_successors_congr : b ∈ g.successors a ↔ b ∈ f.successors a := by
  rw [← mem_succ_flowGraph (m := a.index) (n := b.index), hflow, mem_succ_flowGraph]

theorem strictlyDominates_congr : g.StrictlyDominates a b ↔ f.StrictlyDominates a b := by
  rw [StrictlyDominates, StrictlyDominates, reachable_congr hflow, reachable_congr hflow, hflow]

end

theorem index_lt_of_mem_successors (h : b ∈ f.successors a) : a.index < f.blocks.size := by
  rw [successors] at h
  cases hterm : f.terminator? a with
  | none => simp [hterm] at h
  | some last =>
    obtain ⟨hlast, -⟩ := terminator?_eq_some_iff.mp hterm
    exact index_lt_of_mem_instsOf (List.mem_of_getLast? hlast)

theorem mem_predecessors_iff : a ∈ f.predecessors b ↔ b ∈ f.successors a := by
  simp only [predecessors, List.mem_filter, blockIds, List.mem_map, List.mem_range,
    decide_eq_true_eq, and_iff_right_iff_imp]
  exact fun h => ⟨a.index, index_lt_of_mem_successors h, rfl⟩

theorem flowGraph_converse (m n : Nat) : m ∈ f.flowGraph.pred n ↔ n ∈ f.flowGraph.succ m := by
  rw [mem_succ_flowGraph, ← mem_predecessors_iff]
  simp only [flowGraph, List.mem_map]
  constructor
  · rintro ⟨c, hc, rfl⟩
    exact hc
  · exact fun h => ⟨_, h, rfl⟩

section

variable (hblocks : 0 < f.blocks.size) (htree : f.dominators? = some tree)

include hblocks htree

theorem isReachable_iff : tree.isReachable b.index ↔ f.Reachable b :=
  DominatorTree.compute_isReachable hblocks flowGraph_converse htree b.index

theorem strictlyDominates_iff :
    tree.strictlyDominates a.index b.index ↔ f.StrictlyDominates a b := by
  have hindex : a.index ≠ b.index ↔ a ≠ b := by
    rw [not_iff_not]
    exact ⟨fun h => by cases a; cases b; simp_all, fun h => h ▸ rfl⟩
  rw [DominatorTree.strictlyDominates, Bool.and_eq_true, decide_eq_true_iff,
    DominatorTree.compute_dominates hblocks flowGraph_converse htree, hindex]
  constructor
  · rintro ⟨hne, h | h⟩
    · exact absurd h (hindex.mpr hne)
    · exact ⟨hne, h⟩
  · exact fun ⟨hne, h⟩ => ⟨hne, .inr h⟩

end

/-! ### Definitions and uses -/

def IsParam (f : Function) (x : ValueId) : Prop :=
  ∃ ty position, f.value? x = some ⟨ty, .param position⟩

/-- A value is defined whenever control comes to an instruction. -/
def Before (f : Function) (x y : ValueId) : Prop :=
  f.IsParam x ∨ f.Precedes x y ∨
    ∃ a b, x ∈ f.instsOf a ∧ y ∈ f.instsOf b ∧ f.StrictlyDominates a b

/-- A value is defined whenever control comes to the end of a block. -/
def BeforeEnd (f : Function) (x : ValueId) (b : BlockId) : Prop :=
  f.IsParam x ∨ x ∈ f.instsOf b ∨ ∃ a, x ∈ f.instsOf a ∧ f.StrictlyDominates a b

/-- Every instruction says that it belongs to the block that lists it. -/
def Homed (f : Function) : Prop :=
  ∀ b x inst, x ∈ f.instsOf b → f.inst? x = some inst → inst.block = b

/-- The first part of a list is where its elements are found first. -/
theorem idxOf?_lt_length_iff {i : Nat} (h : (front ++ rest).idxOf? x = some i) :
    i < front.length ↔ x ∈ front := by
  obtain ⟨hlt, hget, hfirst⟩ := List.idxOf?_eq_some_iff.mp h
  constructor
  · grind
  · intro hx
    obtain ⟨j, hj, hget'⟩ := List.mem_iff_getElem.mp hx
    by_contra hi
    refine hfirst j (by omega) ?_
    rw [List.getElem_append_left hj, hget']

section

variable (T : f.Tidy) (H : f.Homed) (hblocks : 0 < f.blocks.size)
  (htree : f.dominators? = some tree)

include T H hblocks htree

theorem definedAt_iff (hsplit : f.instsOf b = front ++ rest) :
    f.definedAt tree x b front.length ↔
      f.IsParam x ∨ x ∈ front ∨ ∃ a, x ∈ f.instsOf a ∧ f.StrictlyDominates a b := by
  have hfront : x ∈ front → x ∈ f.instsOf b := fun h => hsplit ▸ List.mem_append_left _ h
  rw [definedAt]
  cases hvalue : f.value? x with
  | none =>
    have hno : ∀ c, x ∉ f.instsOf c := fun c hx => by grind [Tidy.listed, inst?_eq_some_iff]
    have hout : x ∉ front := fun h => hno b (hfront h)
    simp [IsParam, hvalue, hno, hout]
  | some info =>
    obtain ⟨ty, origin⟩ := info
    cases origin with
    | param position => simp [IsParam, hvalue]
    | inst inst =>
      have hinst : f.inst? x = some inst := inst?_eq_some_iff.mpr ⟨ty, hvalue⟩
      have hparam : ¬f.IsParam x := by simp [IsParam, hvalue]
      simp only [placement?, hinst, hparam, false_or, Option.bind_eq_bind, Option.bind_some]
      cases hidx : (f.instsOf inst.block).idxOf? x with
      -- listed in its own block or nowhere
      | none =>
        have hno : ∀ c, x ∉ f.instsOf c := fun c hx => by
          rw [← H _ _ _ hx hinst] at hx
          exact List.idxOf?_eq_none_iff.mp hidx hx
        have hout : x ∉ front := fun h => hno b (hfront h)
        simp [hno, hout]
      | some i =>
        have hmem : x ∈ f.instsOf inst.block := by grind [List.idxOf?_eq_none_iff]
        simp only [Option.bind_some, Option.pure_def]
        split
        · -- in the same block the position decides
          rename_i hblock
          rw [hblock, hsplit] at hidx
          rw [decide_eq_true_iff, idxOf?_lt_length_iff hidx, or_iff_left]
          rintro ⟨c, hc, hne, -⟩
          exact hne (by rw [← H _ _ _ hc hinst, hblock])
        · -- in another block dominance does
          rename_i hblock
          have hout : x ∉ front := fun h => hblock (H _ _ _ (hfront h) hinst)
          rw [strictlyDominates_iff hblocks htree]
          simp only [hout, false_or]
          refine ⟨fun h => ⟨_, hmem, h⟩, ?_⟩
          rintro ⟨c, hc, h⟩
          rwa [H _ _ _ hc hinst]

theorem definedAt_end_iff : f.definedAt tree x b (f.instsOf b).length ↔ f.BeforeEnd x b :=
  definedAt_iff T H hblocks htree (List.append_nil _).symm

theorem definedAt_before_iff (hsplit : f.instsOf b = front ++ y :: rest) :
    f.definedAt tree x b front.length ↔ f.Before x y := by
  have hy : y ∈ f.instsOf b := by simp [hsplit]
  rw [definedAt_iff T H hblocks htree hsplit, Before, Precedes.of_append T hsplit]
  refine or_congr_right (or_congr_right ⟨fun ⟨a, ha, h⟩ => ⟨a, b, ha, hy, h⟩, ?_⟩)
  rintro ⟨a, c, ha, hc, h⟩
  rw [T.block_eq hc hy] at h
  exact ⟨a, ha, h⟩

end

/-! ### Order of definitions -/

theorem Precedes.trans (T : f.Tidy) (hxy : f.Precedes x y) (hyz : f.Precedes y z) :
    f.Precedes x z := by
  obtain ⟨b, hy, hz⟩ := hyz.mem_both
  obtain ⟨front, rest, hsplit⟩ := List.append_of_mem hz
  have hyfront := (of_append T hsplit).mp hyz
  obtain ⟨front', rest', rfl⟩ := List.append_of_mem hyfront
  have hsplit' : f.instsOf b = front' ++ y :: (rest' ++ z :: rest) := by
    rw [hsplit, List.append_assoc, List.cons_append]
  have hx := (of_append T hsplit').mp hxy
  exact (of_append T hsplit).mpr (List.mem_append_left _ hx)

theorem StrictlyDominates.trans (hab : f.StrictlyDominates a b) (hbc : f.StrictlyDominates b c) :
    f.StrictlyDominates a c := by
  obtain ⟨hne, ha, -, hab⟩ := hab
  obtain ⟨-, hb, hc, hbc⟩ := hbc
  refine ⟨fun e => hne ?_, ha, hc, hab.trans hbc⟩
  subst e
  have := hab.antisymm hbc hb
  cases a
  simp_all

theorem StrictlyDominates.asymm (hab : f.StrictlyDominates a b) : ¬f.StrictlyDominates b a :=
  fun hba => (hab.trans hba).1 rfl

theorem IsParam.not_mem (T : f.Tidy) (h : f.IsParam x) : x ∉ f.instsOf b := by
  intro hx
  obtain ⟨inst, hinst⟩ := T.listed hx
  obtain ⟨ty, hvalue⟩ := inst?_eq_some_iff.mp hinst
  obtain ⟨ty', position, hvalue'⟩ := h
  simp [hvalue] at hvalue'

/-- What is defined before an instruction in a reachable block is a parameter, or listed in a block
that can be reached. -/
theorem Before.cases (h : f.Before x y) (hy : y ∈ f.instsOf b) (hb : f.Reachable b) (T : f.Tidy) :
    f.IsParam x ∨ ∃ a, x ∈ f.instsOf a ∧ f.Reachable a := by
  rcases h with h | h | ⟨a, c, ha, -, hdom⟩
  · exact .inl h
  · grind [Precedes.mem_both, Tidy.block_eq]
  · exact .inr ⟨a, ha, hdom.2.1⟩

theorem Before.trans (T : f.Tidy) (hxy : f.Before x y) (hyz : f.Before y z) (hy : y ∈ f.instsOf b) :
    f.Before x z := by
  rcases hxy with h | hxy | ⟨a, b', ha, hb', hab⟩
  · exact .inl h
  · rcases hyz with h | hyz | ⟨b', c, hb', hc, hbc⟩
    · exact absurd hy (h.not_mem T)
    · exact .inr (.inl (hxy.trans T hyz))
    · obtain ⟨d, hx, hy'⟩ := hxy.mem_both
      obtain rfl := T.block_eq hb' hy'
      exact .inr (.inr ⟨b', c, hx, hc, hbc⟩)
  · rcases hyz with h | hyz | ⟨b'', c, hb'', hc, hbc⟩
    · exact absurd hy (h.not_mem T)
    · obtain ⟨d, hy', hz⟩ := hyz.mem_both
      obtain rfl := T.block_eq hb' hy'
      exact .inr (.inr ⟨a, b', ha, hz, hab⟩)
    · obtain rfl := T.block_eq hb' hb''
      exact .inr (.inr ⟨a, c, ha, hc, hab.trans hbc⟩)

/-- What is defined before an instruction does not follow it in its block. -/
theorem Before.not_mem_rest (T : f.Tidy) (hsplit : f.instsOf b = front ++ y :: rest)
    (h : f.Before x y) : x ∉ rest := by
  have hy : y ∈ f.instsOf b := by simp [hsplit]
  intro hx
  have hxb : x ∈ f.instsOf b := by simp [hsplit, hx]
  rcases h with h | h | ⟨a, c, ha, hc, hne, -⟩
  · exact h.not_mem T hxb
  · have hcut : f.instsOf b = (front ++ [y]) ++ rest := by simp [hsplit]
    exact Precedes.not_of_mem_append T hcut hx (by simp) h
  · exact hne ((T.block_eq ha hxb).trans (T.block_eq hy hc))

/-- What is defined before an instruction is not listed in a block that the block of the instruction
strictly dominates. -/
theorem Before.not_mem_dominated (T : f.Tidy) (hy : y ∈ f.instsOf a) (hab : f.StrictlyDominates a b)
    (h : f.Before x y) : x ∉ f.instsOf b := by
  intro hx
  rcases h with h | h | ⟨c, d, hc, hd, hcd⟩
  · exact h.not_mem T hx
  · obtain ⟨c, hx', hy'⟩ := h.mem_both
    exact hab.1 ((T.block_eq hy hy').trans (T.block_eq hx' hx))
  · grind [Tidy.block_eq, StrictlyDominates.asymm]

/-! ### Shape of blocks -/

theorem exists_phi_of_isPhi {inst : Instruction} (hinst : f.inst? x = some inst)
    (h : inst.kind.isPhi) : ∃ edges, f.kind? x = some (.phi edges) := by
  rw [kind?, hinst, Option.map_some]
  cases hkind : inst.kind with
  | phi edges => exact ⟨edges, rfl⟩
  | _ => simp [hkind, InstKind.isPhi] at h

private theorem checkInsts_cons_eq_ok_iff :
    f.checkInsts b seen phisDone (x :: rest) = .ok () ↔
      ∃ inst, f.inst? x = some inst ∧ inst.block = b ∧ x ∉ seen ∧
        inst.kind.isTerminator = rest.isEmpty ∧ (inst.kind.isPhi → phisDone = false) ∧
        f.checkInsts b (x :: seen) (phisDone || !inst.kind.isPhi) rest = .ok () := by
  rw [checkInsts]
  cases hinst : f.inst? x with
  | none => simp
  | some inst => grind

/-- A block passes if each of its instructions does where it stands. -/
theorem checkInsts_eq_ok_iff :
    f.checkInsts b seen phisDone insts = .ok () ↔
      ∀ front x rest, insts = front ++ x :: rest → ∃ inst, f.inst? x = some inst ∧
        inst.block = b ∧ x ∉ seen ∧ x ∉ front ∧ inst.kind.isTerminator = rest.isEmpty ∧
        (inst.kind.isPhi → phisDone = false ∧
          ∀ y ∈ front, ∃ edges, f.kind? y = some (.phi edges)) := by
  induction insts generalizing seen phisDone with
  | nil => simp [checkInsts]
  | cons id insts ih =>
    rw [checkInsts_cons_eq_ok_iff]
    constructor
    · rintro ⟨inst, hinst, hblock, hseen, hterm, hphi, hrest⟩ front x rest hsplit
      -- what stands before `x` is checked first, and has been seen when it comes to `x`
      cases front with
      | nil => grind
      | cons z front =>
        obtain ⟨rfl, rfl⟩ : id = z ∧ insts = front ++ x :: rest := by simpa using hsplit
        obtain ⟨inst', hinst', hblock', hseen', hfront, hterm', hphi'⟩ :=
          ih.mp hrest front x rest rfl
        rw [List.mem_cons, not_or] at hseen'
        refine ⟨inst', hinst', hblock', hseen'.2, by simp [hseen'.1, hfront], hterm', fun h => ?_⟩
        obtain ⟨hdone, hall⟩ := hphi' h
        rw [Bool.or_eq_false_iff, Bool.not_eq_false'] at hdone
        refine ⟨hdone.1, List.forall_mem_cons.mpr ⟨?_, hall⟩⟩
        exact exists_phi_of_isPhi hinst hdone.2
    · intro h
      obtain ⟨inst, hinst, hblock, hseen, -, hterm, hphi⟩ := h [] id insts rfl
      refine ⟨inst, hinst, hblock, hseen, hterm, fun h => (hphi h).1, ih.mpr ?_⟩
      intro front x rest hsplit
      obtain ⟨inst', hinst', hblock', hseen', hfront, hterm', hphi'⟩ :=
        h (id :: front) x rest (by simp [hsplit])
      rw [List.mem_cons, not_or] at hfront
      refine ⟨inst', hinst', hblock', by simp [hfront.1, hseen'], hfront.2, hterm', fun hx => ?_⟩
      obtain ⟨hdone, hall⟩ := hphi' hx
      obtain ⟨⟨edges, hedges⟩, hall⟩ := List.forall_mem_cons.mp hall
      refine ⟨?_, hall⟩
      rw [kind?, hinst, Option.map_some, Option.some.injEq] at hedges
      rw [hdone, hedges]
      rfl

/-- The shape a block has to have: it ends in its only terminator, its phis come first, its
instructions say they belong to it, and the blocks it leads to exist. -/
structure Shaped (f : Function) (b : BlockId) : Prop where
  ne_nil : f.instsOf b ≠ []
  insts : ∀ front x rest, f.instsOf b = front ++ x :: rest → ∃ inst, f.inst? x = some inst ∧
    inst.block = b ∧ x ∉ front ∧ inst.kind.isTerminator = rest.isEmpty ∧
    (inst.kind.isPhi → ∀ y ∈ front, ∃ edges, f.kind? y = some (.phi edges))
  targets : ∀ c ∈ f.successors b, c.index < f.blocks.size

theorem Shaped.listed (h : f.Shaped b) (hx : x ∈ f.instsOf b) :
    ∃ inst, f.inst? x = some inst ∧ inst.block = b := by
  obtain ⟨front, rest, hsplit⟩ := List.append_of_mem hx
  obtain ⟨inst, hinst, hblock, -⟩ := h.insts front x rest hsplit
  exact ⟨inst, hinst, hblock⟩

private theorem checkTargets_eq_ok_iff :
    f.checkTargets b = .ok () ↔ ∀ c ∈ f.successors b, c.index < f.blocks.size := by
  rw [checkTargets, Outcome.forM_eq_ok]
  simp [block?]

private theorem checkBlock_eq_ok_iff :
    f.checkBlock seen b = .ok () ↔ f.Shaped b ∧ ∀ x ∈ f.instsOf b, x ∉ seen := by
  have hcheck : f.checkBlock seen b = .ok () ↔ f.instsOf b ≠ [] ∧
      f.checkInsts b seen false (f.instsOf b) = .ok () ∧ f.checkTargets b = .ok () := by
    simp only [checkBlock]
    by_cases hnil : f.instsOf b = []
    · simp [hnil, Outcome.bind_eq_ok]
    · grind [Outcome.bind_eq_ok]
  rw [hcheck, checkInsts_eq_ok_iff, checkTargets_eq_ok_iff]
  constructor
  · rintro ⟨hnil, hinsts, htargets⟩
    refine ⟨⟨hnil, fun front x rest hsplit => ?_, htargets⟩, fun x hx => ?_⟩
    · grind
    · obtain ⟨front, rest, hsplit⟩ := List.append_of_mem hx
      obtain ⟨_, -, -, hseen, -⟩ := hinsts front x rest hsplit
      exact hseen
  · rintro ⟨⟨hnil, hinsts, htargets⟩, hseen⟩
    refine ⟨hnil, fun front x rest hsplit => ?_, htargets⟩
    obtain ⟨inst, hinst, hblock, hfront, hterm, hphi⟩ := hinsts front x rest hsplit
    exact ⟨inst, hinst, hblock, hseen x (by simp [hsplit]), hfront, hterm, fun h => ⟨rfl, hphi h⟩⟩

private theorem checkBlocks_eq_ok_iff {blocks : List BlockId} (hnodup : blocks.Nodup) :
    f.checkBlocks seen blocks = .ok () ↔
      ∀ b ∈ blocks, f.Shaped b ∧ ∀ x ∈ f.instsOf b, x ∉ seen := by
  induction blocks generalizing seen with
  | nil => simp [checkBlocks]
  | cons b blocks ih =>
    obtain ⟨hb, hnodup⟩ := List.nodup_cons.mp hnodup
    have hcheck : f.checkBlocks seen (b :: blocks) = .ok () ↔ f.checkBlock seen b = .ok () ∧
        f.checkBlocks (f.instsOf b ++ seen) blocks = .ok () := by
      rw [checkBlocks, Outcome.bind_eq_ok]
      exact ⟨fun ⟨_, h⟩ => h, fun h => ⟨_, h⟩⟩
    rw [hcheck, checkBlock_eq_ok_iff, ih hnodup, List.forall_mem_cons]
    refine and_congr_right fun hshaped => forall₂_congr fun c hc => and_congr_right
      fun hshaped' => ?_
    refine forall₂_congr fun x hx => ?_
    -- instructions of different blocks are different, because they name their blocks
    have hother : x ∉ f.instsOf b := fun hxb => by grind [Shaped.listed]
    simp [hother]

theorem checkShape_eq_ok_iff :
    f.checkShape = .ok () ↔ ∀ b : BlockId, b.index < f.blocks.size → f.Shaped b := by
  have hnodup : f.blockIds.Nodup :=
    List.nodup_range.map fun m n h => by simpa using h
  rw [checkShape, checkBlocks_eq_ok_iff hnodup]
  constructor
  · exact fun h b hb => (h b (List.mem_map.mpr ⟨b.index, List.mem_range.mpr hb, rfl⟩)).1
  · intro h b hb
    obtain ⟨n, hn, rfl⟩ := List.mem_map.mp hb
    exact ⟨h _ (List.mem_range.mp hn), by simp⟩

section

variable (h : ∀ b : BlockId, b.index < f.blocks.size → f.Shaped b)

include h

theorem homed_of_shaped : f.Homed := by
  intro b x inst hx hinst
  obtain ⟨inst', hinst', hblock⟩ := (h b (index_lt_of_mem_instsOf hx)).listed hx
  rw [Option.some.inj (hinst.symm.trans hinst'), hblock]

theorem tidy_of_shaped : f.Tidy := by
  have hlisted : ∀ {b x}, x ∈ f.instsOf b → ∃ inst, f.inst? x = some inst ∧ inst.block = b :=
    fun hx => (h _ (index_lt_of_mem_instsOf hx)).listed hx
  refine ⟨fun hx => (hlisted hx).imp fun _ h => h.1, fun b => ?_, fun {b c x} hb hc => ?_⟩
  case refine_2 => grind
  rw [List.nodup_iff_sublist]
  intro x hdup
  have hx : x ∈ f.instsOf b := hdup.subset (.head _)
  -- cut the block where the value is listed for the second time
  obtain ⟨front, rest, hsplit, hfront, hrest⟩ := List.cons_sublist_iff.mp hdup
  obtain ⟨middle, last, rfl⟩ := List.append_of_mem (List.singleton_sublist.mp hrest)
  obtain ⟨_, -, -, hnot, -⟩ := (h b (index_lt_of_mem_instsOf hx)).insts (front ++ middle) x last
    (by rw [hsplit, List.append_assoc])
  exact hnot (List.mem_append_left _ hfront)

end

/-! ### Uses -/

/-- An operand has a value to give. -/
def Gives (f : Function) (operand : Operand) : Prop :=
  ∀ used, operand = .value used → ∃ ty, f.valueType? used = some ty ∧ ty.isVoid = false

/-- The edges of a phi fit its block: one from each predecessor, with an operand that is defined at
the end of it. -/
structure PhiFits (f : Function) (b : BlockId) (edges : List (Operand × BlockId)) : Prop where
  length : edges.length = (f.predecessors b).length
  pred : ∀ operand a, (operand, a) ∈ edges → a ∈ f.predecessors b
  nodup : (edges.map Prod.snd).Nodup
  defined : ∀ used a, (.value used, a) ∈ edges → f.Reachable a → f.BeforeEnd used a

/-- What an instruction uses is fine: its operands have values to give and, unless its block cannot
be reached, the edges of a phi fit and other operands are defined before it. -/
structure UsesFit (f : Function) (b : BlockId) (x : ValueId) (kind : InstKind) : Prop where
  gives : ∀ operand ∈ kind.operands, f.Gives operand
  phi : f.Reachable b → ∀ edges, kind = .phi edges → f.PhiFits b edges
  before : f.Reachable b → kind.isPhi = false → ∀ used, .value used ∈ kind.operands →
    f.Before used x

theorem checkOperand_eq_ok_iff : f.checkOperand x operand = .ok () ↔ f.Gives operand := by
  cases operand with
  | const c => simp [checkOperand, Gives]
  | value used =>
    simp only [checkOperand, Gives, Operand.value.injEq, forall_eq', valueType?]
    cases f.value? used <;> simp

section

variable (T : f.Tidy) (H : f.Homed) (hblocks : 0 < f.blocks.size)
  (htree : f.dominators? = some tree)

include T H hblocks htree

private theorem checkEdge_eq_ok_iff {preds : List BlockId} :
    f.checkEdge tree x preds (operand, a) = .ok () ↔
      a ∈ preds ∧ ∀ used, operand = .value used → f.Reachable a → f.BeforeEnd used a := by
  cases operand with
  | const c => simp [checkEdge]
  | value used =>
    simp only [checkEdge, ← isReachable_iff hblocks htree, ← definedAt_end_iff T H hblocks htree]
    simp [Outcome.ite_eq_ok]

theorem checkPhi_eq_ok_iff {edges : List (Operand × BlockId)} :
    f.checkPhi tree x b edges = .ok () ↔ f.PhiFits b edges := by
  have hcheck : f.checkPhi tree x b edges = .ok () ↔
      edges.length = (f.predecessors b).length ∧
        (∀ edge ∈ edges, f.checkEdge tree x (f.predecessors b) edge = .ok ()) ∧
        (edges.map Prod.snd).Nodup := by
    rw [← Outcome.forM_eq_ok (u := ⟨⟩)]
    by_cases hlength : edges.length = (f.predecessors b).length
    · by_cases hnodup : (edges.map Prod.snd).Nodup
      · simp only [checkPhi, hlength, hnodup, if_true, Outcome.bind_eq_ok,
          Outcome.pure_eq_ok, true_and]
        exact ⟨fun ⟨_, h⟩ => h, fun h => ⟨_, h⟩⟩
      · simp [checkPhi, hlength, hnodup, Outcome.bind_eq_ok]
    · simp [checkPhi, hlength, Outcome.bind_eq_ok]
  rw [hcheck]
  constructor
  · rintro ⟨hlength, hedges, hnodup⟩
    refine ⟨hlength, fun operand a h => ?_, hnodup, fun used a h => ?_⟩
    · exact ((checkEdge_eq_ok_iff T H hblocks htree).mp (hedges _ h)).1
    · exact ((checkEdge_eq_ok_iff T H hblocks htree).mp (hedges _ h)).2 used rfl
  · rintro ⟨hlength, hpred, hnodup, hdefined⟩
    refine ⟨hlength, fun (operand, a) h => ?_, hnodup⟩
    rw [checkEdge_eq_ok_iff T H hblocks htree]
    exact ⟨hpred _ _ h, fun used e => hdefined used a (e ▸ h)⟩

theorem checkUses_eq_ok_iff_before (hsplit : f.instsOf b = front ++ x :: rest)
    (operands : List Operand) :
    operands.forM (f.checkUse tree x b front.length) = .ok () ↔
      ∀ used, .value used ∈ operands → f.Before used x := by
  rw [Outcome.forM_eq_ok]
  have huse : ∀ operand, f.checkUse tree x b front.length operand = .ok () ↔
      ∀ used, operand = .value used → f.Before used x := by
    intro operand
    cases operand with
    | const c => simp [checkUse]
    | value used =>
      simp only [checkUse,
        ← definedAt_before_iff T H hblocks htree hsplit]
      simp
  simp only [huse]
  exact ⟨fun h used hused => h _ hused used rfl, fun h _ hmem used e => h used (e ▸ hmem)⟩

omit T H hblocks htree in
private theorem usesFit_iff :
    f.UsesFit b x kind ↔ (∀ operand ∈ kind.operands, f.Gives operand) ∧
      (f.Reachable b → (∀ edges, kind = .phi edges → f.PhiFits b edges) ∧
        (kind.isPhi = false → ∀ used, .value used ∈ kind.operands → f.Before used x)) :=
  ⟨fun h => ⟨h.gives, fun hreach => ⟨h.phi hreach, h.before hreach⟩⟩,
    fun h => ⟨h.1, fun hreach => (h.2 hreach).1, fun hreach => (h.2 hreach).2⟩⟩

theorem checkInst_eq_ok_iff (hsplit : f.instsOf b = front ++ x :: rest)
    (hkind : f.kind? x = some kind) :
    f.checkInst tree b x front.length = .ok () ↔ f.UsesFit b x kind := by
  have hoperands : ∀ u, kind.operands.forM (f.checkOperand x) = .ok u ↔
      ∀ operand ∈ kind.operands, f.Gives operand := by
    intro u
    rw [Outcome.forM_eq_ok]
    exact forall₂_congr fun operand _ => checkOperand_eq_ok_iff
  have huses := checkUses_eq_ok_iff_before T H hblocks htree hsplit kind.operands
  simp only [checkInst, hkind, Outcome.bind_eq_ok, hoperands, Outcome.ite_eq_ok,
    isReachable_iff hblocks htree, Outcome.pure_eq_ok, exists_const, usesFit_iff]
  refine and_congr_right fun _ => ?_
  by_cases hreach : f.Reachable b
  · simp only [hreach]
    -- phis and the other kinds are checked in different ways
    cases kind with
    | phi edges => simp [checkPhi_eq_ok_iff T H hblocks htree, InstKind.isPhi]
    | _ => simpa [InstKind.isPhi] using huses
  · simp [hreach]

end

/-! ### Verification -/

/-- A function is valid if all its blocks have the right shape and what their instructions use is
fine. -/
structure Valid (f : Function) : Prop where
  shaped : ∀ b : BlockId, b.index < f.blocks.size → f.Shaped b
  fits : ∀ {b x kind}, x ∈ f.instsOf b → f.kind? x = some kind → f.UsesFit b x kind

theorem Valid.tidy (V : f.Valid) : f.Tidy := tidy_of_shaped V.shaped

theorem Valid.homed (V : f.Valid) : f.Homed := homed_of_shaped V.shaped

private theorem checkUses_eq_ok_iff (T : f.Tidy) (H : f.Homed) (hblocks : 0 < f.blocks.size)
    (htree : f.dominators? = some tree) :
    f.checkUses tree = .ok () ↔
      ∀ {b x kind}, x ∈ f.instsOf b → f.kind? x = some kind → f.UsesFit b x kind := by
  simp only [checkUses, Outcome.forM_eq_ok]
  constructor
  · intro h b x kind hx hkind
    obtain ⟨front, rest, hsplit⟩ := List.append_of_mem hx
    rw [← checkInst_eq_ok_iff T H hblocks htree hsplit hkind]
    refine h b ?_ (x, front.length) ?_
    · exact List.mem_map.mpr ⟨b.index, List.mem_range.mpr (index_lt_of_mem_instsOf hx), rfl⟩
    · rw [List.mem_zipIdx_iff_getElem?, hsplit]
      simp
  · rintro h b - ⟨x, i⟩ hx
    obtain ⟨hlt, hget⟩ : ∃ hlt : i < (f.instsOf b).length, (f.instsOf b)[i] = x :=
      List.getElem?_eq_some_iff.mp (List.mem_zipIdx_iff_getElem?.mp hx)
    have hmem : x ∈ f.instsOf b := List.mem_of_getElem hget
    obtain ⟨inst, hinst⟩ := T.listed hmem
    have hkind : f.kind? x = some inst.kind := by rw [kind?, hinst, Option.map_some]
    -- the position cuts the block where the instruction stands
    have hsplit : f.instsOf b = (f.instsOf b).take i ++ x :: (f.instsOf b).drop (i + 1) := by
      rw [← hget, List.cons_getElem_drop_succ, List.take_append_drop]
    have hcheck := (checkInst_eq_ok_iff T H hblocks htree hsplit hkind).mpr (h hmem hkind)
    rwa [List.length_take_of_le hlt.le] at hcheck

/-- The functions with a body that pass verification are the valid ones. -/
theorem verify_eq_ok_iff (hblocks : 0 < f.blocks.size) :
    f.verify = .ok () ↔ (∃ tree, f.dominators? = some tree) ∧ f.Valid := by
  have hbody : f.isDeclaration = false := by
    simpa [isDeclaration] using Array.ne_empty_of_size_pos hblocks
  simp only [verify, hbody, Bool.false_eq_true, if_false, Outcome.bind_eq_ok]
  cases htree : f.dominators? with
  | none => simp
  | some tree =>
    simp only [Outcome.mapError_eq_ok, Option.some.injEq, exists_eq', true_and]
    constructor
    · rintro ⟨_, hshape, huses⟩
      have hshaped := checkShape_eq_ok_iff.mp hshape
      exact ⟨hshaped,
        (checkUses_eq_ok_iff (tidy_of_shaped hshaped) (homed_of_shaped hshaped) hblocks
        htree).mp huses⟩
    · intro V
      refine ⟨⟨⟩, checkShape_eq_ok_iff.mpr V.shaped, ?_⟩
      exact (checkUses_eq_ok_iff V.tidy V.homed hblocks htree).mpr V.fits

theorem valid_of_verify (h : f.verify = .ok ()) : f.Valid := by
  rcases Nat.eq_zero_or_pos f.blocks.size with hnone | hblocks
  · -- a function without a body has nothing in it that could be wrong
    refine ⟨fun b hb => by omega, fun hx _ => ?_⟩
    have := index_lt_of_mem_instsOf hx
    omega
  · exact ((verify_eq_ok_iff hblocks).mp h).2

end PointerGuard.Function
