import PointerGuard.Proofs.PathValidity
import PointerGuard.Proofs.ValidGrowth

/-!
# Executions

An execution follows edges of the control flow graph from the first block, and each visit to a block
gives its instructions new values. Phis take their values all at once; an interpretation says what
other instructions give. Paths are lists of blocks with the latest first, so that what is known at
the end of a path is defined by recursion.
-/

namespace PointerGuard

variable {front rest : List ValueId} {x y : ValueId} {edges : List (Operand × BlockId)}
  {a : BlockId}

/-! ### Giving values in turn -/

section Assign

variable {α : Type} {give : (ValueId → α) → ValueId → α} {start : ValueId → α}
  {insts : List ValueId}

/-- Some values are given anew, one after another; each may depend on what is known by then. -/
def assign (give : (ValueId → α) → ValueId → α) (start : ValueId → α) (insts : List ValueId) :
    ValueId → α :=
  insts.foldl (fun now x y => if y = x then give now x else now y) start

theorem assign_append :
    assign give start (front ++ rest) = assign give (assign give start front) rest :=
  List.foldl_append

theorem assign_of_not_mem (h : y ∉ insts) : assign give start insts y = start y := by
  induction insts generalizing start with
  | nil => rfl
  | cons x rest ih =>
    rw [List.mem_cons, not_or] at h
    exact (ih h.2).trans (if_neg h.1)

theorem assign_of_split (hsplit : insts = front ++ x :: rest) (h : x ∉ rest) :
    assign give start insts x = give (assign give start front) x := by
  rw [hsplit, assign_append]
  exact (assign_of_not_mem h).trans (if_pos rfl)

end Assign

/-! ### Values along a path -/

/-- What the text of a function leaves open: what constants and arguments are, which values count as
true, and what an instruction gives on a visit, by the number of blocks visited before. -/
structure Interpretation (Val : Type) where
  const : Constant → Val
  arg : ValueId → Val
  truth : Val → Bool
  result : Nat → ValueId → Val

/-- What an operand is when values are known. -/
def Interpretation.eval {Val : Type} (I : Interpretation Val) (known : ValueId → Val) :
    Operand → Val
  | .const c => I.const c
  | .value v => known v

/-- What a phi takes after a path: the operand on the edge from its last block. -/
def taken? (edges : List (Operand × BlockId)) (past : List BlockId) : Option Operand :=
  past.head?.bind fun a => (edges.find? (·.2 = a)).map Prod.fst

theorem taken?_eq_some (h : a ∈ edges.map Prod.snd) (past : List BlockId) :
    ∃ operand, taken? edges (a :: past) = some operand ∧ (operand, a) ∈ edges := by
  obtain ⟨edge, hmem, rfl⟩ := List.mem_map.mp h
  obtain ⟨⟨operand, source⟩, hfound⟩ : ∃ found, edges.find? (·.2 = edge.2) = some found := by
    rw [← Option.isSome_iff_exists, List.find?_isSome]
    exact ⟨edge, hmem, by simp⟩
  obtain rfl : source = edge.2 := by simpa using List.find?_some hfound
  refine ⟨operand, ?_, List.mem_of_find?_eq_some hfound⟩
  rw [taken?, List.head?_cons, Option.bind_some, hfound]
  rfl

namespace Function

variable {Val α : Type} {give : (ValueId → α) → ValueId → α} {start : ValueId → α}

/-- The blocks that control has come through from the first block on, the latest first. -/
inductive Path (g : Function) : List BlockId → Prop
  | enter : Path g [⟨0⟩]
  | step {a b : BlockId} {past : List BlockId} :
      Path g (a :: past) → b ∈ g.successors a → Path g (b :: a :: past)

/-- What an instruction gives after a path. Phis look at the values at the end of the path, and a
choice looks at those of the moment. -/
def outcome (g : Function) (I : Interpretation Val) (past : List BlockId)
    (old now : ValueId → Val) (x : ValueId) : Val :=
  match g.kind? x with
  | some (.phi edges) =>
    match taken? edges past with
    | some operand => I.eval old operand
    | none => I.result past.length x
  | some (.select cond ifTrue ifFalse) =>
    I.eval now (if I.truth (I.eval now cond) then ifTrue else ifFalse)
  | _ => I.result past.length x

def valuesAfter (g : Function) (I : Interpretation Val) : List BlockId → ValueId → Val
  | [] => I.arg
  | b :: past =>
    assign (g.outcome I past (g.valuesAfter I past)) (g.valuesAfter I past) (g.instsOf b)

/-- The values right before an instruction of the block that is visited after a path. -/
def valuesBefore (g : Function) (I : Interpretation Val) (b : BlockId) (past : List BlockId)
    (x : ValueId) : ValueId → Val :=
  assign (g.outcome I past (g.valuesAfter I past)) (g.valuesAfter I past)
    ((g.instsOf b).takeWhile (· ≠ x))

variable {g : Function} {I : Interpretation Val} {b : BlockId} {past path : List BlockId}

theorem Path.reachable (path : g.Path (b :: past)) : g.Reachable b := by
  generalize hblocks : b :: past = blocks at path
  induction path generalizing b past with
  | enter =>
    cases hblocks
    exact .refl _ _
  | step _ edge ih =>
    cases hblocks
    exact (ih rfl).step (mem_succ_flowGraph.mpr edge)

/-- If control does not leave the first block, it stays there. -/
theorem Path.eq_of_successors_eq_nil (h : g.Path path) (hnone : g.successors ⟨0⟩ = []) :
    path = [⟨0⟩] := by
  induction h with
  | enter => rfl
  | step _ edge ih =>
    cases ih
    rw [hnone] at edge
    cases edge

/-- A path that is not at its start has come from a predecessor. -/
theorem Path.cases (path : g.Path (b :: past)) :
    b = ⟨0⟩ ∧ past = [] ∨ ∃ a before, past = a :: before ∧ g.Path (a :: before) ∧
      b ∈ g.successors a := by
  cases path with
  | enter => exact .inl ⟨rfl, rfl⟩
  | step path edge => exact .inr ⟨_, _, rfl, path, edge⟩

/-- In a valid function a phi takes an operand on every way to its block. -/
theorem Valid.exists_taken (V : g.Valid) (ha : g.Reachable a) (edge : b ∈ g.successors a)
    (hx : x ∈ g.instsOf b) (hkind : g.kind? x = some (.phi edges)) (past : List BlockId) :
    ∃ operand, taken? edges (a :: past) = some operand ∧
      ∀ v, operand = .value v → g.BeforeEnd v a := by
  have fits := (V.fits hx hkind).phi (ha.step (mem_succ_flowGraph.mpr edge)) edges rfl
  have hcount := count_edges_iff.mpr ⟨fits.length, fits.pred, fits.nodup⟩ a
  rw [if_pos edge] at hcount
  have hmem : a ∈ edges.map Prod.snd := List.count_pos_iff.mp (by omega)
  obtain ⟨operand, htaken, hmem⟩ := taken?_eq_some hmem past
  exact ⟨operand, htaken, fun v e => fits.defined v a (e ▸ hmem) ha⟩

/-- What is defined behind the first part of a block is not given in the rest of it. -/
theorem DefinedBehind.not_mem (T : g.Tidy) (hsplit : g.instsOf b = front ++ rest)
    (h : g.DefinedBehind y b front) : y ∉ rest := by
  intro hy
  have hyb : y ∈ g.instsOf b := by rw [hsplit]; exact List.mem_append_right _ hy
  rcases h with hparam | hfront | ⟨a, ha, hdom⟩
  · exact hparam.not_mem T hyb
  · grind [Tidy.nodup, List.nodup_append]
  · exact hdom.1 (T.block_eq ha hyb)

/-- Whatever is given in turn within a block: what is defined before an instruction is the same when
the turn comes to the instruction and at the end of the block. -/
theorem Before.assign_eq (T : g.Tidy) (hx : x ∈ g.instsOf b) (h : g.Before y x) :
    assign give start ((g.instsOf b).takeWhile (· ≠ x)) y = assign give start (g.instsOf b) y := by
  obtain ⟨front, rest, hsplit⟩ := List.append_of_mem hx
  have hbehind := (before_iff_definedBehind T hsplit).mp h
  rw [T.takeWhile_ne hsplit, hsplit, assign_append,
    assign_of_not_mem (hbehind.not_mem T hsplit)]

/-- And what a block gives to an instruction is what it is given when its turn comes. -/
theorem assign_eq_give (T : g.Tidy) (hx : x ∈ g.instsOf b) :
    assign give start (g.instsOf b) x =
      give (assign give start ((g.instsOf b).takeWhile (· ≠ x))) x := by
  obtain ⟨front, rest, hsplit⟩ := List.append_of_mem hx
  have hnodup := T.nodup b
  rw [hsplit, List.nodup_append, List.nodup_cons] at hnodup
  rw [T.takeWhile_ne hsplit]
  exact assign_of_split hsplit hnodup.2.1.1

theorem valuesAfter_of_not_mem (h : y ∉ g.instsOf b) :
    g.valuesAfter I (b :: past) y = g.valuesAfter I past y :=
  assign_of_not_mem h

section

variable (T : g.Tidy) (hx : x ∈ g.instsOf b)

include T hx

theorem valuesAfter_eq_outcome :
    g.valuesAfter I (b :: past) x =
      g.outcome I past (g.valuesAfter I past) (g.valuesBefore I b past x) x :=
  assign_eq_give T hx

private theorem valuesBefore_eq (h : g.Before y x) :
    g.valuesBefore I b past x y = g.valuesAfter I (b :: past) y :=
  h.assign_eq T hx

/-- An operand that is defined before an instruction has the same value there and at the end of the
block. -/
theorem eval_valuesBefore {operand : Operand} (h : ∀ y, operand = .value y → g.Before y x) :
    I.eval (g.valuesBefore I b past x) operand = I.eval (g.valuesAfter I (b :: past)) operand := by
  cases operand with
  | const c => rfl
  | value y => exact valuesBefore_eq T hx (h y rfl)

end

end Function

end PointerGuard
