import PointerGuard.Instrument
import PointerGuard.Proofs.Edits

/-!
# Writing down functions

Statements are tried out on small functions. Their values are numbered as they are written down,
parameters first and then block after block, and they are woven with everything on, in a module with
nothing else but the runtime.
-/

namespace PointerGuard

variable {f : Function}

/-- A value of the first function. -/
abbrev val (index : Nat) : Operand := .value ⟨⟨0⟩, index⟩

namespace Function

/-- The values of parameters and of instructions that stand behind their types, block after
block. -/
def valuesOf (params : List Ty) (blocks : List (List (Ty × InstKind))) : List ValueInfo :=
  params.zipIdx.map (fun (ty, position) => ⟨ty, .param position⟩) ++
    blocks.zipIdx.flatMap fun (insts, b) =>
      insts.map fun (ty, kind) => ⟨ty, .inst ⟨kind, ⟨b⟩, false⟩⟩

/-- List values one after the other, as many in each block as it has instructions. -/
def blocksOf (id : FuncId) (next : Nat) : List (List (Ty × InstKind)) → List Block
  | [] => []
  | insts :: rest =>
    ⟨(List.range' next insts.length).map (⟨id, ·⟩)⟩ :: blocksOf id (next + insts.length) rest

/-- The function with these blocks. -/
def ofBlocks (id : FuncId) (name : String) (sig : Signature)
    (blocks : List (List (Ty × InstKind))) :
    Function where
  id := id
  name := name
  signature := sig
  attrs := []
  values := (valuesOf sig.params blocks).toArray
  blocks := (blocksOf id sig.params.length blocks).toArray
  flags := {}

/-- Say that an instruction has been inserted. -/
def withInserted (f : Function) (index : Nat) : Function :=
  f.modifyInst ⟨f.id, index⟩ fun inst => { inst with inserted := true }

/-- The signatures of the calls in a function. -/
def calledSignatures (f : Function) : List Signature :=
  (f.blockIds.flatMap f.instsOf).filterMap fun x => match f.kind? x with
    | some (.call _ _ sig) => some sig
    | _ => none

end Function

/-- Two pointers are swapped in a loop, which can also be entered from a block that control never
comes to. -/
def sideDoor : Function :=
  .ofBlocks ⟨0⟩ "swap" ⟨.void, [.ptr (.int 8), .ptr (.int 8), .int 1], false⟩ [
  [(.void, .jump ⟨1⟩)],
  [(.ptr (.int 8), .phi [(val 0, ⟨0⟩), (val 5, ⟨1⟩), (val 0, ⟨3⟩)]),
    (.ptr (.int 8), .phi [(val 1, ⟨0⟩), (val 4, ⟨1⟩), (val 1, ⟨3⟩)]),
    (.void, .branch (val 2) ⟨1⟩ ⟨2⟩)],
  [(.void, .ret none)],
  [(.void, .jump ⟨1⟩)]]

/-- What can be seen of a function when its module has been instrumented. -/
theorem Module.exists_runs_instrument {m : Module} {config : Config} {id : FuncId}
    {P : Function → Prop} [DecidablePred P] (hok : ((instrument config).apply m).1.isOk)
    (hP : (((instrument config).apply m).2.function id).map (fun g => decide (P g)) = .ok true) :
    ∃ report m' g, (instrument config).Runs m report m' ∧ m'.function id = .ok g ∧ P g := by
  obtain ⟨report, hrun⟩ := Edit.exists_runs hok
  cases hg : ((instrument config).apply m).2.function id with
  | error e =>
    rw [hg] at hP
    cases hP
  | ok g =>
    rw [hg] at hP
    exact ⟨report, _, g, hrun, hg, of_decide_eq_true (Except.ok.inj hP)⟩

/-- Everything is on, and there is nothing else in the module. -/
def gatherEnv (f : Function) : Env where
  config := {}
  interface := ⟨.bits64, #[], #[]⟩
  routines := ⟨.bits64, (List.range Routine.all.length).map (⟨· + 1⟩)⟩
  dominators := f.dominators?.getD ⟨0, #[], []⟩

theorem dominators_gatherEnv (h : f.dominators?.isSome) :
    f.dominators? = some (gatherEnv f).dominators := by
  obtain ⟨tree, htree⟩ := Option.isSome_iff_exists.mp h
  rw [gatherEnv, htree, Option.getD_some]

open Weaving

/-- What becomes of a function in the first pass. -/
def gatherCreated (f : Function) : Weaving :=
  ((createMetadata (gatherEnv f)).apply (.start f ⟨.bits64, []⟩)).2

/-- What becomes of a function in both passes. -/
def gatherResolved (f : Function) : Weaving :=
  ((resolveMetadata (gatherEnv f)).apply (gatherCreated f)).2

theorem runs_gatherCreated
    (h : ((createMetadata (gatherEnv f)).apply (.start f ⟨.bits64, []⟩)).1.isOk) :
    (createMetadata (gatherEnv f)).Runs (.start f ⟨.bits64, []⟩) ⟨⟩ (gatherCreated f) := by
  obtain ⟨_, hruns⟩ := Edit.exists_runs h
  exact hruns

theorem runs_gatherResolved (h : ((resolveMetadata (gatherEnv f)).apply (gatherCreated f)).1.isOk) :
    (resolveMetadata (gatherEnv f)).Runs (gatherCreated f) ⟨⟩ (gatherResolved f) := by
  obtain ⟨_, hruns⟩ := Edit.exists_runs h
  exact hruns

end PointerGuard
