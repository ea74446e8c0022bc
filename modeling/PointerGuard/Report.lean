/-!
# Reports

What an instrumentation run inserted and what it left out, counted by function,
and the summary text of a run.
-/

namespace PointerGuard

/-- Counters for one function. -/
structure FunctionReport where
  /-- The function's name when it was instrumented. -/
  function : String
  /-- Bounds checks inserted before loads and stores. -/
  spatialChecks : Nat := 0
  /-- Key checks inserted before loads and stores. -/
  temporalChecks : Nat := 0
  /-- Bounds checks inserted before indirect calls. -/
  callChecks : Nat := 0
  /-- Bounds checks left out because constant indices prove them. -/
  spatialEliminatedConstantIndex : Nat := 0
  /-- Key checks left out because the object is on the stack or global. -/
  temporalEliminatedTrivial : Nat := 0
  /-- Key checks left out because of an earlier one in the block. -/
  temporalEliminatedBlock : Nat := 0
  /-- Key checks left out because of one in a dominating block. -/
  temporalEliminatedFunction : Nat := 0
  /-- Metadata copies inserted after memory copies. -/
  metadataCopies : Nat := 0
  /-- Shadow frames put around calls. -/
  shadowStackFrames : Nat := 0
  /-- Pointer phis that were given placeholders. -/
  placeholderPhis : Nat := 0
  /-- Instructions whose metadata had to wait. -/
  deferred : Nat := 0
  /-- Stack allocations that were given metadata. -/
  stackAllocations : Nat := 0
  /-- Metadata loads inserted after loads of pointers. -/
  metadataLoads : Nat := 0
  /-- Metadata stores inserted after stores of pointers. -/
  metadataStores : Nat := 0
  deriving DecidableEq, Repr, Inhabited

namespace FunctionReport

/-- The checks inserted. -/
def totalChecks (r : FunctionReport) : Nat := r.spatialChecks + r.temporalChecks + r.callChecks

/-- The key checks left out. -/
def temporalEliminated (r : FunctionReport) : Nat :=
  r.temporalEliminatedTrivial + r.temporalEliminatedBlock + r.temporalEliminatedFunction

/-- The line of a function in the summary. -/
def line (r : FunctionReport) : String :=
  "  " ++ r.function ++ ": " ++ toString r.spatialChecks ++ " spatial, " ++
    toString r.temporalChecks ++ " temporal, " ++ toString r.callChecks ++ " call, " ++
    toString r.shadowStackFrames ++ " frames, " ++ toString r.placeholderPhis ++ " phis\n"

end FunctionReport

/-- Counters for a module. -/
structure Report where
  /-- The functions, in the order in which they were instrumented. -/
  functions : List FunctionReport := []
  /-- Pointers in initializers whose metadata is recorded before the program starts. -/
  seededGlobalFields : Nat := 0
  /-- Uses of library routines that were sent to wrappers. -/
  wrappedCalls : Nat := 0
  /-- Whether `main` was renamed. -/
  renamedMain : Bool := false
  deriving DecidableEq, Repr, Inhabited

namespace Report

/-- The first report of a function of a name. -/
def functionNamed? (r : Report) (name : String) : Option FunctionReport :=
  r.functions.find? (·.function = name)

/-- A counter, added up over the functions. -/
def total (r : Report) (counter : FunctionReport → Nat) : Nat :=
  r.functions.foldl (fun n f => n + counter f) 0

/-- The checks inserted. -/
def totalChecks (r : Report) : Nat := r.total FunctionReport.totalChecks

/-- All bounds checks inserted before loads and stores. -/
def spatialChecks (r : Report) : Nat := r.total FunctionReport.spatialChecks

/-- All key checks inserted before loads and stores. -/
def temporalChecks (r : Report) : Nat := r.total FunctionReport.temporalChecks

/-- The key checks left out. -/
def temporalEliminated (r : Report) : Nat := r.total FunctionReport.temporalEliminated

/-- The summary of a run: a line of totals, then a line for each function. -/
def text (r : Report) : String :=
  toString r.functions.length ++ " functions, " ++ toString r.totalChecks ++ " checks (" ++
    toString r.spatialChecks ++ " spatial, " ++ toString r.temporalChecks ++ " temporal), " ++
    toString r.temporalEliminated ++ " temporal elided\n" ++
    String.join (r.functions.map FunctionReport.line)

end Report

end PointerGuard
