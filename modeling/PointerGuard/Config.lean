import PointerGuard.Error

/-!
# Configuration

The switches of an instrumentation run. By default everything that makes the
program safer and everything that makes checks fewer is on; only the reporting
of parameters to the runtime is off.
-/

namespace PointerGuard

/-- The switches of an instrumentation run. -/
structure Config where
  /-- Track base and bound, and check them. -/
  spatialSafety : Bool := true
  /-- Track key and lock, and check them. -/
  temporalSafety : Bool := true
  /-- Check bounds before loads. -/
  loadChecks : Bool := true
  /-- Check bounds before stores. -/
  storeChecks : Bool := true
  /-- Check keys before loads. -/
  temporalLoadChecks : Bool := true
  /-- Check keys before stores. -/
  temporalStoreChecks : Bool := true
  /-- Check the targets of indirect calls. -/
  callChecks : Bool := true
  /-- Copy metadata along with copied memory. -/
  memcpyMetadata : Bool := true
  /-- Leave out a key check that an earlier one in the same block covers. -/
  eliminateBlockTemporal : Bool := true
  /-- Leave out a key check that one in a dominating block covers. -/
  eliminateFunctionTemporal : Bool := true
  /-- Leave out key checks of pointers into the stack frame. -/
  eliminateStackTemporal : Bool := true
  /-- Leave out key checks of pointers into globals. -/
  eliminateGlobalTemporal : Bool := true
  /-- Leave out bounds checks that constant indices prove. -/
  eliminateConstantIndexSpatial : Bool := true
  /-- Take every call for one that may free memory. -/
  opaqueCalls : Bool := true
  /-- Send library calls to the wrappers that know about metadata. -/
  wrapLibraryCalls : Bool := true
  /-- Rename `main`, so that the runtime can start the program. -/
  renameMain : Bool := true
  /-- Report the metadata of pointer parameters to the runtime. -/
  introspectMetadata : Bool := false
  /-- Verify every function after it has been instrumented. -/
  verifyOutput : Bool := true
  deriving DecidableEq, Repr, Inhabited

/-- A pass over one function. -/
inductive Pass where
  /-- Create metadata where it can be created. -/
  | create
  /-- Finish what had to wait. -/
  | resolve
  /-- Make sure that no pointer was missed. -/
  | audit
  /-- Insert checks. -/
  | check
  deriving DecidableEq, Repr

/-- What a pass is called in a pipeline. -/
def Pass.name : Pass → String
  | .create => "gather-create"
  | .resolve => "gather-resolve"
  | .audit => "coverage-audit"
  | .check => "check-insertion"

/-- What a pass does, in a few words. -/
def Pass.description : Pass → String
  | .create => "Creates pointer metadata and placeholder phis"
  | .resolve => "Resolves forward references, fills placeholder phis and stores metadata"
  | .audit => "Verifies that every reachable pointer value has metadata"
  | .check => "Inserts dereference checks and elides redundant temporal checks"

namespace Config

/-! ### Presets -/

/-- The defaults without key checks. -/
def spatialOnly : Config := { temporalSafety := false }

/-- The defaults without bounds checks. -/
def temporalOnly : Config := { spatialSafety := false }

/-- Every check, needed or not. -/
def noElimination : Config where
  eliminateBlockTemporal := false
  eliminateFunctionTemporal := false
  eliminateStackTemporal := false
  eliminateGlobalTemporal := false
  eliminateConstantIndexSpatial := false

/-! ### Queries -/

/-- Is any kind of bounds check wanted? -/
def spatialChecksEnabled (c : Config) : Bool :=
  c.spatialSafety && (c.loadChecks || c.storeChecks || c.callChecks)

/-- Is any kind of key check wanted? -/
def temporalChecksEnabled (c : Config) : Bool :=
  c.temporalSafety && (c.temporalLoadChecks || c.temporalStoreChecks)

/-- May any check be left out? -/
def anyEliminationEnabled (c : Config) : Bool :=
  c.eliminateBlockTemporal || c.eliminateFunctionTemporal || c.eliminateStackTemporal ||
    c.eliminateGlobalTemporal || c.eliminateConstantIndexSpatial

/-- A configuration has to ask for some safety. -/
def validate (c : Config) : Except Error Unit :=
  if c.spatialSafety || c.temporalSafety then .ok () else .error .noSafety

/-- The passes over each function. Checks are inserted only if something asks for it. -/
def pipeline (c : Config) : List Pass :=
  [.create, .resolve, .audit] ++
    if c.spatialChecksEnabled || c.temporalChecksEnabled || c.memcpyMetadata then [.check] else []

end Config

end PointerGuard
