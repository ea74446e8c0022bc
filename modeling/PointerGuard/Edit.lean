import PointerGuard.Error

/-!
# Edits

An edit changes a state and either gives a result or fails. A failed edit keeps
the changes made before it failed: `Edit.apply` gives the outcome and the state
in either case.
-/

namespace PointerGuard

/-- A change of a state of type `σ` that gives an `α` or fails, and keeps its changes if it
fails. -/
abbrev Edit (σ α : Type) := ExceptT Error (StateM σ) α

namespace Edit

/-- The outcome of an edit and the state it leaves. -/
def apply (edit : Edit σ α) (s : σ) : Except Error α × σ := StateT.run (ExceptT.run edit) s

/-- The edit that changes nothing and has a known outcome. -/
def ofExcept : Except Error α → Edit σ α
  | .ok a => pure a
  | .error e => throw e

/-- The edit that takes a known answer, or faults if there is none. -/
def ofOption (cause : Fault) : Option α → Edit σ α
  | some a => pure a
  | none => throw (.fault cause)

/-- Fail if there is something that must not be. -/
def refuse (cause : α → Fault) (found : Option α) : Edit σ Unit :=
  ofExcept <| match found with
    | some a => .error (.fault (cause a))
    | none => .ok ()

/-- Edit a part of the state: take it out, change it, put it back, whatever the outcome. -/
def within (part : σ → τ) (put : τ → σ → σ) (edit : Edit τ α) : Edit σ α := do
  let s ← get
  let (outcome, t) := edit.apply (part s)
  set (put t s)
  ofExcept outcome

end Edit

end PointerGuard
