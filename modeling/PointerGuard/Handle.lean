/-!
# Handles

Functions, globals, blocks and values are named by handles. A value's handle names the function that
owns it, so it can be used as a key across a whole module. An `InsertPoint` names a place between
the instructions of a function.
-/

namespace PointerGuard

/-- Names a function of a module by its position. -/
structure FuncId where
  /-- The position of the function. -/
  index : Nat
  deriving DecidableEq, Repr, Inhabited

/-- Names a global of a module by its position. -/
structure GlobalId where
  /-- The position of the global. -/
  index : Nat
  deriving DecidableEq, Repr, Inhabited

/-- Names a block of a function by its position. -/
structure BlockId where
  /-- The position of the block. -/
  index : Nat
  deriving DecidableEq, Repr, Inhabited

/-- Names a value by the function that owns it and its position there. -/
structure ValueId where
  /-- The owner. -/
  func : FuncId
  /-- The position among the owner's values. -/
  index : Nat
  deriving DecidableEq, Repr, Inhabited

instance : ToString FuncId := ⟨fun id => "func#" ++ toString id.index⟩
instance : ToString GlobalId := ⟨fun id => "global#" ++ toString id.index⟩
instance : ToString BlockId := ⟨fun id => "bb" ++ toString id.index⟩
instance : ToString ValueId := ⟨fun id => "%" ++ toString id.index⟩

/-- A place at which instructions can be inserted. -/
inductive InsertPoint where
  /-- Directly before an instruction. -/
  | before (anchor : ValueId)
  /-- Directly after an instruction. -/
  | after (anchor : ValueId)
  /-- After the phis at the head of a block. -/
  | afterPhis (block : BlockId)
  /-- In the entry block, before the first instruction of the program proper. -/
  | prologue
  /-- At the end of a block, but before its terminator. -/
  | beforeTerminator (block : BlockId)
  deriving DecidableEq, Repr

/-- A value's handle spelled out with its owner. -/
def ValueId.spelled (id : ValueId) : String :=
  "ValueId \x7b func: FuncId(" ++ toString id.func.index ++ "), index: " ++ toString id.index ++
    " \x7d"

/-- The identifier as a message spells it. -/
def BlockId.spelled (id : BlockId) : String := "BlockId(" ++ toString id.index ++ ")"

/-- The insert point as messages name it. -/
def InsertPoint.text : InsertPoint → String
  | .before anchor => "Before(" ++ anchor.spelled ++ ")"
  | .after anchor => "After(" ++ anchor.spelled ++ ")"
  | .afterPhis block => "AfterPhis(" ++ block.spelled ++ ")"
  | .prologue => "Prologue"
  | .beforeTerminator block => "BeforeTerminator(" ++ block.spelled ++ ")"

end PointerGuard
