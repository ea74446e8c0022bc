import PointerGuard.Constant

/-!
# Instructions

An instruction is a kind with its operands, the block it belongs to, and a mark that tells
instructions spliced in later from those of the program. The type of its result belongs to the value
it defines.
-/

namespace PointerGuard

/-- What an instruction works on. -/
inductive Operand where
  /-- The value of a parameter or of an instruction. -/
  | value (id : ValueId)
  /-- A constant. -/
  | const (c : Constant)
  deriving DecidableEq, Repr, Inhabited

namespace Operand

/-- The value, if it is one. -/
def value? : Operand → Option ValueId
  | .value id => some id
  | .const _ => none

/-- The constant, if it is one. -/
def const? : Operand → Option Constant
  | .const c => some c
  | .value _ => none

/-- Is the operand a literal null pointer? Null constants under casts are not literal. -/
def isNull : Operand → Bool
  | .const (.null _) => true
  | _ => false

/-- The value of an operand that is an integer literal. -/
def asInt? (op : Operand) : Option Int := op.const?.bind Constant.asInt?

/-- The operand as it is written. -/
def text : Operand → String
  | .value id => toString id
  | .const c => c.text

instance : ToString Operand := ⟨text⟩
instance : Coe ValueId Operand := ⟨.value⟩
instance : Coe Constant Operand := ⟨.const⟩

end Operand

/-- An operation on two integers. -/
inductive BinaryOp where
  | add | sub | mul | udiv | sdiv | urem | srem | and | or | xor | shl | lshr | ashr
  deriving DecidableEq, Repr

/-- The word for an operation. -/
def BinaryOp.mnemonic : BinaryOp → String
  | .add => "add"
  | .sub => "sub"
  | .mul => "mul"
  | .udiv => "udiv"
  | .sdiv => "sdiv"
  | .urem => "urem"
  | .srem => "srem"
  | .and => "and"
  | .or => "or"
  | .xor => "xor"
  | .shl => "shl"
  | .lshr => "lshr"
  | .ashr => "ashr"

/-- All operations. -/
def BinaryOp.all : List BinaryOp :=
  [.add, .sub, .mul, .udiv, .sdiv, .urem, .srem, .and, .or, .xor, .shl, .lshr, .ashr]

/-- The operation that a word stands for. -/
def BinaryOp.ofMnemonic? (word : String) : Option BinaryOp := all.find? (·.mnemonic = word)

/-- A comparison of two integers. -/
inductive IntPredicate where
  | eq | ne | ugt | uge | ult | ule | sgt | sge | slt | sle
  deriving DecidableEq, Repr

/-- The word for a predicate. -/
def IntPredicate.mnemonic : IntPredicate → String
  | .eq => "eq"
  | .ne => "ne"
  | .ugt => "ugt"
  | .uge => "uge"
  | .ult => "ult"
  | .ule => "ule"
  | .sgt => "sgt"
  | .sge => "sge"
  | .slt => "slt"
  | .sle => "sle"

/-- All predicates. -/
def IntPredicate.all : List IntPredicate :=
  [.eq, .ne, .ugt, .uge, .ult, .ule, .sgt, .sge, .slt, .sle]

/-- The predicate that a word stands for. -/
def IntPredicate.ofMnemonic? (word : String) : Option IntPredicate := all.find? (·.mnemonic = word)

/-- What an instruction does. -/
inductive InstKind where
  /-- Reserve stack memory for one value of a type, or for `count` of them. -/
  | alloca (allocated : Ty) (count : Option Operand)
  /-- Read memory. -/
  | load (ptr : Operand)
  /-- Write memory. -/
  | store (value ptr : Operand)
  /-- Compute an address along a path of indices. -/
  | gep (base : Operand) (indices : List Operand)
  /-- Take a value at another type. -/
  | cast (op : CastOp) (value : Operand)
  /-- Choose one of two values. -/
  | select (cond ifTrue ifFalse : Operand)
  /-- Take the value that belongs to the edge by which the block was entered. -/
  | phi (incoming : List (Operand × BlockId))
  /-- Call a function through a signature. -/
  | call (callee : Operand) (args : List Operand) (sig : Signature)
  /-- Take one part of an aggregate. -/
  | extract (aggregate : Operand) (index : Nat)
  /-- Compute with two integers. -/
  | binary (op : BinaryOp) (lhs rhs : Operand)
  /-- Compare two integers. -/
  | icmp (pred : IntPredicate) (lhs rhs : Operand)
  /-- Go to a block. -/
  | jump (target : BlockId)
  /-- Go to one of two blocks. -/
  | branch (cond : Operand) (thenBlock elseBlock : BlockId)
  /-- Leave the function. -/
  | ret (value : Option Operand)
  /-- A point that is never passed. -/
  | unreachable
  deriving DecidableEq, Repr, Inhabited

namespace InstKind

/-- Does the instruction end a block? -/
def isTerminator : InstKind → Bool
  | .jump _ | .branch .. | .ret _ | .unreachable => true
  | _ => false

/-- Whether it is a phi. -/
def isPhi : InstKind → Bool
  | .phi _ => true
  | _ => false

/-- Whether it is a call. -/
def isCall : InstKind → Bool
  | .call .. => true
  | _ => false

/-- Does the instruction leave the function? -/
def isReturn : InstKind → Bool
  | .ret _ => true
  | _ => false

/-- The blocks control may move to, each once. -/
def successors : InstKind → List BlockId
  | .jump target => [target]
  | .branch _ thenBlock elseBlock =>
    if thenBlock = elseBlock then [thenBlock] else [thenBlock, elseBlock]
  | _ => []

/-- The address a load or store goes through. -/
def accessedPointer? : InstKind → Option Operand
  | .load ptr | .store _ ptr => some ptr
  | _ => none

/-- All operands, in the order in which they are written. -/
def operands : InstKind → List Operand
  | .alloca _ count => count.toList
  | .load ptr => [ptr]
  | .store value ptr => [value, ptr]
  | .gep base indices => base :: indices
  | .cast _ value => [value]
  | .select cond ifTrue ifFalse => [cond, ifTrue, ifFalse]
  | .phi incoming => incoming.map Prod.fst
  | .call callee args _ => callee :: args
  | .extract aggregate _ => [aggregate]
  | .binary _ lhs rhs => [lhs, rhs]
  | .icmp _ lhs rhs => [lhs, rhs]
  | .branch cond _ _ => [cond]
  | .ret value => value.toList
  | .jump _ | .unreachable => []

/-- The instruction with every operand changed. -/
def mapOperands (f : Operand → Operand) : InstKind → InstKind
  | .alloca allocated count => .alloca allocated (count.map f)
  | .load ptr => .load (f ptr)
  | .store value ptr => .store (f value) (f ptr)
  | .gep base indices => .gep (f base) (indices.map f)
  | .cast op value => .cast op (f value)
  | .select cond ifTrue ifFalse => .select (f cond) (f ifTrue) (f ifFalse)
  | .phi incoming => .phi (incoming.map fun (value, block) => (f value, block))
  | .call callee args sig => .call (f callee) (args.map f) sig
  | .extract aggregate index => .extract (f aggregate) index
  | .binary op lhs rhs => .binary op (f lhs) (f rhs)
  | .icmp pred lhs rhs => .icmp pred (f lhs) (f rhs)
  | .jump target => .jump target
  | .branch cond thenBlock elseBlock => .branch (f cond) thenBlock elseBlock
  | .ret value => .ret (value.map f)
  | .unreachable => .unreachable

/-- The word for an instruction. -/
def mnemonic : InstKind → String
  | .alloca .. => "alloca"
  | .load _ => "load"
  | .store .. => "store"
  | .gep .. => "getelementptr"
  | .cast op _ => op.mnemonic
  | .select .. => "select"
  | .phi _ => "phi"
  | .call .. => "call"
  | .extract .. => "extractvalue"
  | .binary .. => "binary"
  | .icmp .. => "icmp"
  | .jump _ | .branch .. => "br"
  | .ret _ => "ret"
  | .unreachable => "unreachable"

theorem operands_mapOperands (f : Operand → Operand) (kind : InstKind) :
    (kind.mapOperands f).operands = kind.operands.map f := by
  cases kind with
  | alloca _ count => cases count <;> rfl
  | ret value => cases value <;> rfl
  | phi incoming => simp [mapOperands, operands]
  | _ => rfl

end InstKind

/-- An instruction in its place. -/
structure Instruction where
  /-- What it does. -/
  kind : InstKind
  /-- The block it says it belongs to. -/
  block : BlockId
  /-- Whether it was spliced in, rather than being part of the program proper. -/
  inserted : Bool
  deriving DecidableEq, Repr, Inhabited

end PointerGuard
