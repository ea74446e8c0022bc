import PointerGuard.Digraph.Dominators
import PointerGuard.Error

/-!
# Functions

A function owns a table of values, parameters first, and a list of blocks; a block is a list of
handles of instructions in the table. A function can be put into states that make no sense; the
queries below answer for those too.
-/

namespace PointerGuard

/-- What instrumentation knows about the role of a function. -/
structure FunctionFlags where
  /-- A routine of the metadata runtime. -/
  runtime : Bool := false
  /-- Made by instrumentation rather than by the program. -/
  synthetic : Bool := false
  /-- Run before the program starts. -/
  constructor : Bool := false
  /-- Stands in for a library routine and takes metadata. -/
  wrapper : Bool := false
  deriving DecidableEq, Repr, Inhabited

namespace FunctionFlags

/-- The flags of either. -/
def union (a b : FunctionFlags) : FunctionFlags where
  runtime := a.runtime || b.runtime
  synthetic := a.synthetic || b.synthetic
  constructor := a.constructor || b.constructor
  wrapper := a.wrapper || b.wrapper

/-- Whether no flag is set. -/
def isEmpty (flags : FunctionFlags) : Bool := flags = {}

/-- The flags as a number, one bit each. -/
def bits (flags : FunctionFlags) : Nat :=
  flags.runtime.toNat + 2 * flags.synthetic.toNat + 4 * flags.constructor.toNat +
    8 * flags.wrapper.toNat

end FunctionFlags

/-- Properties of a parameter. -/
structure ParamAttrs where
  /-- The pointer points to a private copy made for the call. -/
  byval : Bool := false
  /-- No other pointer points to the same memory. -/
  noalias : Bool := false
  deriving DecidableEq, Repr, Inhabited

/-- The attributes as a number, one bit each. -/
def ParamAttrs.bits (attrs : ParamAttrs) : Nat := attrs.byval.toNat + 2 * attrs.noalias.toNat

/-- Where a value comes from. -/
inductive ValueDef where
  /-- The parameter at a position. -/
  | param (position : Nat)
  /-- The result of an instruction. -/
  | inst (inst : Instruction)
  deriving DecidableEq, Repr, Inhabited

/-- A value of a function. -/
structure ValueInfo where
  /-- Its type. -/
  ty : Ty
  /-- Where it comes from. -/
  origin : ValueDef
  deriving DecidableEq, Repr, Inhabited

/-- A list of instructions. -/
structure Block where
  /-- The instructions, in order. -/
  insts : List ValueId := []
  deriving DecidableEq, Repr, Inhabited

/-- A function. -/
structure Function where
  /-- The handle of the function. -/
  id : FuncId
  /-- Its name. -/
  name : String
  /-- What it takes and returns. -/
  signature : Signature
  /-- The properties of its parameters, by position. -/
  attrs : List ParamAttrs
  /-- Its values, parameters first. -/
  values : Array ValueInfo
  /-- Its blocks. -/
  blocks : Array Block
  /-- Its role. -/
  flags : FunctionFlags
  deriving DecidableEq, Repr, Inhabited

namespace Function

/-- A function without a body. Its values are its parameters. -/
def declaration (id : FuncId) (name : String) (sig : Signature) : Function where
  id := id
  name := name
  signature := sig
  attrs := sig.params.map fun _ => {}
  values := (sig.params.mapIdx fun position ty => ⟨ty, .param position⟩).toArray
  blocks := #[]
  flags := {}

/-- Does the function have no body? -/
def isDeclaration (f : Function) : Bool := f.blocks.isEmpty

/-- The type of the address. -/
def pointerType (f : Function) : Ty := .functionPtr f.signature

/-! ### Values -/

/-- The value at a position of the table. -/
def valueAt (f : Function) (index : Nat) : ValueId := ⟨f.id, index⟩

/-- The parameters, which come before all other values. -/
def params (f : Function) : List ValueId :=
  (List.range f.signature.params.length).map f.valueAt

/-- The parameter at a position. -/
def param? (f : Function) (position : Nat) : Option ValueId := f.params[position]?

/-- The properties of the parameter at a position; none where there is no parameter. -/
def attrsAt (f : Function) (position : Nat) : ParamAttrs := f.attrs.getD position {}

/-- Give the parameter at a position new properties. -/
def setAttrs (f : Function) (position : Nat) (attrs : ParamAttrs) : Except Error Function :=
  if position < f.attrs.length then
    .ok { f with attrs := f.attrs.set position attrs }
  else
    .error (.invalidIr (.noParameter f.name position))

/-- All values, in the order of their indices. -/
def valueIds (f : Function) : List ValueId := (List.range f.values.size).map f.valueAt

/-- What is known of a value. A handle of another function names nothing here. -/
def value? (f : Function) (id : ValueId) : Option ValueInfo :=
  if id.func = f.id then f.values[id.index]? else none

/-- The type of a value of the function. -/
def valueType? (f : Function) (id : ValueId) : Option Ty := (f.value? id).map ValueInfo.ty

/-- Whether a value of the function is a pointer. -/
def isPointerValue (f : Function) (id : ValueId) : Bool :=
  match f.valueType? id with
  | some ty => ty.isPointer
  | none => false

/-- The type of an operand. A value has to be one of the function. -/
def operandType (f : Function) : Operand → Except Error Ty
  | .const c => .ok c.ty
  | .value id =>
    match f.valueType? id with
    | some ty => .ok ty
    | none => .error (.invalidIr (.unknownValue id f.name))

/-- The instruction that a value is the result of. -/
def inst? (f : Function) (id : ValueId) : Option Instruction :=
  match f.value? id with
  | some ⟨_, .inst inst⟩ => some inst
  | _ => none

/-- The kind of the instruction that defines a value. -/
def kind? (f : Function) (id : ValueId) : Option InstKind := (f.inst? id).map Instruction.kind

/-- Change the instruction that defines a value; nothing happens to other values. -/
def modifyInst (f : Function) (id : ValueId) (change : Instruction → Instruction) : Function :=
  match f.value? id with
  | some ⟨ty, .inst inst⟩ =>
    { f with values := f.values.setIfInBounds id.index ⟨ty, .inst (change inst)⟩ }
  | _ => f

/-! ### Blocks -/

/-- The block with an identifier. -/
def block? (f : Function) (id : BlockId) : Option Block := f.blocks[id.index]?

/-- The instructions listed in a block; none for a block that does not exist. -/
def instsOf (f : Function) (id : BlockId) : List ValueId :=
  match f.block? id with
  | some block => block.insts
  | none => []

/-- All blocks, the entry first. -/
def blockIds (f : Function) : List BlockId := (List.range f.blocks.size).map BlockId.mk

/-- The first block is where execution begins. -/
def entryId? (f : Function) : Option BlockId := if f.blocks.isEmpty then none else some ⟨0⟩

/-- The last instruction of a block, if it is a terminator. -/
def terminator? (f : Function) (id : BlockId) : Option ValueId := do
  let last ← (f.instsOf id).getLast?
  let kind ← f.kind? last
  if kind.isTerminator then some last else none

/-- The blocks control may move to from a block. -/
def successors (f : Function) (id : BlockId) : List BlockId :=
  match (f.terminator? id).bind f.kind? with
  | some kind => kind.successors
  | none => []

/-- The blocks from which control may move to a block, in order. -/
def predecessors (f : Function) (id : BlockId) : List BlockId :=
  f.blockIds.filter fun pred => id ∈ f.successors pred

/-- Is the value an instruction of the program proper? -/
def isProgramInst (f : Function) (id : ValueId) : Bool :=
  match f.inst? id with
  | some inst => !inst.inserted
  | none => false

/-- The instructions of the program proper in a block, in order. -/
def programInsts (f : Function) (id : BlockId) : List ValueId :=
  (f.instsOf id).filter f.isProgramInst

/-- All listed values that are instructions, block by block. -/
def listedInsts (f : Function) : List ValueId :=
  (f.blockIds.flatMap f.instsOf).filter fun id => (f.inst? id).isSome

/-! ### Control flow -/

/-- The control flow graph: a node for each block. -/
def flowGraph (f : Function) : Digraph where
  size := f.blocks.size
  succ node := (f.successors ⟨node⟩).map BlockId.index
  pred node := (f.predecessors ⟨node⟩).map BlockId.index

/-- The dominator tree of the control flow graph from the first block. -/
def dominators? (f : Function) : Option DominatorTree := DominatorTree.compute f.flowGraph 0

/-- The blocks reached from the first one, in breadth-first order. -/
def bfsBlocks? (f : Function) : Option (List BlockId) :=
  match f.entryId? with
  | some entry => (f.flowGraph.bfs entry.index).map (List.map BlockId.mk)
  | none => some []

/-! ### Phis -/

/-- The number of edges of a phi. -/
def phiArity? (f : Function) (phi : ValueId) : Option Nat :=
  match f.kind? phi with
  | some (.phi incoming) => some incoming.length
  | _ => none

/-- Add an edge to a phi, after those it has. -/
def addIncoming (f : Function) (phi : ValueId) (value : Operand) (block : BlockId) :
    Except Error Function :=
  match f.kind? phi with
  | some (.phi incoming) =>
    .ok (f.modifyInst phi fun inst => { inst with kind := .phi (incoming ++ [(value, block)]) })
  | _ => .error (.invalidIr (.notPhi phi f.name))

/-! ### Adding instructions -/

/-- The value that comes next. -/
def nextValue (f : Function) : ValueId := f.valueAt f.values.size

/-- Add empty blocks until the block exists. -/
def ensureBlock (f : Function) (id : BlockId) : Function :=
  { f with blocks := f.blocks ++ Array.replicate (id.index + 1 - f.blocks.size) {} }

/-- Put a new instruction of the program at the end of a block, which is created if need be. -/
def append (f : Function) (block : BlockId) (kind : InstKind) (ty : Ty) : Function :=
  let f := f.ensureBlock block
  { f with
    values := f.values.push ⟨ty, .inst ⟨kind, block, false⟩⟩
    blocks := f.blocks.modify block.index fun b => { b with insts := b.insts ++ [f.nextValue] } }

/-- Splice a new instruction into a block, in front of the one at a position. -/
def insertAt (f : Function) (block : BlockId) (position : Nat) (kind : InstKind) (ty : Ty) :
    Function :=
  { f with
    values := f.values.push ⟨ty, .inst ⟨kind, block, true⟩⟩
    blocks := f.blocks.modify block.index fun b =>
      { b with insts := b.insts.take position ++ f.nextValue :: b.insts.drop position } }

end Function

end PointerGuard
