import PointerGuard.Module

/-!
# Drafting function bodies

A body is drafted as a list of items: instructions, each for a numbered block, and a few directives.
Building a draft resolves the names of operands, works out types and finds the first thing that is
wrong. A phi can only name values that exist, so the edges of loops are added later by a directive.
-/

namespace PointerGuard

namespace Draft

/-- How an author names an operand. -/
inductive Ref where
  /-- A constant. -/
  | const (c : Constant)
  /-- A value by its handle. -/
  | value (id : ValueId)
  /-- The address of a global. -/
  | global (id : GlobalId)
  /-- The address of a function. -/
  | function (id : FuncId)
  /-- A parameter of the function at hand. -/
  | param (position : Nat)
  deriving Repr, Inhabited

/-- A drafted instruction. -/
inductive Op where
  | alloca (allocated : Ty) (count : Option Ref)
  | load (ptr : Ref)
  | store (value ptr : Ref)
  | gep (base : Ref) (indices : List Ref)
  | cast (op : CastOp) (value : Ref) (ty : Ty)
  | select (cond ifTrue ifFalse : Ref)
  | phi (ty : Ty) (incoming : List (Ref × Nat))
  | call (callee : FuncId) (args : List Ref)
  | callIndirect (callee : Ref) (args : List Ref)
  | extract (aggregate : Ref) (index : Nat)
  | binary (op : BinaryOp) (lhs rhs : Ref)
  | icmp (pred : IntPredicate) (lhs rhs : Ref)
  | jump (target : Nat)
  | branch (cond : Ref) (thenBlock elseBlock : Nat)
  | ret (value : Option Ref)
  | unreachable
  deriving Repr, Inhabited

/-- An item of a draft. -/
inductive Item where
  /-- Give a parameter properties. -/
  | attrs (position : Nat) (attrs : ParamAttrs)
  /-- Make sure that a block exists. -/
  | block (number : Nat)
  /-- Add an edge to a phi. -/
  | incoming (phi : ValueId) (value : Ref) (block : Nat)
  /-- Put an instruction at the end of a block. -/
  | inst (block : Nat) (op : Op)
  deriving Repr, Inhabited

/-- A block by its number. Numbers wrap around at 32 bits. -/
def blockId (number : Nat) : BlockId := ⟨number % (1 <<< 32)⟩

/-! ### Parameters that do not exist -/

/-- The names an instruction uses, in order. -/
def Op.refs : Op → List Ref
  | .alloca _ count => count.toList
  | .load ptr => [ptr]
  | .store value ptr => [value, ptr]
  | .gep base indices => base :: indices
  | .cast _ value _ => [value]
  | .select cond ifTrue ifFalse => [cond, ifTrue, ifFalse]
  | .phi _ incoming => incoming.map Prod.fst
  | .call _ args => args
  | .callIndirect callee args => callee :: args
  | .extract aggregate _ => [aggregate]
  | .binary _ lhs rhs => [lhs, rhs]
  | .icmp _ lhs rhs => [lhs, rhs]
  | .branch cond _ _ => [cond]
  | .ret value => value.toList
  | .jump _ | .unreachable => []

/-- The names an item uses, in order. -/
def Item.refs : Item → List Ref
  | .attrs .. | .block _ => []
  | .incoming _ value _ => [value]
  | .inst _ op => op.refs

/-- The first parameter that a draft names and a function with `count` parameters lacks. -/
def missingParam? (count : Nat) (items : List Item) : Option Nat :=
  (items.flatMap Item.refs).findSome? fun
    | .param position => if position < count then none else some position
    | _ => none

/-! ### Building -/

/-- The operand a name stands for inside a draft. -/
def Ref.resolve (m : Module) (f : Function) : Ref → Except DraftError Operand
  | .const c => .ok (.const c)
  | .value id => .ok (.value id)
  | .global id =>
    match m.globals[id.index]? with
    | some g => .ok (.const g.address)
    | none => .error (.unknownGlobal id)
  | .function id =>
    match m.functions[id.index]? with
    | some g => .ok (.const (.func id g.pointerType))
    | none => .error (.unknownFunction id)
  | .param position => .ok (.value (f.valueAt position))

/-- The type of an operand of the function being drafted. -/
def typeOf (f : Function) : Operand → Except DraftError Ty
  | .const c => .ok c.ty
  | .value id =>
    match f.valueType? id with
    | some ty => .ok ty
    | none => .error (.unknownValue id)

/-- A call through a signature needs an argument for each parameter, and takes more only if the
signature is variadic. -/
def checkArgs (sig : Signature) (args : List Operand) : Except DraftError Unit :=
  if args.length < sig.params.length ∨ (sig.params.length < args.length ∧ !sig.variadic) then
    .error (.argumentCount args.length sig)
  else .ok ()

/-- The instruction a drafted one stands for, and the type of its result. -/
def Op.resolve (m : Module) (f : Function) : Op → Except DraftError (InstKind × Ty)
  | .alloca allocated count => do
    return (.alloca allocated (← count.mapM (Ref.resolve m f)), .ptr allocated)
  | .load ptr => do
    let ptr ← ptr.resolve m f
    match ← typeOf f ptr with
    | .ptr pointee => return (.load ptr, pointee)
    | other => throw (.loadThrough other)
  | .store value ptr => do
    let value ← value.resolve m f
    let ptr ← ptr.resolve m f
    let ptrTy ← typeOf f ptr
    let valueTy ← typeOf f value
    unless ptrTy = .ptr valueTy do
      throw (.storeThrough valueTy ptrTy)
    return (.store value ptr, .void)
  | .gep base indices => do
    let base ← base.resolve m f
    let indices ← indices.mapM (Ref.resolve m f)
    match ← typeOf f base with
    | .ptr pointee =>
      match Layout.pathType? pointee (indices.map Operand.asInt?) with
      | some ty => return (.gep base indices, ty)
      | none => throw (.badPath pointee)
    | other => throw (.pathFrom other)
  | .cast op value ty => do
    return (.cast op (← value.resolve m f), ty)
  | .select cond ifTrue ifFalse => do
    let cond ← cond.resolve m f
    let ifTrue ← ifTrue.resolve m f
    let ifFalse ← ifFalse.resolve m f
    return (.select cond ifTrue ifFalse, ← typeOf f ifTrue)
  | .phi ty incoming => do
    let incoming ← incoming.mapM fun (value, block) => do
      return (← value.resolve m f, blockId block)
    return (.phi incoming, ty)
  | .call callee args => do
    let args ← args.mapM (Ref.resolve m f)
    match m.functions[callee.index]? with
    | some g =>
      checkArgs g.signature args
      return (.call (.const (.func callee g.pointerType)) args g.signature, g.signature.ret)
    | none => throw (.unknownFunction callee)
  | .callIndirect callee args => do
    let callee ← callee.resolve m f
    let args ← args.mapM (Ref.resolve m f)
    let ty ← typeOf f callee
    match ty.signature? with
    | some sig =>
      checkArgs sig args
      return (.call callee args sig, sig.ret)
    | none => throw (.callThrough ty)
  | .extract aggregate index => do
    let aggregate ← aggregate.resolve m f
    match (← typeOf f aggregate).element? index with
    | some ty => return (.extract aggregate index, ty)
    | none => throw (.extractIndex index)
  | .binary op lhs rhs => do
    let lhs ← lhs.resolve m f
    let rhs ← rhs.resolve m f
    return (.binary op lhs rhs, ← typeOf f lhs)
  | .icmp pred lhs rhs => do
    let lhs ← lhs.resolve m f
    let rhs ← rhs.resolve m f
    return (.icmp pred lhs rhs, .int 1)
  | .jump target => return (.jump (blockId target), .void)
  | .branch cond thenBlock elseBlock => do
    let cond ← cond.resolve m f
    return (.branch cond (blockId thenBlock) (blockId elseBlock), .void)
  | .ret value => do
    return (.ret (← value.mapM (Ref.resolve m f)), .void)
  | .unreachable => return (.unreachable, .void)

/-- The function after one more item, and the value the item defines, if it is an instruction. -/
def Item.add (m : Module) (f : Function) : Item → Except DraftError (Function × Option ValueId)
  | .attrs position given =>
    if position < f.attrs.length then
      .ok ({ f with attrs := f.attrs.set position given }, none)
    else
      .error (.noParameter position)
  | .block number => .ok (f.ensureBlock (blockId number), none)
  | .incoming phi value number => do
    let value ← value.resolve m f
    match f.kind? phi with
    | some (.phi edges) =>
      let kind := .phi (edges ++ [(value, blockId number)])
      return (f.modifyInst phi fun inst => { inst with kind := kind }, none)
    | _ => throw (.notPhi phi)
  | .inst number op => do
    let (kind, ty) ← op.resolve m f
    let f := f.ensureBlock (blockId number)
    return (f.append (blockId number) kind ty, some f.nextValue)

/-- Add items to a function, one after another, and list the values they define. -/
def build (m : Module) : Function → List Item → Except DraftError (Function × List (Option ValueId))
  | f, [] => .ok (f, [])
  | f, item :: rest => do
    let (f, value) ← item.add m f
    let (f, values) ← build m f rest
    return (f, value :: values)

end Draft

/-- Give a function a drafted body, declaring it first if need be. A draft that is wrong leaves the
declaration as it was. The answer lists, for each item, the value it defined. -/
def Module.define (name : String) (sig : Signature) (items : List Draft.Item) :
    Edit Module (FuncId × List (Option ValueId)) := do
  let id ← Module.declare name sig
  let m ← get
  let f ← Edit.ofExcept (m.function id)
  unless f.isDeclaration do
    throw (.invalidIr (.alreadyDefined name))
  if let some position := Draft.missingParam? sig.params.length items then
    throw (.fault (.missingParameter position))
  match Draft.build m f items with
  | .ok (f, values) =>
    set (m.setFunction id f)
    return (id, values)
  | .error cause => throw (.invalidIr (.draft name cause))

/-- The operand a name stands for in a finished function of a module. -/
def Module.operand (m : Module) (current : FuncId) : Draft.Ref → Except Error Operand
  | .const c => .ok (.const c)
  | .value id => .ok (.value id)
  | .global id => (m.globalAddress id).map .const
  | .function id => (m.functionAddress id).map .const
  | .param position => do
    match (← m.function current).param? position with
    | some id => return .value id
    | none => throw (.fault (.missingParameter position))

end PointerGuard
