import PointerGuard.Instruction

/-!
# Errors

Every way in which a request can fail, with its wording. A `Fault` is not a complaint about the
program: a question was asked that has no answer, because the program refers to something that does
not exist.
-/

namespace PointerGuard

/-- A question without an answer. -/
inductive Fault where
  /-- Control moves to, or a graph has an edge at, something that is not there. -/
  | danglingEdge
  /-- A parameter was asked for that the function does not have. -/
  | missingParameter (position : Nat)
  /-- A pointer is derived from itself. -/
  | cyclicDerivation (ptr : Operand)
  /-- The size of a type was asked for that no word can hold. -/
  | oversized (ty : Ty)
  deriving DecidableEq, Repr

/-- A rule of function bodies, broken. -/
inductive Violation where
  /-- A block without instructions. -/
  | emptyBlock (block : BlockId)
  /-- A block lists something that is not an instruction. -/
  | notInstruction (block : BlockId) (value : ValueId)
  /-- An instruction is listed in one block and says it belongs to another. -/
  | wrongBlock (value : ValueId) (listed claimed : BlockId)
  /-- An instruction is listed a second time. -/
  | placedTwice (value : ValueId)
  /-- A terminator before the end of a block, or none at its end. -/
  | badTerminator (block : BlockId) (value : ValueId) (mnemonic : String)
  /-- A phi that does not stand at the head of its block. -/
  | latePhi (value : ValueId) (block : BlockId)
  /-- A branch to a block that does not exist. -/
  | missingTarget (block target : BlockId)
  /-- An operand that has no value to give. -/
  | usesVoid (value used : ValueId)
  /-- An operand that does not exist. -/
  | usesUndefined (value used : ValueId)
  /-- A phi with more or fewer edges than its block has predecessors. -/
  | phiEdgeCount (value : ValueId) (edges : Nat) (block : BlockId) (predecessors : Nat)
  /-- A phi edge from a block that is not a predecessor. -/
  | phiForeignEdge (value : ValueId) (pred : BlockId)
  /-- A phi operand that may not be defined when its edge is taken. -/
  | phiNotDominated (used : ValueId) (pred : BlockId) (value : ValueId)
  /-- Two phi edges from one predecessor. -/
  | phiRepeatedEdge (value : ValueId)
  /-- An operand that may not be defined when it is used. -/
  | notDominated (used value : ValueId)
  deriving DecidableEq, Repr

/-- What is said of a violation. -/
def Violation.text : Violation → String
  | .emptyBlock block => s!"{block} is empty"
  | .notInstruction block value => s!"{block} lists non-instruction {value}"
  | .wrongBlock value listed claimed => s!"{value} placed in {listed} claims {claimed}"
  | .placedTwice value => s!"{value} is placed twice"
  | .badTerminator block value mnemonic =>
    s!"{block} must end in exactly one terminator ({value} is {mnemonic})"
  | .latePhi value block => s!"phi {value} follows a non-phi in {block}"
  | .missingTarget block target => s!"{block} branches to missing {target}"
  | .usesVoid value used => s!"{value} uses void value {used}"
  | .usesUndefined value used => s!"{value} uses undefined value {used}"
  | .phiEdgeCount value edges block predecessors =>
    s!"phi {value} has {edges} incoming edges, {block} has {predecessors} predecessors"
  | .phiForeignEdge value pred => s!"phi {value} names non-predecessor {pred}"
  | .phiNotDominated used pred value =>
    s!"{used} does not dominate the end of {pred} for phi {value}"
  | .phiRepeatedEdge value => s!"phi {value} names a predecessor twice"
  | .notDominated used value => s!"{used} does not dominate its use in {value}"

/-- What can be wrong with a drafted function body. -/
inductive DraftError where
  /-- A load through something that is not a pointer. -/
  | loadThrough (ty : Ty)
  /-- A store of a value through something that does not point to its type. -/
  | storeThrough (value ptr : Ty)
  /-- A path of indices that does not fit the type. -/
  | badPath (pointee : Ty)
  /-- An address computed from something that is not a pointer. -/
  | pathFrom (ty : Ty)
  /-- A call through something that is not code. -/
  | callThrough (ty : Ty)
  /-- A call with too few or too many arguments. -/
  | argumentCount (count : Nat) (sig : Signature)
  /-- A part that an aggregate does not have. -/
  | extractIndex (index : Nat)
  /-- A value the function does not have. -/
  | unknownValue (id : ValueId)
  /-- Attributes for a parameter the function does not have. -/
  | noParameter (position : Nat)
  /-- An edge for a value that is not a phi. -/
  | notPhi (id : ValueId)
  /-- A function the module does not have. -/
  | unknownFunction (id : FuncId)
  /-- A global the module does not have. -/
  | unknownGlobal (id : GlobalId)
  deriving DecidableEq, Repr

/-- A complaint about a program. -/
inductive IrError where
  /-- A drafted body is wrong. -/
  | draft (function : String) (cause : DraftError)
  /-- A value the function does not have. -/
  | unknownValue (id : ValueId) (function : String)
  /-- A parameter the function does not have. -/
  | noParameter (function : String) (position : Nat)
  /-- An edge for a value that is not a phi. -/
  | notPhi (id : ValueId) (function : String)
  /-- A place that the function does not have. -/
  | noInsertPoint (point : InsertPoint) (function : String)
  /-- Something that is not a pointer was to be taken as one. -/
  | notPointer (ty : Ty) (operand : Operand)
  /-- A part that an aggregate does not have. -/
  | extractIndex (index : Nat)
  /-- A name declared with two signatures. -/
  | redeclared (name : String) (sig previous : Signature)
  /-- A second body for a function. -/
  | alreadyDefined (name : String)
  /-- A name that another function has. -/
  | nameTaken (name : String)
  /-- An initializer that lacks a part its type has. -/
  | noElement (init : Constant) (index : Nat)
  /-- A body without blocks. -/
  | noEntry (function : String)
  /-- A body whose first block can be entered again. -/
  | entryReentered (function : String)
  deriving DecidableEq, Repr

/-- A component of pointer metadata. -/
inductive Component where
  | base | bound | key | lock
  deriving DecidableEq, Repr

/-- What a component is called in a message. -/
def Component.name : Component → String
  | .base => "base"
  | .bound => "bound"
  | .key => "key"
  | .lock => "lock"

/-- Something that instrumentation takes for granted did not hold. -/
inductive Breach where
  /-- Metadata was asked of a value that is not an instruction. -/
  | notInstruction (value : ValueId) (function : String)
  /-- Placeholders stand in for something that is not a phi. -/
  | placeholderOfNonPhi (value : ValueId)
  /-- Metadata was asked of a constant that is not a pointer. -/
  | notPointerConstant (c : Constant)
  /-- An access larger than a signed word can say. -/
  | accessSize (bytes : Nat)
  deriving DecidableEq, Repr

/-- Why a request failed. -/
inductive Error where
  /-- Something taken for granted did not hold. -/
  | breach (cause : Breach)
  /-- A pointer without metadata. -/
  | missingMetadata (function : String) (value : ValueId)
  /-- A metadata component of the wrong type. -/
  | metadataType (value : ValueId) (component : Component) (expected found : Ty)
  /-- A metadata phi with the wrong number of edges. -/
  | phiArity (function : String) (phi : ValueId) (expected found : Nat)
  /-- A function body breaks a rule. -/
  | verification (function : String) (violation : Violation)
  /-- A program is wrong in some other way. -/
  | invalidIr (cause : IrError)
  /-- A handle of a function that does not exist. -/
  | unknownFunction (id : FuncId)
  /-- A handle of a global that does not exist. -/
  | unknownGlobal (id : GlobalId)
  /-- A configuration that asks for no safety at all. -/
  | noSafety
  /-- A question without an answer. -/
  | fault (cause : Fault)
  deriving DecidableEq, Repr

/-! ### Wording -/

private def invalidIrText (text : String) : String := "Invalid IR - " ++ text

private def unknownFunctionText (id : FuncId) : String := s!"Unknown function - {id}"

private def unknownGlobalText (id : GlobalId) : String := s!"Unknown global - {id}"

private def unknownValueText (id : ValueId) (function : String) : String :=
  s!"{id} is not a value of '{function}'"

private def noParameterText (function : String) (position : Nat) : String :=
  s!"'{function}' has no parameter {position}"

private def notPhiText (id : ValueId) (function : String) : String :=
  s!"{id} in '{function}' is not a phi"

private def extractIndexText (index : Nat) : String :=
  s!"extractvalue index {index} out of range"

/-- The wording of what is wrong with the drafted body of a function. A complaint that also arises
outside drafts is quoted in full. -/
def DraftError.text (function : String) : DraftError → String
  | .loadThrough ty => s!"load through non-pointer {ty}"
  | .storeThrough value ptr => s!"store of {value} through {ptr}"
  | .badPath pointee => s!"invalid getelementptr indices into {pointee}"
  | .pathFrom ty => s!"getelementptr on non-pointer {ty}"
  | .callThrough ty => s!"indirect call through {ty}"
  | .argumentCount count sig => s!"call with {count} arguments through {sig}"
  | .extractIndex index => extractIndexText index
  | .unknownValue id => invalidIrText (unknownValueText id function)
  | .noParameter position => invalidIrText (noParameterText function position)
  | .notPhi id => invalidIrText (notPhiText id function)
  | .unknownFunction id => unknownFunctionText id
  | .unknownGlobal id => unknownGlobalText id

/-- What is said of invalid code, without the words that come first. -/
def IrError.text : IrError → String
  | .draft function cause => cause.text function ++ s!" in '{function}'"
  | .unknownValue id function => unknownValueText id function
  | .noParameter function position => noParameterText function position
  | .notPhi id function => notPhiText id function
  | .noInsertPoint point function =>
    "insert point " ++ point.text ++ s!" is not in '{function}'"
  | .notPointer ty operand => s!"cannot reinterpret {ty} {operand} as i8*"
  | .extractIndex index => extractIndexText index
  | .redeclared name sig previous => s!"'{name}' redeclared as {sig}, previously {previous}"
  | .alreadyDefined name => s!"'{name}' is already defined"
  | .nameTaken name => s!"function name '{name}' is taken"
  | .noElement init index => s!"initializer {init} has no element {index}"
  | .noEntry function => s!"'{function}' has no entry block"
  | .entryReentered function => s!"entry block of '{function}' has predecessors"

/-- What is said of a broken contract. -/
def Breach.text : Breach → String
  | .notInstruction value function => s!"{value} is not an instruction of '{function}'"
  | .placeholderOfNonPhi value => s!"placeholder for non-phi {value}"
  | .notPointerConstant c => s!"metadata requested for non-pointer constant {c}"
  | .accessSize bytes => s!"access of {bytes} bytes"

/-- What is said of a fault. -/
def Fault.text : Fault → String
  | .danglingEdge => "an edge leads nowhere"
  | .missingParameter position => s!"there is no parameter {position}"
  | .cyclicDerivation ptr => s!"{ptr} is derived from itself"
  | .oversized ty => s!"no word can hold the size of {ty}"

/-- The message of an error. -/
def Error.message : Error → String
  | .breach cause => cause.text
  | .missingMetadata function value =>
    s!"Pointer value {value} in function '{function}' has no metadata"
  | .metadataType value component expected found =>
    "Metadata " ++ component.name ++ s!" of {value} must be {expected}, found {found}"
  | .phiArity function phi expected found =>
    s!"Metadata phi for {phi} in '{function}' has {found} incoming edges, expected {expected}"
  | .verification function violation =>
    s!"Verification of '{function}' failed: " ++ violation.text
  | .invalidIr cause => invalidIrText cause.text
  | .unknownFunction id => unknownFunctionText id
  | .unknownGlobal id => unknownGlobalText id
  | .noSafety => "Invalid configuration - neither spatial nor temporal safety is enabled"
  | .fault cause => cause.text

end PointerGuard
