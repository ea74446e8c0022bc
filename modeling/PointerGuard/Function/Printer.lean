import PointerGuard.Function

/-!
# Written form of functions

A function is written as a header and, if it has a body, its blocks with one instruction a line.
Instructions that were spliced in are marked, and a listed value that is no instruction is written
in angle brackets.
-/

namespace PointerGuard

/-- A list with a comma before each member. -/
private def afterCommas (items : List String) : String :=
  String.join (items.map (", " ++ ·))

/-- An instruction whose result has type `ty`, as it is written. -/
def InstKind.text (ty : Ty) : InstKind → String
  | .alloca allocated count =>
    s!"alloca {allocated}" ++ afterCommas (count.toList.map Operand.text)
  | .load ptr => s!"load {ty}, {ptr}"
  | .store value ptr => s!"store {value}, {ptr}"
  | .gep base indices => s!"getelementptr {base}" ++ afterCommas (indices.map Operand.text)
  | .cast op value => op.mnemonic ++ s!" {value} to {ty}"
  | .select cond ifTrue ifFalse => s!"select {cond}, {ifTrue}, {ifFalse}"
  | .phi incoming =>
    s!"phi {ty}" ++ (if incoming.isEmpty then "" else " ") ++
      ", ".intercalate (incoming.map fun (value, block) => s!"[{value}, {block}]")
  | .call callee args _ =>
    s!"call {ty} {callee}(" ++ ", ".intercalate (args.map Operand.text) ++ ")"
  | .extract aggregate index => s!"extractvalue {aggregate}, {index}"
  | .binary op lhs rhs => op.mnemonic ++ s!" {lhs}, {rhs}"
  | .icmp pred lhs rhs => "icmp " ++ pred.mnemonic ++ s!" {lhs}, {rhs}"
  | .jump target => s!"br {target}"
  | .branch cond thenBlock elseBlock => s!"br {cond}, {thenBlock}, {elseBlock}"
  | .ret (some value) => s!"ret {value}"
  | .ret none => "ret void"
  | .unreachable => "unreachable"

namespace Function

/-- A listed value as it is written: the value it defines, if it defines one, then what it does. -/
def instText (f : Function) (id : ValueId) : String :=
  match f.value? id with
  | none => s!"<dangling {id}>"
  | some ⟨_, .param _⟩ => s!"<param {id}>"
  | some ⟨ty, .inst inst⟩ =>
    (if ty.isVoid then "" else s!"{id} = ") ++ inst.kind.text ty ++
      (if inst.inserted then "  ; inserted" else "")

/-- A block as it is written: its name, then a line for each instruction. -/
def blockText (f : Function) (id : BlockId) : String :=
  s!"{id}:\n" ++ String.join ((f.instsOf id).map fun value => "  " ++ f.instText value ++ "\n")

/-- The parameters as the header shows them. -/
def paramTexts (f : Function) : List String :=
  f.params.map fun id =>
    (match f.valueType? id with
      | some ty => ty.text
      | none => "") ++ s!" {id}"

/-- The header: what the function returns, its name, its parameters and its handle. -/
def headerText (f : Function) : String :=
  (if f.isDeclaration then "declare " else "define ") ++ f.signature.ret.text ++ " @" ++ f.name ++
    "(" ++ ", ".intercalate f.paramTexts ++ (if f.signature.variadic then ", ..." else "") ++
    ")  ; @f" ++ toString f.id.index

/-- The text of a function, of a declaration only the header. -/
def text (f : Function) : String :=
  if f.isDeclaration then
    f.headerText ++ "\n"
  else
    f.headerText ++ " \x7b\n" ++ String.join (f.blockIds.map f.blockText) ++ "\x7d\n"

end Function

end PointerGuard
