import PointerGuard.Function.Printer
import PointerGuard.Module

/-!
# Written form of modules

A module is written as a remark with its name and target, a line for each
global, a remark for each constructor, and its functions, a blank line before
each.
-/

namespace PointerGuard

/-- The line of a global. -/
def Global.text (g : Global) : String :=
  let kind := if g.constant then "constant" else "global"
  let value := match g.initializer with
    | some init => kind ++ " " ++ init.text
    | none => "external " ++ kind ++ " " ++ g.valueType.text
  "@g" ++ toString g.id.index ++ " = " ++ value ++ "  ; " ++ g.name ++ "\n"

/-- The text of a module. -/
def Module.text (m : Module) : String :=
  "; module '" ++ m.name ++ "' (" ++ toString m.width.bits ++ "-bit)\n" ++
    String.join (m.globals.toList.map Global.text) ++
    String.join (m.constructors.map fun id => "; constructor @f" ++ toString id.index ++ "\n") ++
    String.join (m.functions.toList.map fun f => "\n" ++ f.text)

/-- The texts of the functions that have a body, in order. -/
def Module.bodyTexts (m : Module) : List String :=
  (m.functions.toList.filter (!·.isDeclaration)).map Function.text

end PointerGuard
