import PointerGuard.Function.Verify
import PointerGuard.Module

/-!
# Verification of modules

A module is as good as its functions, which are verified in order.
-/

namespace PointerGuard

/-- Find the first rule that a function of the module breaks. -/
def Module.verify (m : Module) : Except Error Unit := m.functions.toList.forM Function.verify

end PointerGuard
