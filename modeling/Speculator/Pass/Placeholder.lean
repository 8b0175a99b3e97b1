import Speculator.Pass.Basic

/-!
# Placeholders of builtins

Chooses the builtins that a specialized function reads from its constants.  Their reads become literal texts that
stand for the builtins and that no other literal of the module equals.
-/

namespace Speculator

namespace Placeholder

def choose (id : Ident) : Visit Unit := do
  let config ← Visit.config
  if !config.copyBuiltinToConstant || id == "super" || !config.copyBuiltinNames.contains id then return
  if (← Visit.scope).hasCopied id || !(← Visit.isBuiltin id) then return
  if ← Visit.addGuard (.builtins [id]) then
    let placeholder ← Visit.newText ("LOAD_GLOBAL " ++ id)
    Visit.modifyScope fun s => { s with copied := s.copied ++ [(id, placeholder)] }

end Placeholder

def Pass.placeholder : Pass where
  leaveExpr e := do
    if let .name id := e.kind then Placeholder.choose id
    return .keep

end Speculator
