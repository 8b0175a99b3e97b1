import Speculator.Pass.Basic

/-!
# Propagation of known values

Replaces reads of variables by their known values.
-/

namespace Speculator

namespace Propagation

def debugConstant (e : Expr) : Visit ExprStep := do
  match e.kind with
  | .name "__debug__" =>
    if (← Visit.config).replaceBuiltinConstant && (← Visit.isBuiltin "__debug__") then
      return .replace (e.withKind (.const (.bool true)))
    return .keep
  | _ => return .keep

def applies (scope : Scope) (id : Ident) : Bool :=
  scope.propagates && scope.vars.locals.contains id && !scope.vars.reboundByNested.contains id

def knownVariable (e : Expr) : Visit ExprStep := do
  match e.kind with
  | .name id =>
    if !(← Visit.config).constantPropagation || !applies (← Visit.scope) id then return .keep
    match (← get).known.get? id with
    | none => return .keep
    | some value =>
      match ← Visit.literal? value e.pos with
      | none => return .keep
      | some new =>
        Visit.logQuoting e.pos.line ("constant propagation: replace " ++ id ++ " with " ++ value.repr)
        return .replace new
  | _ => return .keep

end Propagation

def Pass.debugConstant : Pass where
  leaveExpr := Propagation.debugConstant

def Pass.propagation : Pass where
  leaveExpr := Propagation.knownVariable

end Speculator
