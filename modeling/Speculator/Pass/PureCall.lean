import Speculator.Pass.Basic

/-!
# Calls of pure functions

Evaluates calls of pure functions and methods with literal arguments.  The result for a builtin function is right only
as long as the builtin is not replaced, so it needs a guard.
-/

namespace Speculator

namespace PureCall

/-- The result of a call and its literal, unless an argument is no literal, the contract does not hold or the result
is too large. -/
def evaluate (c : Contract) (receiver : Option Value) (e : Expr) (args : List Expr) (keywords : List Keyword) :
    Visit (Option (Value × Expr)) := do
  let limits := (← Visit.config).limits
  match keywords, Expr.literals? args with
  | [], some values =>
    match ← Visit.ofExcept (c.evaluate limits receiver values) with
    | some result => return (limits.literal? result e.pos).map fun new => (result, new)
    | none => return none
  | _, _ => return none

def method (e : Expr) : Visit ExprStep := do
  match e.kind with
  | .call ⟨_, .attr ⟨_, .const receiver⟩ name⟩ args keywords =>
    match (← Visit.config).catalog.method? receiver.typeName name with
    | none => return .keep
    | some c =>
      match ← evaluate c (some receiver) e args keywords with
      | none => return .keep
      | some (result, new) =>
        Visit.logQuoting e.pos.line ("call pure method: replace " ++ e.summary ++ " with " ++ result.summary)
        return .replace new
  | _ => return .keep

def builtin (e : Expr) : Visit ExprStep := do
  match e.kind with
  | .call ⟨_, .name id⟩ args keywords =>
    match (← Visit.config).catalog.builtin? id with
    | none => return .keep
    | some c =>
      if !(← Visit.isBuiltin id) then return .keep
      match ← evaluate c none e args keywords with
      | none => return .keep
      | some (result, new) =>
        if !(← Visit.addGuard (.builtins [id])) then return .keep
        Visit.logQuoting e.pos.line ("call pure builtin function: replace " ++ e.summary ++ " with " ++
          result.summary)
        return .replace new
  | _ => return .keep

end PureCall

def Pass.pureMethod : Pass where
  leaveExpr := PureCall.method

def Pass.pureBuiltin : Pass where
  leaveExpr := PureCall.builtin

end Speculator
