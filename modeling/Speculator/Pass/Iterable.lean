import Speculator.Number.Progression
import Speculator.Pass.Basic

/-!
# Iterables of loops

Replaces the iterable of a loop by a constant: displays of constants become immutable, and short ranges become tuples.
-/

namespace Speculator

namespace Iterable

def immutable? (display : Value) : Option Value :=
  match display with
  | .list items => if items.all Value.isConstant then some (.tuple items) else none
  | .set items =>
    if !items.all Value.isConstant then none else if items.isEmpty then some (.tuple []) else some (.frozenSet items)
  | _ => none

def constantDisplay? (limits : Limits) (iter : Expr) : Option Expr :=
  match iter.kind with
  | .dict [] _ => limits.literal? (.tuple []) iter.pos
  | .list _ | .set _ => do
    let value ← immutable? (← iter.literal?)
    if value.length?.all (· ≤ limits.maxSeqLen) then limits.literal? value iter.pos else none
  | _ => none

/-- The integers of a range with one to three arguments, if they are at most `most`. -/
def rangeItems? (most : Nat) (args : List Int) : Option (List Int) :=
  match args with
  | [stop] => within 0 stop 1
  | [start, stop] => within start stop 1
  | [start, stop, step] => within start stop step
  | _ => none
where
  within (start stop step : Int) : Option (List Int) :=
    if step == 0 || most < Number.termCount start stop step then none else some (Number.terms start stop step)

def integer? (e : Expr) : Option Int := e.constant?.bind Value.asInt?

def rangeTuple (iter : Expr) : Visit (Option Expr) := do
  match iter.kind with
  | .call ⟨_, .name "range"⟩ args [] =>
    if !(← Visit.isBuiltin "range") then return none
    let limits := (← Visit.config).limits
    let new? := do
      let items ← rangeItems? limits.maxSeqLen (← args.mapM integer?)
      limits.literal? (.tuple (items.map .int)) iter.pos
    match new? with
    | some new => return if ← Visit.addGuard (.builtins ["range"]) then some new else none
    | none => return none
  | _ => return none

def leaveStmt (simplify : Expr → Visit (Option Expr)) (s : Stmt) : Visit StmtStep := do
  match s.kind with
  | .forLoop target iter body orelse false =>
    if !(← Visit.config).simplifyIterable then return .keep
    match ← simplify iter with
    | some new => return .replace (s.withKind (.forLoop target new body orelse false))
    | none => return .keep
  | _ => return .keep

end Iterable

def Pass.constantIterable : Pass where
  leaveStmt := Iterable.leaveStmt fun iter => return Iterable.constantDisplay? (← Visit.config).limits iter

def Pass.rangeToTuple : Pass where
  leaveStmt := Iterable.leaveStmt Iterable.rangeTuple

end Speculator
