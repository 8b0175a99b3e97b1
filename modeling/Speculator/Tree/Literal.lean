import Speculator.Limits
import Speculator.Tree.Basic
import Speculator.Value.Collection
import Speculator.Value.Operation

/-!
# Literal expressions

The values denoted by expressions that need no evaluation: literal nodes, negated numbers and displays of literals;
and the expressions that denote a value.
-/

namespace Speculator

def ExprKind.scalar? : ExprKind → Option Value
  | .const v => some v
  | .unaryOp .minus ⟨_, .const v⟩ => if v.isNumber then (Value.unary .minus v).toOption else none
  | _ => none

mutual

/-- The value of a literal node, a negated literal number, or a tuple of constants. -/
def Expr.constant? : Expr → Option Value
  | ⟨_, .tuple items⟩ => (Expr.constants? items).map .tuple
  | ⟨_, kind⟩ => kind.scalar?

def Expr.constants? : List Expr → Option (List Value)
  | [] => some []
  | e :: es =>
    match e.constant?, Expr.constants? es with
    | some v, some vs => some (v :: vs)
    | _, _ => none

end

mutual

/-- The value of a literal expression: a constant, or a display of literals. -/
def Expr.literal? : Expr → Option Value
  | ⟨_, .tuple items⟩ => (Expr.literals? items).map .tuple
  | ⟨_, .list items⟩ => (Expr.literals? items).map .list
  | ⟨_, .set items⟩ =>
    match Expr.literals? items with
    | some vs => ((Value.collectSet vs).map .set).toOption
    | none => none
  | ⟨_, .dict keys values⟩ =>
    match Expr.literals? keys, Expr.literals? values with
    | some ks, some vs => ((Value.collectDict (ks.zip vs)).map .dict).toOption
    | _, _ => none
  | ⟨_, kind⟩ => kind.scalar?

def Expr.literals? : List Expr → Option (List Value)
  | [] => some []
  | e :: es =>
    match e.literal?, Expr.literals? es with
    | some v, some vs => some (v :: vs)
    | _, _ => none

end

mutual

/-- The expression that denotes a value.  Lists, sets and dictionaries have no literal node and become displays. -/
def Value.toExpr (pos : Position) : Value → Expr
  | .tuple items =>
    if (Value.tuple items).isConstant then ⟨pos, .const (.tuple items)⟩
    else ⟨pos, .tuple (Value.toExprs pos items)⟩
  | .frozenSet items =>
    if (Value.frozenSet items).isConstant then ⟨pos, .const (.frozenSet items)⟩
    else ⟨pos, .set (Value.toExprs pos items)⟩
  | .list items => ⟨pos, .list (Value.toExprs pos items)⟩
  | .set items => ⟨pos, .set (Value.toExprs pos items)⟩
  | .dict pairs => ⟨pos, .dict (Value.keyExprs pos pairs) (Value.valueExprs pos pairs)⟩
  | v => ⟨pos, .const v⟩

def Value.toExprs (pos : Position) : List Value → List Expr
  | [] => []
  | v :: vs => v.toExpr pos :: Value.toExprs pos vs

def Value.keyExprs (pos : Position) : List (Value × Value) → List Expr
  | [] => []
  | (k, _) :: ps => k.toExpr pos :: Value.keyExprs pos ps

def Value.valueExprs (pos : Position) : List (Value × Value) → List Expr
  | [] => []
  | (_, v) :: ps => v.toExpr pos :: Value.valueExprs pos ps

end

/-- The expression that denotes a value, unless the value is too large to be stored in a tree. -/
def Limits.literal? (l : Limits) (v : Value) (pos : Position) : Option Expr :=
  if l.admits v then some (v.toExpr pos) else none

end Speculator
