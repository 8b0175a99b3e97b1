import Speculator.Visit

/-!
# Passes

A pass looks at each node before its children are visited and again afterwards, when it may ask for a change.  Passes
do not visit trees themselves: they tell what a node becomes and whether that is visited again.
-/

namespace Speculator

/-- What an expression becomes. -/
inductive ExprStep where
  | keep
  | replace (e : Expr)
  /-- Another expression, which is visited first. -/
  | revisit (e : Expr)

/-- What a statement becomes. -/
inductive StmtStep where
  | keep
  | replace (s : Stmt)
  | splice (body : List Stmt)
  /-- A sequence of statements, which are visited first. -/
  | revisit (body : List Stmt)

def ExprStep.ofOption : Option Expr → ExprStep
  | some e => replace e
  | none => keep

def StmtStep.ofOption : Option Stmt → StmtStep
  | some s => replace s
  | none => keep

structure Pass where
  /-- Sees a statement before its children. -/
  enterStmt : Stmt → Visit Unit := fun _ => pure ()
  /-- Sees an expression before its children.  A result is visited in its place. -/
  enterExpr : Expr → Visit (Option Expr) := fun _ => pure none
  /-- Sees a statement after its children. -/
  leaveStmt : Stmt → Visit StmtStep := fun _ => pure .keep
  /-- Sees an expression after its children. -/
  leaveExpr : Expr → Visit ExprStep := fun _ => pure .keep

end Speculator
