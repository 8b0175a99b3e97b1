import Speculator.Pass.Basic
import Speculator.Tree.Substitute

/-!
# Unrolling

Replaces loops and comprehensions over few constants by the sequence of their iterations.
-/

namespace Speculator

def Node.stopsLoop : Node → Bool
  | .stmt ⟨_, .brk⟩ | .stmt ⟨_, .cont⟩ | .stmt ⟨_, .raise _ _⟩ => true
  | _ => false

def Node.stmt? : Node → Option Stmt
  | .stmt s => some s
  | _ => none

namespace Unrolling

def countAllowed (most : Nat) {α : Type} (items : List α) : Bool := !items.isEmpty && decide (items.length ≤ most)

/-! ### Comprehensions -/

/-- A comprehension of one name over an iterable without conditions; `display` takes other items. -/
structure Comprehension where
  iter : Expr
  target : Ident
  parts : List Expr
  display : (Expr → List Expr) → ExprKind

def onlyGenerator? : List Generator → Option (Ident × Expr)
  | [⟨target, iter, [], false⟩] => target.name?.map fun id => (id, iter)
  | _ => none

def comprehension? (e : Expr) : Option Comprehension :=
  match e.kind with
  | .listComp item generators =>
    (onlyGenerator? generators).map fun (id, iter) => ⟨iter, id, [item], fun f => .list (f item)⟩
  | .setComp item generators =>
    (onlyGenerator? generators).map fun (id, iter) => ⟨iter, id, [item], fun f => .set (f item)⟩
  | .dictComp key value generators =>
    (onlyGenerator? generators).map fun (id, iter) => ⟨iter, id, [key, value], fun f => .dict (f key) (f value)⟩
  | _ => none

def constantItems? (iter : Expr) : Option (List Value) :=
  match iter.constant? with
  | some (.str s) => Value.items? false (.str s)
  | some (.bytes b) => Value.items? false (.bytes b)
  | some (.tuple items) => some items
  | _ => none

/-- Whether the items mean the same outside of the comprehension.  They may not open scopes, and in a class, whose
variables are not visible inside, they may only read the target. -/
def movable (kind : ScopeKind) (c : Comprehension) : Bool :=
  c.parts.all fun part => !part.hasScope && (kind != .classBody || part.names.all (· == c.target))

def unrolledComprehension? (config : Config) (kind : ScopeKind) (e : Expr) : Option (Expr × Nat) := do
  let c ← comprehension? e
  let items ← constantItems? c.iter
  if movable kind c && countAllowed config.unrollLoops items then
    let literals ← items.mapM fun item => config.limits.literal? item c.iter.pos
    some (e.withKind (c.display fun part => literals.map fun l => part.substitute [(c.target, l)]), items.length)
  else none

def enterExpr (e : Expr) : Visit (Option Expr) := do
  match unrolledComprehension? (← Visit.config) (← Visit.scope).kind e with
  | some (new, count) =>
    Visit.log e.pos.line ("unroll comprehension (" ++ toString count ++ " items)")
    return some new
  | none => return none

/-! ### Loops -/

def iterations (s : Stmt) (target : Expr) (body : List Stmt) (literals : List Expr) : List Stmt :=
  literals.flatMap fun l => s.withKind (.assign [target] l) :: body

def leaveStmt (s : Stmt) : Visit StmtStep := do
  match s.kind with
  | .forLoop target iter body orelse false =>
    let config ← Visit.config
    match target.name?, iter.constant? with
    | some _, some (.tuple items) =>
      if !countAllowed config.unrollLoops items then return .keep
      match ((s.nodes Node.inScope).find? Node.stopsLoop).bind Node.stmt? with
      | some stop =>
        Visit.log s.pos.line ("cannot unroll loop: " ++ stop.summary ++ " is used at line " ++ toString stop.pos.line)
        return .keep
      | none =>
        match items.mapM fun item => config.limits.literal? item iter.pos with
        | some literals =>
          Visit.log s.pos.line ("unroll loop (" ++ toString items.length ++ " iterations)")
          return .revisit (iterations s target body literals ++ orelse)
        | none => return .keep
    | _, _ => return .keep
  | _ => return .keep

end Unrolling

def Pass.unrolling : Pass where
  enterExpr := Unrolling.enterExpr
  leaveStmt := Unrolling.leaveStmt

end Speculator
