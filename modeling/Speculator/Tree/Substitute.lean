import Speculator.Tree.Basic

/-!
# Substitution

Replacing the names that a tree reads by expressions.  A replacement takes the position of the name.  Names that are
stored are kept, and scopes are not entered: of a nested scope only the parts that are evaluated outside of it are
changed.
-/

namespace Speculator

def replacement (table : List (Ident × Expr)) (id : Ident) : ExprKind :=
  match table.lookup id with
  | some e => e.kind
  | none => .name id

mutual

def Expr.substitute (table : List (Ident × Expr)) : Expr → Expr
  | ⟨pos, kind⟩ => ⟨pos, kind.substitute table⟩

def ExprKind.substitute (table : List (Ident × Expr)) : ExprKind → ExprKind
  | .const v => .const v
  | .name id => replacement table id
  | .boolOp op values => .boolOp op (Expr.substituteList table values)
  | .binOp left op right => .binOp (left.substitute table) op (right.substitute table)
  | .unaryOp op operand => .unaryOp op (operand.substitute table)
  | .lambda params body => .lambda (params.substitute table) body
  | .ifExp test body orelse => .ifExp (test.substitute table) (body.substitute table) (orelse.substitute table)
  | .dict keys values => .dict (Expr.substituteList table keys) (Expr.substituteList table values)
  | .set items => .set (Expr.substituteList table items)
  | .list items => .list (Expr.substituteList table items)
  | .tuple items => .tuple (Expr.substituteList table items)
  | .listComp item generators => .listComp item (Generator.substituteFirst table generators)
  | .setComp item generators => .setComp item (Generator.substituteFirst table generators)
  | .generatorExp item generators => .generatorExp item (Generator.substituteFirst table generators)
  | .dictComp key value generators => .dictComp key value (Generator.substituteFirst table generators)
  | .await value => .await (value.substitute table)
  | .yield value => .yield (Expr.substituteOption table value)
  | .yieldFrom value => .yieldFrom (value.substitute table)
  | .starred value => .starred (value.substitute table)
  | .compare left ops comparators => .compare (left.substitute table) ops (Expr.substituteList table comparators)
  | .call func args keywords =>
    .call (func.substitute table) (Expr.substituteList table args) (Keyword.substituteList table keywords)
  | .attr value name => .attr (value.substitute table) name
  | .subscript value slice => .subscript (value.substitute table) (slice.substitute table)
  | .slice lower upper step =>
    .slice (Expr.substituteOption table lower) (Expr.substituteOption table upper) (Expr.substituteOption table step)

def Expr.substituteOption (table : List (Ident × Expr)) : Option Expr → Option Expr
  | none => none
  | some e => some (e.substitute table)

def Expr.substituteList (table : List (Ident × Expr)) : List Expr → List Expr
  | [] => []
  | e :: es => e.substitute table :: Expr.substituteList table es

def Expr.substituteOptions (table : List (Ident × Expr)) : List (Option Expr) → List (Option Expr)
  | [] => []
  | e :: es => Expr.substituteOption table e :: Expr.substituteOptions table es

/-- The defaults of parameters are evaluated outside of the function. -/
def Params.substitute (table : List (Ident × Expr)) : Params → Params
  | ⟨args, vararg, kwOnly, kwDefaults, kwarg, defaults⟩ =>
    ⟨args, vararg, kwOnly, Expr.substituteOptions table kwDefaults, kwarg, Expr.substituteList table defaults⟩

def Keyword.substituteList (table : List (Ident × Expr)) : List Keyword → List Keyword
  | [] => []
  | ⟨name, value⟩ :: ks => ⟨name, value.substitute table⟩ :: Keyword.substituteList table ks

/-- The first iterable of a comprehension is evaluated outside of it. -/
def Generator.substituteFirst (table : List (Ident × Expr)) : List Generator → List Generator
  | [] => []
  | ⟨target, iter, conditions, isAsync⟩ :: gs => ⟨target, iter.substitute table, conditions, isAsync⟩ :: gs

end

def Expr.substituteBase (table : List (Ident × Expr)) (e : Expr) : Expr :=
  match e.kind with
  | .name _ => e
  | _ => e.substitute table

mutual

def Expr.substituteTarget (table : List (Ident × Expr)) : Expr → Expr
  | ⟨pos, .name id⟩ => ⟨pos, .name id⟩
  | ⟨pos, .tuple items⟩ => ⟨pos, .tuple (Expr.substituteTargets table items)⟩
  | ⟨pos, .list items⟩ => ⟨pos, .list (Expr.substituteTargets table items)⟩
  | ⟨pos, .starred value⟩ => ⟨pos, .starred (value.substituteTarget table)⟩
  | ⟨pos, .attr value name⟩ => ⟨pos, .attr (value.substituteBase table) name⟩
  | ⟨pos, .subscript value slice⟩ => ⟨pos, .subscript (value.substituteBase table) (slice.substitute table)⟩
  | e => e.substitute table

def Expr.substituteTargets (table : List (Ident × Expr)) : List Expr → List Expr
  | [] => []
  | e :: es => e.substituteTarget table :: Expr.substituteTargets table es

end

def WithItem.substitute (table : List (Ident × Expr)) (item : WithItem) : WithItem :=
  ⟨item.context.substitute table, item.target.map (Expr.substituteTarget table)⟩

mutual

def Stmt.substitute (table : List (Ident × Expr)) : Stmt → Stmt
  | ⟨pos, kind⟩ => ⟨pos, kind.substitute table⟩

def StmtKind.substitute (table : List (Ident × Expr)) : StmtKind → StmtKind
  | .functionDef ⟨name, params, body, decorators, isAsync⟩ =>
    .functionDef ⟨name, params.substitute table, body, Expr.substituteList table decorators, isAsync⟩
  | .classDef ⟨name, bases, keywords, body, decorators⟩ =>
    .classDef ⟨name, Expr.substituteList table bases, Keyword.substituteList table keywords, body,
      Expr.substituteList table decorators⟩
  | .ret value => .ret (Expr.substituteOption table value)
  | .delete targets => .delete (Expr.substituteTargets table targets)
  | .assign targets value => .assign (Expr.substituteTargets table targets) (value.substitute table)
  | .augAssign target op value => .augAssign (target.substituteTarget table) op (value.substitute table)
  | .forLoop target iter body orelse isAsync =>
    .forLoop (target.substituteTarget table) (iter.substitute table) (Stmt.substituteList table body)
      (Stmt.substituteList table orelse) isAsync
  | .whileLoop test body orelse =>
    .whileLoop (test.substitute table) (Stmt.substituteList table body) (Stmt.substituteList table orelse)
  | .cond test body orelse =>
    .cond (test.substitute table) (Stmt.substituteList table body) (Stmt.substituteList table orelse)
  | .withBlock items body isAsync =>
    .withBlock (items.map (WithItem.substitute table)) (Stmt.substituteList table body) isAsync
  | .raise exc cause => .raise (Expr.substituteOption table exc) (Expr.substituteOption table cause)
  | .tryBlock body handlers orelse final =>
    .tryBlock (Stmt.substituteList table body) (Handler.substituteList table handlers)
      (Stmt.substituteList table orelse) (Stmt.substituteList table final)
  | .expr value => .expr (value.substitute table)
  | .importModules names => .importModules names
  | .importFrom module names level => .importFrom module names level
  | .globals names => .globals names
  | .nonlocals names => .nonlocals names
  | .pass => .pass
  | .brk => .brk
  | .cont => .cont

def Stmt.substituteList (table : List (Ident × Expr)) : List Stmt → List Stmt
  | [] => []
  | s :: ss => s.substitute table :: Stmt.substituteList table ss

def Handler.substituteList (table : List (Ident × Expr)) : List Handler → List Handler
  | [] => []
  | ⟨pos, type, name, body⟩ :: hs =>
    ⟨pos, Expr.substituteOption table type, name, Stmt.substituteList table body⟩ ::
      Handler.substituteList table hs

end

end Speculator
