import Speculator.Tree.Basic
import Speculator.Value.Equality

/-!
# Equality of trees

Two trees are equal when they have the same nodes at the same positions.  Floats in literals are compared as
numbers, so a literal NaN makes a tree differ from itself.
-/

namespace Speculator

mutual

def Expr.same : Expr → Expr → Bool
  | ⟨p, a⟩, ⟨q, b⟩ => p == q && ExprKind.same a b

def ExprKind.same : ExprKind → ExprKind → Bool
  | .const v, .const w => v == w
  | .name a, .name b => a == b
  | .boolOp o as, .boolOp p bs => o == p && Expr.sameList as bs
  | .binOp a o b, .binOp c p d => o == p && a.same c && b.same d
  | .unaryOp o a, .unaryOp p b => o == p && a.same b
  | .lambda p a, .lambda q b => p.same q && a.same b
  | .ifExp a b c, .ifExp d e f => a.same d && b.same e && c.same f
  | .dict ks vs, .dict ls ws => Expr.sameList ks ls && Expr.sameList vs ws
  | .set as, .set bs => Expr.sameList as bs
  | .list as, .list bs => Expr.sameList as bs
  | .tuple as, .tuple bs => Expr.sameList as bs
  | .listComp a gs, .listComp b hs => a.same b && Generator.sameList gs hs
  | .setComp a gs, .setComp b hs => a.same b && Generator.sameList gs hs
  | .generatorExp a gs, .generatorExp b hs => a.same b && Generator.sameList gs hs
  | .dictComp a b gs, .dictComp c d hs => a.same c && b.same d && Generator.sameList gs hs
  | .await a, .await b => a.same b
  | .yield a, .yield b => Expr.sameOption a b
  | .yieldFrom a, .yieldFrom b => a.same b
  | .starred a, .starred b => a.same b
  | .compare a os as, .compare b ps bs => a.same b && os == ps && Expr.sameList as bs
  | .call f as ks, .call g bs ls => f.same g && Expr.sameList as bs && Keyword.sameList ks ls
  | .attr a n, .attr b m => n == m && a.same b
  | .subscript a b, .subscript c d => a.same c && b.same d
  | .slice a b c, .slice d e f => Expr.sameOption a d && Expr.sameOption b e && Expr.sameOption c f
  | _, _ => false

def Expr.sameOption : Option Expr → Option Expr → Bool
  | none, none => true
  | some a, some b => a.same b
  | _, _ => false

def Expr.sameList : List Expr → List Expr → Bool
  | [], [] => true
  | a :: as, b :: bs => a.same b && Expr.sameList as bs
  | _, _ => false

def Expr.sameOptions : List (Option Expr) → List (Option Expr) → Bool
  | [], [] => true
  | a :: as, b :: bs => Expr.sameOption a b && Expr.sameOptions as bs
  | _, _ => false

def Params.same : Params → Params → Bool
  | ⟨as, v, os, kd, kw, ds⟩, ⟨as', v', os', kd', kw', ds'⟩ =>
    as == as' && v == v' && os == os' && Expr.sameOptions kd kd' && kw == kw' && Expr.sameList ds ds'

def Keyword.sameList : List Keyword → List Keyword → Bool
  | [], [] => true
  | ⟨n, a⟩ :: as, ⟨m, b⟩ :: bs => n == m && a.same b && Keyword.sameList as bs
  | _, _ => false

def Generator.sameList : List Generator → List Generator → Bool
  | [], [] => true
  | ⟨t, i, cs, x⟩ :: as, ⟨t', i', cs', x'⟩ :: bs =>
    t.same t' && i.same i' && Expr.sameList cs cs' && x == x' && Generator.sameList as bs
  | _, _ => false

end

def WithItem.same (a b : WithItem) : Bool := a.context.same b.context && Expr.sameOption a.target b.target

def WithItem.sameList : List WithItem → List WithItem → Bool
  | [], [] => true
  | a :: as, b :: bs => a.same b && WithItem.sameList as bs
  | _, _ => false

mutual

def Stmt.same : Stmt → Stmt → Bool
  | ⟨p, a⟩, ⟨q, b⟩ => p == q && StmtKind.same a b

def StmtKind.same : StmtKind → StmtKind → Bool
  | .functionDef f, .functionDef g => f.same g
  | .classDef c, .classDef d => c.same d
  | .ret a, .ret b => Expr.sameOption a b
  | .delete as, .delete bs => Expr.sameList as bs
  | .assign as a, .assign bs b => Expr.sameList as bs && a.same b
  | .augAssign t o a, .augAssign u p b => t.same u && o == p && a.same b
  | .forLoop t i b o x, .forLoop t' i' b' o' x' =>
    t.same t' && i.same i' && Stmt.sameList b b' && Stmt.sameList o o' && x == x'
  | .whileLoop t b o, .whileLoop t' b' o' => t.same t' && Stmt.sameList b b' && Stmt.sameList o o'
  | .cond t b o, .cond t' b' o' => t.same t' && Stmt.sameList b b' && Stmt.sameList o o'
  | .withBlock is b x, .withBlock is' b' x' => WithItem.sameList is is' && Stmt.sameList b b' && x == x'
  | .raise a b, .raise c d => Expr.sameOption a c && Expr.sameOption b d
  | .tryBlock b hs o f, .tryBlock b' hs' o' f' =>
    Stmt.sameList b b' && Handler.sameList hs hs' && Stmt.sameList o o' && Stmt.sameList f f'
  | .importModules as, .importModules bs => as == bs
  | .importFrom m as l, .importFrom m' bs l' => m == m' && as == bs && l == l'
  | .globals as, .globals bs => as == bs
  | .nonlocals as, .nonlocals bs => as == bs
  | .expr a, .expr b => a.same b
  | .pass, .pass => true
  | .brk, .brk => true
  | .cont, .cont => true
  | _, _ => false

def FunctionDef.same : FunctionDef → FunctionDef → Bool
  | ⟨n, p, b, ds, x⟩, ⟨n', p', b', ds', x'⟩ =>
    n == n' && p.same p' && Stmt.sameList b b' && Expr.sameList ds ds' && x == x'

def ClassDef.same : ClassDef → ClassDef → Bool
  | ⟨n, bs, ks, b, ds⟩, ⟨n', bs', ks', b', ds'⟩ =>
    n == n' && Expr.sameList bs bs' && Keyword.sameList ks ks' && Stmt.sameList b b' && Expr.sameList ds ds'

def Stmt.sameList : List Stmt → List Stmt → Bool
  | [], [] => true
  | a :: as, b :: bs => a.same b && Stmt.sameList as bs
  | _, _ => false

def Handler.sameList : List Handler → List Handler → Bool
  | [], [] => true
  | ⟨p, t, n, b⟩ :: as, ⟨p', t', n', b'⟩ :: bs =>
    p == p' && Expr.sameOption t t' && n == n' && Stmt.sameList b b' && Handler.sameList as bs
  | _, _ => false

end

instance : BEq Expr := ⟨Expr.same⟩
instance : BEq Stmt := ⟨Stmt.same⟩
instance : BEq Module := ⟨fun a b => Stmt.sameList a.body b.body⟩

end Speculator
