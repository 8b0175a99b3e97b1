import Speculator.Tree.Substitute
import Speculator.Visit

/-!
# Specialized functions

A function with a fast version that is right only under guards.  Both versions are defined; the slow one keeps the
name of the function, and the support module calls the fast one as long as the guards hold:

    def f(x): <slow body>
    _ast_optimized = f
    def f(x): <fast body>
    f.__code__ = __fat__.replace_consts(f.__code__, {...})
    __fat__.specialize(_ast_optimized, f.__code__, [<guards>])
    f = _ast_optimized
    del _ast_optimized

The constants are replaced only if there are builtins with placeholders.
-/

namespace Speculator

/-- The name that the support module is imported under. -/
def supportName : Ident := "__fat__"

namespace Specialize

def placeholders (pos : Position) (copied : List (Ident × String)) : List (Ident × Expr) :=
  copied.map fun (name, text) => (name, ⟨pos, .const (.str text)⟩)

def patch (pos : Position) (copied : List (Ident × String)) : Expr :=
  ⟨pos, .dict ((placeholders pos copied).map Prod.snd) (copied.map fun (name, _) => ⟨pos, .name name⟩)⟩

def assign (pos : Position) (target value : Expr) : Stmt := ⟨pos, .assign [target] value⟩

def member (pos : Position) (id name : Ident) : Expr := ⟨pos, .attr ⟨pos, .name id⟩ name⟩

def supportCall (pos : Position) (name : Ident) (args : List Expr) : Expr :=
  ⟨pos, .call (member pos supportName name) args []⟩

/-- The definition of a specialized function, at the position of its slow version, which the variable `kept` holds
meanwhile. -/
def definitions (slow : Stmt) (fast : FunctionDef) (guards : GuardSet) (copied : List (Ident × String))
    (kept : Ident) : List Stmt :=
  let pos := slow.pos
  let name (id : Ident) : Expr := ⟨pos, .name id⟩
  let code := member pos fast.name "__code__"
  let body := Stmt.substituteList (placeholders pos copied) fast.body
  let patched :=
    if copied.isEmpty then []
    else [assign pos code (supportCall pos "replace_consts" [code, patch pos copied])]
  [slow, assign pos (name kept) (name fast.name),
    ⟨pos, .functionDef { fast with body := body, decorators := [] }⟩] ++
  patched ++
  [⟨pos, .expr (supportCall pos "specialize" [name kept, code, guards.toExpr supportName pos])⟩,
    assign pos (name fast.name) (name kept),
    ⟨pos, .delete [name kept]⟩]

/-- Defines a specialized function with the guards and placeholders of its scope. -/
def specialize (scope : Scope) (slow : Stmt) (fast : FunctionDef) : Visit (List Stmt) := do
  Visit.log slow.pos.line ("specialize function " ++ fast.name ++ ", guards: " ++ scope.guards.text)
  modify fun s => { s with needsSupport := true }
  let kept ← Visit.freshVariable "_ast_optimized"
  return definitions slow fast scope.guards scope.copied kept

end Specialize

end Speculator
