import Speculator.Pass.DeadCode
import Speculator.Pass.Folding
import Speculator.Pass.Inlining
import Speculator.Pass.Iterable
import Speculator.Pass.Placeholder
import Speculator.Pass.Propagation
import Speculator.Pass.PureCall
import Speculator.Pass.Tracking
import Speculator.Pass.Unrolling
import Speculator.Specialize

/-!
# Traversal

Visits trees with the passes of a stage.  Each node is seen by the passes before its children, then the children are
visited, then the passes see the node with the new children.  A change that keeps the kind of the node hands it to
the next pass; any other change ends the sequence of passes.

Changed nodes may be visited again, so that the depth of a traversal is not bounded by the depth of the tree.
`visitor` takes the bound as an argument.
-/

namespace Speculator

def Stage.passes : Stage → List Pass
  | .generic | .restricted =>
    [Pass.tracking, Pass.debugConstant, Pass.propagation, Pass.folding, Pass.pureMethod, Pass.constantIterable,
      Pass.unrolling, Pass.deadCode, Pass.inlining]
  | .specialize => [Pass.pureBuiltin, Pass.rangeToTuple, Pass.inlining, Pass.placeholder]

/-- The visits of expressions and statements.  A statement may become several ones, or none. -/
structure Visitor where
  expr : Expr → Visit Expr
  stmt : Stmt → Visit (List Stmt)

namespace Visitor

/-! ### Parts of trees -/

def option (v : Visitor) (e : Option Expr) : Visit (Option Expr) := e.mapM v.expr

def keyword (v : Visitor) (k : Keyword) : Visit Keyword := return ⟨k.name, ← v.expr k.value⟩

def params (v : Visitor) (p : Params) : Visit Params := do
  let defaults ← p.defaults.mapM v.expr
  let kwDefaults ← p.kwDefaults.mapM v.option
  return { p with defaults := defaults, kwDefaults := kwDefaults }

def base (v : Visitor) (e : Expr) : Visit Expr :=
  match e.kind with
  | .name _ => return e
  | _ => v.expr e

mutual

def target (v : Visitor) : Expr → Visit Expr
  | ⟨pos, .name id⟩ => return ⟨pos, .name id⟩
  | ⟨pos, .tuple items⟩ => return ⟨pos, .tuple (← v.targets items)⟩
  | ⟨pos, .list items⟩ => return ⟨pos, .list (← v.targets items)⟩
  | ⟨pos, .starred value⟩ => return ⟨pos, .starred (← v.target value)⟩
  | ⟨pos, .attr value name⟩ => return ⟨pos, .attr (← v.base value) name⟩
  | ⟨pos, .subscript value slice⟩ => do
    let value ← v.base value
    return ⟨pos, .subscript value (← v.expr slice)⟩
  | e => v.expr e

def targets (v : Visitor) : List Expr → Visit (List Expr)
  | [] => return []
  | e :: es => do
    let e ← v.target e
    return e :: (← v.targets es)

end

/-- Visits the statements of a body.  A body that must not be empty gets a `pass` statement. -/
def body (v : Visitor) (required : Bool) (body : List Stmt) : Visit (List Stmt) := do
  let visited ← body.flatMapM v.stmt
  let ctx ← read
  let trimmed ←
    if ctx.stage.trims && ctx.config.removeDeadCode then DeadCode.trimBody visited else pure visited
  match required && trimmed.isEmpty, body with
  | true, first :: _ => return [first.withKind .pass]
  | _, _ => return trimmed

/-! ### Children -/

def exprChildren (v : Visitor) (e : Expr) : Visit Expr := do
  match e.kind with
  | .boolOp op values => return e.withKind (.boolOp op (← values.mapM v.expr))
  | .binOp left op right =>
    let left ← v.expr left
    return e.withKind (.binOp left op (← v.expr right))
  | .unaryOp op operand => return e.withKind (.unaryOp op (← v.expr operand))
  | .ifExp test body orelse =>
    let test ← v.expr test
    let body ← v.expr body
    return e.withKind (.ifExp test body (← v.expr orelse))
  | .dict keys values =>
    let keys ← keys.mapM v.expr
    return e.withKind (.dict keys (← values.mapM v.expr))
  | .set items => return e.withKind (.set (← items.mapM v.expr))
  | .list items => return e.withKind (.list (← items.mapM v.expr))
  | .tuple items => return e.withKind (.tuple (← items.mapM v.expr))
  | .await value => return e.withKind (.await (← v.expr value))
  | .yield value => return e.withKind (.yield (← v.option value))
  | .yieldFrom value => return e.withKind (.yieldFrom (← v.expr value))
  | .starred value => return e.withKind (.starred (← v.expr value))
  | .compare left ops comparators =>
    let left ← v.expr left
    return e.withKind (.compare left ops (← comparators.mapM v.expr))
  | .call func args keywords =>
    let func ← v.expr func
    let args ← args.mapM v.expr
    return e.withKind (.call func args (← keywords.mapM v.keyword))
  | .attr value name => return e.withKind (.attr (← v.expr value) name)
  | .subscript value slice =>
    let value ← v.expr value
    return e.withKind (.subscript value (← v.expr slice))
  | .slice lower upper step =>
    let lower ← v.option lower
    let upper ← v.option upper
    return e.withKind (.slice lower upper (← v.option step))
  | .const _ | .name _ | .lambda .. | .listComp .. | .setComp .. | .generatorExp .. | .dictComp .. => return e

def withItem (v : Visitor) (item : WithItem) : Visit WithItem := do
  let context ← v.expr item.context
  return ⟨context, ← item.target.mapM v.target⟩

def handler (v : Visitor) (h : Handler) : Visit Handler := do
  let type ← v.option h.type
  return { h with type := type, body := ← v.body true h.body }

/-- Visits the children of a statement that opens no scope.  Blocks that may not run once are conditional regions. -/
def stmtChildren (v : Visitor) (s : Stmt) : Visit Stmt := do
  match s.kind with
  | .ret value => return s.withKind (.ret (← v.option value))
  | .delete targets => return s.withKind (.delete (← v.targets targets))
  | .assign targets value =>
    let value ← v.expr value
    return s.withKind (.assign (← v.targets targets) value)
  | .augAssign target op value =>
    let target ← v.target target
    return s.withKind (.augAssign target op (← v.expr value))
  | .forLoop target iter body orelse isAsync =>
    let iter ← v.expr iter
    Visit.conditionally do
      let target ← v.target target
      let body ← v.body true body
      return s.withKind (.forLoop target iter body (← v.body false orelse) isAsync)
  | .whileLoop test body orelse =>
    Visit.conditionally do
      let test ← v.expr test
      let body ← v.body true body
      return s.withKind (.whileLoop test body (← v.body false orelse))
  | .cond test body orelse =>
    let test ← v.expr test
    let body ← Visit.conditionally (v.body true body)
    return s.withKind (.cond test body (← Visit.conditionally (v.body false orelse)))
  | .withBlock items body isAsync =>
    let items ← items.mapM v.withItem
    return s.withKind (.withBlock items (← Visit.conditionally (v.body true body)) isAsync)
  | .raise exc cause =>
    let exc ← v.option exc
    return s.withKind (.raise exc (← v.option cause))
  | .tryBlock body handlers orelse final =>
    let (body, handlers, orelse) ← Visit.conditionally do
      let body ← v.body true body
      let handlers ← handlers.mapM v.handler
      return (body, handlers, ← v.body false orelse)
    return s.withKind (.tryBlock body handlers orelse (← v.body true final))
  | .expr value => return s.withKind (.expr (← v.expr value))
  | .functionDef _ | .classDef _ | .importModules _ | .importFrom .. | .globals _ | .nonlocals _ | .pass | .brk
  | .cont => return s

/-! ### Headers of scopes -/

/-- Visits the first iterable of a comprehension, which is evaluated outside of it. -/
def firstIter (v : Visitor) : List Generator → Visit (List Generator)
  | [] => return []
  | g :: gs => return { g with iter := ← v.expr g.iter } :: gs

/-- Visits the parts of an expression that are evaluated outside of the scope that it opens. -/
def exprHeader (v : Visitor) (e : Expr) : Visit Expr := do
  match e.kind with
  | .lambda params body => return e.withKind (.lambda (← v.params params) body)
  | .listComp item generators => return e.withKind (.listComp item (← v.firstIter generators))
  | .setComp item generators => return e.withKind (.setComp item (← v.firstIter generators))
  | .generatorExp item generators => return e.withKind (.generatorExp item (← v.firstIter generators))
  | .dictComp key value generators => return e.withKind (.dictComp key value (← v.firstIter generators))
  | _ => return e

def stmtHeader (v : Visitor) (s : Stmt) : Visit Stmt := do
  match s.kind with
  | .functionDef fn =>
    let decorators ← fn.decorators.mapM v.expr
    let params ← v.params fn.params
    return s.withKind (.functionDef { fn with decorators := decorators, params := params })
  | .classDef cls =>
    let decorators ← cls.decorators.mapM v.expr
    let bases ← cls.bases.mapM v.expr
    let keywords ← cls.keywords.mapM v.keyword
    return s.withKind (.classDef { cls with decorators := decorators, bases := bases, keywords := keywords })
  | _ => return s

/-! ### Nested scopes -/

/-- The variables of a scope.  A target whose effect cannot be followed is only logged. -/
def analyzed (analysis : Except Cause Variables) : Visit (Option Variables) :=
  match analysis with
  | .ok vars => return some vars
  | .error cause => do
    match cause with
    | .complexAssignment _ line =>
      Visit.log line ("skip optimisation: " ++ cause.message)
      return none
    | _ => Visit.fail cause

/-- Visits the inside of a scope that needs no guards. -/
def inside {α : Type} (kind : ScopeKind) (vars : Variables) (visit : Visit α) : Visit α := do
  return (← Visit.inScope { kind := kind, vars := vars } .generic false visit).1

def classBody (v : Visitor) (s : Stmt) (cls : ClassDef) : Visit Stmt := do
  match ← analyzed (Variables.ofBody cls.body []) with
  | none => return s
  | some vars =>
    let body ← inside .classBody vars (v.body true cls.body)
    return s.withKind (.classDef { cls with body := body })

def lambdaBody (v : Visitor) (e : Expr) (params : Params) (body : Expr) : Visit Expr := do
  let body ← inside .lambda (Variables.ofLambda params) (v.expr body)
  return e.withKind (.lambda params body)

def generator (v : Visitor) (isFirst : Bool) (g : Generator) : Visit Generator := do
  let target ← v.target g.target
  let iter ← if isFirst then pure g.iter else v.expr g.iter
  return { g with target := target, iter := iter, conditions := ← g.conditions.mapM v.expr }

def generators (v : Visitor) : List Generator → Visit (List Generator)
  | [] => return []
  | g :: gs => do
    let g ← v.generator true g
    return g :: (← gs.mapM (v.generator false))

def comprehension (v : Visitor) (e : Expr) (gens : List Generator) (visit : List Generator → Visit ExprKind) :
    Visit Expr := do
  match ← analyzed (Variables.ofComprehension gens) with
  | none => return e
  | some vars =>
    let kind ← inside .comprehension vars do
      let gens ← v.generators gens
      visit gens
    return e.withKind kind

def exprScope (v : Visitor) (e : Expr) : Visit Expr := do
  match e.kind with
  | .lambda params body => v.lambdaBody e params body
  | .listComp item gens => v.comprehension e gens fun gens => return .listComp (← v.expr item) gens
  | .setComp item gens => v.comprehension e gens fun gens => return .setComp (← v.expr item) gens
  | .generatorExp item gens => v.comprehension e gens fun gens => return .generatorExp (← v.expr item) gens
  | .dictComp key value gens =>
    v.comprehension e gens fun gens => do
      let key ← v.expr key
      return .dictComp key (← v.expr value) gens
  | _ => return e

def functionStage (v : Visitor) (stage : Stage) (allowGuards : Bool) (scope : Scope) (fn : FunctionDef) :
    Visit (FunctionDef × Scope) := do
  let vars ← Visit.ofExcept (Variables.ofBody fn.body fn.params.names)
  let (body, scope) ←
    Visit.inScope { scope with vars := vars, functions := [] } stage allowGuards (v.body true fn.body)
  return ({ fn with body := body }, scope)

/-- Visits a function: without guards, then with guards, and once more without entering nested scopes if there are
guards.  It is specialized if its last version depends on guards or on placeholders. -/
def function (v : Visitor) (s : Stmt) (fn : FunctionDef) : Visit (Stmt ⊕ List Stmt) := do
  match ← analyzed (Variables.ofBody fn.body fn.params.names) with
  | none => return .inl s
  | some vars =>
    let (slow, scope) ← v.functionStage .restricted false { kind := .function, vars := vars } fn
    let slowStmt := s.withKind (.functionDef slow)
    if !fn.decorators.isEmpty then
      Visit.log s.pos.line "skip optimisation: don\x27t support decorators"
      return .inl slowStmt
    let (fast, scope) ← v.functionStage .specialize true scope slow
    if scope.guards.isEmpty then
      if scope.copied.isEmpty then return .inl (s.withKind (.functionDef fast))
      return .inr (← Specialize.specialize scope slowStmt fast)
    let (fast, scope) ← v.functionStage .restricted true scope fast
    return .inr (← Specialize.specialize scope slowStmt fast)

def stmtInside (v : Visitor) (s : Stmt) : Visit (Stmt ⊕ List Stmt) := do
  let entersScopes := (← read).stage.entersScopes
  match s.kind with
  | .functionDef fn => if entersScopes then v.function s fn else return .inl s
  | .classDef cls => if entersScopes then return .inl (← v.classBody s cls) else return .inl s
  | _ => return .inl (← v.stmtChildren s)

def exprInside (v : Visitor) (e : Expr) : Visit Expr := do
  if !e.isScope then v.exprChildren e
  else if (← read).stage.entersScopes then v.exprScope e
  else return e

/-! ### Passes -/

/-- The first change that a pass makes of an expression before its children are visited. -/
def enterExpr (v : Visitor) : List Pass → Expr → Visit (Option Expr)
  | [], _ => return none
  | p :: ps, e => do
    match ← p.enterExpr e with
    | some new => return some (← v.expr new)
    | none => v.enterExpr ps e

def leaveExpr (v : Visitor) : List Pass → Expr → Visit Expr
  | [], e => return e
  | p :: ps, e => do
    match ← p.leaveExpr e with
    | .keep => v.leaveExpr ps e
    | .replace new => if new.sameKind e then v.leaveExpr ps new else return new
    | .revisit new =>
      let new ← v.expr new
      if new.sameKind e then v.leaveExpr ps new else return new

def leaveStmt (v : Visitor) : List Pass → Stmt → Visit (List Stmt)
  | [], s => return [s]
  | p :: ps, s => do
    match ← p.leaveStmt s with
    | .keep => v.leaveStmt ps s
    | .replace new => if new.sameKind s then v.leaveStmt ps new else return [new]
    | .splice body => return body
    | .revisit body => v.body false body

def visitExpr (v : Visitor) (e : Expr) : Visit Expr :=
  Visit.atExpr e do
    let passes := (← read).stage.passes
    let e ← v.exprHeader e
    match ← v.enterExpr passes e with
    | some new => return new
    | none => v.leaveExpr passes (← v.exprInside e)

def visitStmt (v : Visitor) (s : Stmt) : Visit (List Stmt) :=
  Visit.atStmt s do
    let passes := (← read).stage.passes
    let s ← v.stmtHeader s
    passes.forM fun p => p.enterStmt s
    match ← v.stmtInside s with
    | .inl s => v.leaveStmt passes s
    | .inr body => return body

end Visitor

/-- The visits that are at most as deep as a bound. -/
def visitor : Nat → Visitor
  | 0 => ⟨fun _ => Visit.fail .depthExceeded, fun _ => Visit.fail .depthExceeded⟩
  | depth + 1 => ⟨fun e => (visitor depth).visitExpr e, fun s => (visitor depth).visitStmt s⟩

end Speculator
