import Speculator.Pass.Basic
import Speculator.Tree.Substitute

/-!
# Inlining

Replaces calls of functions that only return an expression by that expression, with the arguments in the place of the
parameters.
-/

namespace Speculator

namespace Inlining

/-- The builtins whose results depend on the function that calls them. -/
def frameBuiltins : List Ident := ["locals", "vars", "dir", "globals", "super"]

def returned? : List Stmt → Option Expr
  | [⟨_, .ret (some value)⟩] => some value
  | [⟨pos, .ret none⟩] | [⟨pos, .pass⟩] => some ⟨pos, .const .none⟩
  | _ => none

/-- Whether an expression means the same outside of the function that returns it. -/
def movable (e : Expr) : Bool :=
  !(e.nodes Node.everywhere).any Node.suspends && !e.hasScope && !e.calledNames.any frameBuiltins.contains

/-- The expression that a call of a function evaluates to, if calls of it can be inlined. -/
def result? (fn : FunctionDef) : Option Expr :=
  if fn.decorators.isEmpty && !fn.isAsync && fn.params.isPlain then (returned? fn.body).filter movable else none

/-! ### Arguments -/

/-- Whether an argument can be evaluated in any order and any number of times. -/
def isSimple (arg : Expr) : Bool :=
  match arg.kind with
  | .name _ => true
  | .starred _ => false
  | _ => arg.constant?.isSome

def fillNamed (name : Ident) (value : Expr) : List (Ident × Option Expr) → Option (List (Ident × Option Expr))
  | [] => none
  | (param, slot) :: rest =>
    if param == name then if slot.isSome then none else some ((param, some value) :: rest)
    else (fillNamed name value rest).map ((param, slot) :: ·)

def fillKeyword (slots : List (Ident × Option Expr)) (k : Keyword) : Option (List (Ident × Option Expr)) :=
  k.name.bind fun name => fillNamed name k.value slots

def filled? : Ident × Option Expr → Option (Ident × Expr)
  | (param, some arg) => if isSimple arg then some (param, arg) else none
  | (_, none) => none

/-- The arguments by parameter.  Each is filled exactly once; of parameters with one name the last one counts. -/
def bindArguments? (params : List Ident) (args : List Expr) (keywords : List Keyword) :
    Option (List (Ident × Expr)) := do
  if params.length < args.length then none
  let positional := args.map some ++ List.replicate (params.length - args.length) none
  let slots ← keywords.foldlM fillKeyword (params.zip positional)
  let table ← slots.mapM filled?
  return table.reverse

/-! ### Recursion -/

/-- Adds the names that are called by the results of named functions. -/
def addCalled (functions : List (Ident × FunctionDef)) (names : List Ident) : List Ident :=
  (names ++ names.flatMap fun name =>
    match (functions.lookup name).bind result? with
    | some value => value.calledNames
    | none => []).eraseDups

/-- The names that evaluating an expression may call through the results of functions.  A chain of calls without
repetition passes each function at most once. -/
def reachable (functions : List (Ident × FunctionDef)) (e : Expr) : List Ident :=
  (List.range functions.length).foldl (fun names _ => addCalled functions names) e.calledNames

/-! ### Lookup -/

/-- A function whose calls may be inlined, the guard that this needs, and the functions around it. -/
structure Callee where
  fn : FunctionDef
  guard? : Option Guard
  functions : List (Ident × FunctionDef)

def bindsOnce (scope : Scope) (id : Ident) : Bool :=
  (scope.kind == .module || scope.kind == .function) && scope.vars.locals.contains id &&
    scope.vars.bindingCount id == 1 && !scope.vars.reboundByNested.contains id &&
    !(scope.kind == .module && scope.vars.dynamic)

/-- The function of the module that a name read in a function means. -/
def moduleCallee? (chain : List Scope) (id : Ident) : Option Callee := do
  let module ← Scope.moduleOf? chain
  if Scope.bindsBelowModule chain id || !Scope.isModuleGlobal chain id || module.vars.bindingCount id != 1 then none
  let fn ← module.functions.lookup id
  return ⟨fn, some (.globals [id]), module.functions⟩

def callee? (chain : List Scope) (allowGuards : Bool) (id : Ident) : Option Callee :=
  match chain with
  | [] => none
  | scope :: _ =>
    match scope.functions.lookup id with
    | some fn => if bindsOnce scope id then some ⟨fn, none, scope.functions⟩ else none
    | none => if scope.kind == .function && allowGuards then moduleCallee? chain id else none

/-- Whether an expression of the module would read variables of the current function. -/
def captures (chain : List Scope) (table : List (Ident × Expr)) (e : Expr) : Bool :=
  e.names.any fun name => (table.lookup name).isNone && Scope.bindsBelowModule chain name

/-- A call that can be inlined: the expression, and the guard that this needs. -/
def inlined? (chain : List Scope) (allowGuards : Bool) (e : Expr) (id : Ident) (args : List Expr)
    (keywords : List Keyword) : Option (Expr × Option Guard) := do
  let callee ← callee? chain allowGuards id
  let result ← result? callee.fn
  let table ← bindArguments? callee.fn.params.args args keywords
  if (reachable callee.functions result).contains id ||
    (callee.guard?.isSome && captures chain table result) then none
  return (e.withKind (result.substitute table).kind, callee.guard?)

/-! ### The pass -/

def enterStmt (s : Stmt) : Visit Unit := do
  match s.kind with
  | .functionDef fn =>
    unless (← get).known.conditional do
      Visit.modifyScope fun scope => scope.define fn
  | _ => return ()

def leaveExpr (e : Expr) : Visit ExprStep := do
  if !(← Visit.config).inlining then return .keep
  match e.kind with
  | .call ⟨_, .name id⟩ args keywords =>
    match inlined? (← Visit.chain) (← read).allowGuards e id args keywords with
    | none => return .keep
    | some (new, guard?) =>
      let allowed ←
        match guard? with
        | some g => Visit.addGuard g
        | none => pure true
      if !allowed then return .keep
      Visit.logQuoting e.pos.line ("inline call to " ++ id)
      return .revisit new
  | _ => return .keep

end Inlining

def Pass.inlining : Pass where
  enterStmt := Inlining.enterStmt
  leaveExpr := Inlining.leaveExpr

end Speculator
