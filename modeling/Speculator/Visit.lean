import Speculator.Config
import Speculator.Namespace
import Speculator.Scope.Basic
import Speculator.Tree.Literal

/-!
# Visits

What a visit of a tree reads and changes.  It reads the options, the names of the file and the scopes around the
current one; it changes what is known in the current scope and appends to the log of decisions.  The log is kept when
a visit fails.
-/

namespace Speculator

inductive Stage where
  /-- For modules, classes, lambda expressions and comprehensions. -/
  | generic
  /-- For functions, without entering nested scopes. -/
  | restricted
  /-- For functions, with the changes that need guards. -/
  | specialize
deriving DecidableEq, Repr, Inhabited

def Stage.entersScopes : Stage → Bool
  | .generic | .specialize => true
  | .restricted => false

def Stage.trims : Stage → Bool
  | .generic | .restricted => true
  | .specialize => false

/-- What a visit reads. -/
structure Context where
  config : Config
  filename : String
  sourceLines : List String
  stage : Stage
  /-- Whether guards may be put on the current scope. -/
  allowGuards : Bool
  /-- The scopes around the current one, innermost first. -/
  enclosing : List Scope

inductive Note where
  | decision (text : String)
  /-- A number left the range of the machine, which ends the program: what the visit does afterwards has no effect. -/
  | overrun
deriving DecidableEq, Repr

def Note.decision? : Note → Option String
  | .decision text => some text
  | .overrun => none

def Note.decisions (log : List Note) : List String := (log.filterMap Note.decision?).reverse

/-- What a visit changes. -/
structure State where
  scope : Scope
  known : Namespace
  /-- The last entry comes first. -/
  log : List Note
  /-- The literal texts of the module. -/
  texts : List String
  /-- Whether the support module is needed. -/
  needsSupport : Bool

abbrev Visit := ReaderT Context (EStateM Failure State)

/-- The first of `base`, `base` with the mark and 2, with the mark and 3, … that is not in use. -/
def freshText (used : List String) (base mark : String) : String :=
  if !used.contains base then base
  else go used.length 2
where
  /-- Among as many numbered candidates as there are texts besides `base`, one is free. -/
  go : Nat → Nat → String
    | 0, index => base ++ mark ++ toString index
    | fuel + 1, index =>
      if used.contains (base ++ mark ++ toString index) then go fuel (index + 1) else base ++ mark ++ toString index

def decisionText (filename : String) (line : Nat) (message : String) (source : Option String) : String :=
  let decision := filename ++ ":" ++ toString line ++ ": fatoptimizer: " ++ message
  match source.map Text.trim with
  | some quoted => if quoted.isEmpty then decision else decision ++ "\n  " ++ quoted
  | none => decision

namespace Context

def sourceLine? (ctx : Context) (line : Nat) : Option String :=
  if line = 0 then none else ctx.sourceLines[line - 1]?

def place (ctx : Context) (pos : Position) : String := ctx.filename ++ ":" ++ toString pos.line

end Context

namespace Visit

def fail {α : Type} (cause : Cause) : Visit α := throw (.unlocated cause)

def ofExcept {α : Type} : Except Cause α → Visit α
  | .ok a => pure a
  | .error cause => fail cause

def config : Visit Config := return (← read).config

def scope : Visit Scope := return (← get).scope

def chain : Visit (List Scope) := return (← get).scope :: (← read).enclosing

def modifyScope (f : Scope → Scope) : Visit Unit := modify fun s => { s with scope := f s.scope }

def modifyKnown (f : Namespace → Namespace) : Visit Unit := modify fun s => { s with known := f s.known }

def log (line : Nat) (message : String) : Visit Unit := do
  let ctx ← read
  modify fun s => { s with log := .decision (decisionText ctx.filename line message none) :: s.log }

def logQuoting (line : Nat) (message : String) : Visit Unit := do
  let ctx ← read
  modify fun s =>
    { s with log := .decision (decisionText ctx.filename line message (ctx.sourceLine? line)) :: s.log }

def noteOverrun (overruns : Bool) : Visit Unit :=
  modify fun s => { s with log := if overruns then .overrun :: s.log else s.log }

/-- Puts a guard on the current scope.  Tells whether that is allowed. -/
def addGuard (g : Guard) : Visit Bool := do
  if (← read).allowGuards then
    modifyScope fun s => { s with guards := s.guards.add g }
    return true
  return false

def literal? (v : Value) (pos : Position) : Visit (Option Expr) := return (← config).limits.literal? v pos

def isBuiltin (name : Ident) : Visit Bool := return Scope.isBuiltin (← chain) name

def freshVariable (base : Ident) : Visit Ident := do
  let name := freshText (← scope).vars.locals base ""
  modifyScope fun s => { s with vars := { s.vars with locals := name :: s.vars.locals } }
  return name

def newText (base : String) : Visit String := do
  let text := freshText (← get).texts base "#"
  modify fun s => { s with texts := text :: s.texts }
  return text

def conditionally {α : Type} (visit : Visit α) : Visit α := do
  let wasConditional := (← get).known.conditional
  modifyKnown Namespace.enterCond
  let a ← visit
  modifyKnown fun ns => ns.leaveCond wasConditional
  return a

def mapFailure {α : Type} (f : Context → Failure → Failure) (visit : Visit α) : Visit α := fun ctx s =>
  match visit ctx s with
  | .ok a s => .ok a s
  | .error failure s => .error (f ctx failure) s

/-- Locates the failures of visiting an expression that have no place yet. -/
def atExpr {α : Type} (e : Expr) (visit : Visit α) : Visit α :=
  visit.mapFailure fun ctx failure => failure.locate (ctx.place e.pos) e.summary

def atStmt {α : Type} (s : Stmt) (visit : Visit α) : Visit α :=
  visit.mapFailure fun ctx failure => failure.locate (ctx.place s.pos) s.summary

/-- Runs a visit in a scope inside of the current one, with nothing known.  Also gives the scope afterwards. -/
def inScope {α : Type} (scope : Scope) (stage : Stage) (allowGuards : Bool) (visit : Visit α) :
    Visit (α × Scope) := do
  let outer ← get
  set { outer with scope := scope, known := {} }
  let a ← withReader
    (fun ctx => { ctx with stage := stage, allowGuards := allowGuards, enclosing := outer.scope :: ctx.enclosing })
    visit
  let inner ← get
  set { inner with scope := outer.scope, known := outer.known }
  return (a, inner.scope)

end Visit

end Speculator
