import Speculator.Traversal

/-!
# Optimizing a module

The options of the module are read from it, its variables are analyzed, and it is visited.  A module that uses
specialized functions imports the support module.
-/

namespace Speculator

/-- The variable by which a module overrides the options. -/
def configName : Ident := "__fatoptimizer__"

def Stmt.overrides (s : Stmt) : List (Value × Value) :=
  match s.kind with
  | .assign [⟨_, .name id⟩] value =>
    if id == configName then
      match value.literal? with
      | some (.dict pairs) => pairs
      | _ => []
    else []
  | _ => []

def Config.overriddenBy (c : Config) (m : Module) : Config := c.override (m.body.flatMap Stmt.overrides)

def Stmt.isText (s : Stmt) : Bool :=
  match s.kind with
  | .expr ⟨_, .const (.str _)⟩ => true
  | _ => false

def Stmt.isFutureImport (s : Stmt) : Bool :=
  match s.kind with
  | .importFrom (some "__future__") _ _ => true
  | _ => false

def supportImport : Stmt := ⟨{}, .importModules [⟨"fat", some supportName⟩]⟩

def importAfterFuture (body : List Stmt) : List Stmt :=
  body.takeWhile Stmt.isFutureImport ++ supportImport :: body.dropWhile Stmt.isFutureImport

def importSupport : List Stmt → List Stmt
  | [] => importAfterFuture []
  | s :: body => if s.isText then s :: importAfterFuture body else importAfterFuture (s :: body)

/-- A depth that suffices for the visits of a module as long as no call is inlined.  Inlined calls may lead to deeper
visits, and there may be no end to them. -/
def Module.depthBound (m : Module) (limits : Limits) : Nat := 100 + 10 * Stmt.weight m.body + limits.maxConstantSize

def Module.visit (v : Visitor) (m : Module) : Visit Module := do
  if !(← Visit.config).enabled then
    Visit.log 1 ("skip optimisation: disabled in " ++ configName)
    return m
  match ← Visitor.analyzed (Variables.ofBody m.body []) with
  | none => return m
  | some vars =>
    Visit.modifyScope fun s => { s with vars := vars }
    let body ← v.body false m.body
    return ⟨if (← get).needsSupport then importSupport body else body⟩

def Module.context (config : Config) (filename : String) (source : Option String) (m : Module) : Context where
  config := config.overriddenBy m
  filename := filename
  sourceLines := (source.map Text.lines).getD []
  stage := .generic
  allowGuards := false
  enclosing := []

def Module.start (m : Module) : State where
  scope := { kind := .module, vars := {} }
  known := {}
  log := []
  texts := Stmt.texts m.body
  needsSupport := false

/-- What optimizing a module gives: the new module or a failure, and the log of the decisions. -/
structure Report where
  result : Except Failure Module
  log : List String
  /-- Whether a number left the range of the machine: then the program ends there, without a result. -/
  overrun : Bool

def Report.ofResult : EStateM.Result Failure State Module → Report
  | .ok new s => ⟨.ok new, Note.decisions s.log, s.log.contains .overrun⟩
  | .error failure s => ⟨.error failure, Note.decisions s.log, s.log.contains .overrun⟩

/-- Optimizes a module by the visits of a visitor. -/
def optimizeWith (v : Visitor) (config : Config) (filename : String) (source : Option String) (m : Module) : Report :=
  .ofResult (m.visit v (m.context config filename source) m.start)

/-- Optimizes a module.  The name and the source of its file only appear in the log and in failures. -/
def optimize (config : Config) (filename : String) (source : Option String) (m : Module) : Report :=
  optimizeWith (visitor (m.depthBound (config.overriddenBy m).limits)) config filename source m

end Speculator
