import Speculator.Pass.Basic

/-!
# Dead code

Removes the statements that can never run and the blocks that do nothing.  A removal may not change the meaning of
the rest: declarations and suspensions concern the whole scope, and a local variable of a function whose bindings are
all removed would become a global one.
-/

namespace Speculator

def Node.mustStay : Node → Bool
  | .stmt ⟨_, .globals _⟩ | .stmt ⟨_, .nonlocals _⟩ | .stmt ⟨_, .cont⟩ => true
  | .expr ⟨_, .yield _⟩ | .expr ⟨_, .yieldFrom _⟩ => true
  | _ => false

def Node.isContinue : Node → Bool
  | .stmt ⟨_, .cont⟩ => true
  | _ => false

/-- Whether a statement is the last one of its body that runs. -/
def Stmt.endsBody (s : Stmt) : Bool :=
  match s.kind with
  | .ret _ | .raise _ _ => true
  | _ => false

/-- Takes the places of removed bindings away, unless a local variable would lose its last one. -/
def Variables.release? (vars : Variables) (removed : List Ident) : Option Variables :=
  if removed.any fun name => vars.locals.contains name && decide (vars.bindingCount name ≤ removed.count name) then
    none
  else some { vars with bindings := removed.foldl List.erase vars.bindings }

namespace DeadCode

/-- Whether nothing of a body must be kept. -/
def removable (body : List Stmt) : Bool := !(Stmt.nodesList Node.everywhere body).any Node.mustStay

def removableHandlers (handlers : List Handler) : Bool :=
  !(Handler.nodesList Node.everywhere handlers).any Node.mustStay

def doesNothing (body : List Stmt) : Bool := body.all Stmt.isPass

def isIdle (block : List Stmt) : Bool := !block.isEmpty && doesNothing block

/-- Accounts for the bindings of removed statements.  Tells whether they may be removed. -/
def release (removed : List Stmt) : Visit Bool := do
  let scope ← Visit.scope
  if scope.kind != .function then return true
  match Variables.ofBody removed [] with
  | .error _ => return false
  | .ok vars =>
    match scope.vars.release? vars.bindings with
    | none => return false
    | some rest =>
      Visit.modifyScope fun s => { s with vars := rest }
      return true

def logRemoval (reason : String) (removed : List Stmt) : Visit Unit :=
  removed.forM fun s => Visit.log s.pos.line (reason ++ ": " ++ s.summary)

def logHandlers (reason : String) (removed : List Handler) : Visit Unit :=
  removed.forM fun h =>
    let summary :=
      match h.type with
      | some type => "except " ++ type.summary
      | none => "except"
    Visit.log h.pos.line (reason ++ ": " ++ summary)

def inPlaceOf (s : Stmt) (body : List Stmt) : StmtStep :=
  if body.isEmpty then .replace (s.withKind .pass) else .splice body

/-! ### Ends of bodies -/

/-- Drops the statements after the first one that ends the body, where they can be dropped. -/
def trimBody : List Stmt → Visit (List Stmt)
  | [] => return []
  | s :: rest => do
    if s.endsBody && !rest.isEmpty && removable rest then
      if ← release rest then
        logRemoval "Remove unreachable code" rest
        return [s]
    return s :: (← trimBody rest)

/-! ### Branches and loops -/

def keepBlock (s : Stmt) (reason : String) (kept removed : List Stmt) : Visit StmtStep := do
  if !removable removed then return .keep
  if !(← release removed) then return .keep
  logRemoval ("Remove dead code (" ++ reason ++ ")") removed
  return inPlaceOf s kept

def leaveConstantCond (s : Stmt) (test : Expr) (body orelse : List Stmt) : Visit StmtStep :=
  match test.constant?.map Value.truthy with
  | some true => keepBlock s "test always true" body orelse
  | some false => keepBlock s "test always false" orelse body
  | none => return .keep

def leaveConstantLoop (s : Stmt) (test : Expr) (body orelse : List Stmt) : Visit StmtStep :=
  match test.constant?.map Value.truthy with
  | some false => keepBlock s "test always false" orelse body
  | _ => return .keep

def dropIdleElse (reason : String) (orelse : List Stmt) : Visit (List Stmt) := do
  if isIdle orelse then
    logRemoval ("Remove dead code (" ++ reason ++ ")") orelse
    return []
  return orelse

def leaveIdleCond (s : Stmt) (test : Expr) (body orelse : List Stmt) : Visit StmtStep := do
  let rest ← dropIdleElse "empty else block of if" orelse
  if doesNothing body && !doesNothing rest then
    logRemoval "Remove dead code (empty if block)" body
    return .replace (s.withKind (.cond (test.withKind (.unaryOp .not test)) rest []))
  return if isIdle orelse then .replace (s.withKind (.cond test body [])) else .keep

/-- Runs a second step on a statement that the first one keeps. -/
def orElse (first second : Visit StmtStep) : Visit StmtStep := do
  match ← first with
  | .keep => second
  | step => return step

def leaveIdleElse (reason : String) (orelse : List Stmt) (without : Stmt) : Visit StmtStep := do
  let _ ← dropIdleElse reason orelse
  return if isIdle orelse then .replace without else .keep

def isEmptyTuple (e : Expr) : Bool :=
  match e.constant? with
  | some (.tuple []) => true
  | _ => false

def leaveEmptyLoop (s : Stmt) (iter : Expr) (body orelse : List Stmt) (without : Stmt) : Visit StmtStep := do
  if !isEmptyTuple iter || !removable body then return .keep
  if !(← release [without]) then return .keep
  logRemoval "Remove dead code (empty for iterator)" (if orelse.isEmpty then [s] else body)
  return inPlaceOf s orelse

/-! ### Exception handlers -/

def leaveEmptyTry (s : Stmt) (body : List Stmt) (handlers : List Handler) (orelse final : List Stmt) :
    Visit StmtStep := do
  let movesFinal := orelse.isEmpty || !doesNothing final
  if !doesNothing body || !removableHandlers handlers ||
      (movesFinal && (Stmt.nodesList Node.everywhere final).any Node.isContinue) then
    return .keep
  if !(← release [s.withKind (.tryBlock [] handlers [] [])]) then return .keep
  logRemoval "Remove dead code (empty try block)" body
  logHandlers "Remove dead code (empty try block)" handlers
  if orelse.isEmpty then return inPlaceOf s final
  if doesNothing final then
    logRemoval "Remove dead code (empty finally block)" final
    return inPlaceOf s orelse
  return .replace (s.withKind (.tryBlock orelse [] [] final))

def leaveTry (s : Stmt) (body : List Stmt) (handlers : List Handler) (orelse final : List Stmt) : Visit StmtStep := do
  let rest ← dropIdleElse "empty else block in try/except" orelse
  orElse (leaveEmptyTry s body handlers rest final)
    (return if isIdle orelse then .replace (s.withKind (.tryBlock body handlers [] final)) else .keep)

def leaveStmt (s : Stmt) : Visit StmtStep := do
  if !(← Visit.config).removeDeadCode then return .keep
  match s.kind with
  | .cond test body orelse => orElse (leaveConstantCond s test body orelse) (leaveIdleCond s test body orelse)
  | .whileLoop test body orelse =>
    orElse (leaveConstantLoop s test body orelse)
      (leaveIdleElse "empty else block of while" orelse (s.withKind (.whileLoop test body [])))
  | .forLoop target iter body orelse isAsync =>
    let without := s.withKind (.forLoop target iter body [] isAsync)
    orElse (leaveEmptyLoop s iter body orelse without) (leaveIdleElse "empty else block of for" orelse without)
  | .tryBlock body handlers orelse final => leaveTry s body handlers orelse final
  | _ => return .keep

end DeadCode

def Pass.deadCode : Pass where
  leaveStmt := DeadCode.leaveStmt

end Speculator
