import Speculator.Pass.Basic

/-!
# Tracking of known values

Records the effect of each statement on the known values.
-/

namespace Speculator

mutual

def Expr.changedNames? : Expr → Option (List Ident)
  | ⟨_, .name id⟩ => some [id]
  | ⟨_, .starred value⟩ | ⟨_, .attr value _⟩ | ⟨_, .subscript value _⟩ => value.changedNames?
  | ⟨_, .call ⟨_, .attr value _⟩ _ _⟩ => value.changedNames?
  | ⟨_, .tuple items⟩ | ⟨_, .list items⟩ => Expr.allChangedNames? items
  | _ => none

def Expr.allChangedNames? : List Expr → Option (List Ident)
  | [] => some []
  | e :: es =>
    match e.changedNames?, Expr.allChangedNames? es with
    | some names, some rest => some (names ++ rest)
    | _, _ => none

end

namespace Tracking

def forgetAll (names : List Ident) : Visit Unit :=
  Visit.modifyKnown fun ns => names.foldl (fun ns name => ns.set name none) ns

def assign (value : Option Value) (target : Expr) : Visit Unit := do
  match target.kind with
  | .name id => Visit.modifyKnown fun ns => ns.set id value
  | _ =>
    match target.changedNames? with
    | some names => forgetAll names
    | none =>
      let wasUnknown := (← get).known.unknown
      Visit.modifyKnown Namespace.loseTrack
      unless wasUnknown do
        Visit.log target.pos.line ("enter unknown namespace state: don\x27t support assignment " ++ target.summary)

def delete (target : Expr) : Visit Unit :=
  match target.kind with
  | .name id => Visit.modifyKnown fun ns => ns.unset id
  | _ => assign none target

def enterStmt (s : Stmt) : Visit Unit :=
  match s.kind with
  | .functionDef fn => forgetAll [fn.name]
  | .classDef cls => forgetAll [cls.name]
  | _ => pure ()

def leaveStmt (s : Stmt) : Visit Unit :=
  match s.kind with
  | .assign targets value => targets.forM (assign value.constant?)
  | .augAssign target _ _ | .forLoop target _ _ _ _ => assign none target
  | .withBlock items _ _ => (items.filterMap WithItem.target).forM (assign none)
  | .delete targets => targets.forM delete
  | .importModules names => forgetAll (names.map Alias.binding)
  | .importFrom _ names _ => forgetAll ((names.filter fun a => !a.isStar).map Alias.memberBinding)
  | .tryBlock _ handlers _ _ => forgetAll (handlers.filterMap Handler.name)
  | _ => pure ()

end Tracking

def Pass.tracking : Pass where
  enterStmt := Tracking.enterStmt
  leaveStmt s := do
    Tracking.leaveStmt s
    return .keep

end Speculator
