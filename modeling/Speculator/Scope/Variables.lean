import Speculator.Failure
import Speculator.Tree.Nodes
import Speculator.Tree.Render

/-!
# Variables of a scope

Which names a scope binds, which it declares global or nonlocal, and which its nested scopes may bind.  Every place
that binds a name counts: targets of assignments, deletions, loops and context managers, definitions, imports,
exception names and parameters.
-/

namespace Speculator

structure Variables where
  /-- The names bound in the scope and not declared otherwise. -/
  locals : List Ident := []
  globals : List Ident := []
  nonlocals : List Ident := []
  /-- The names that some nested scope declares global or nonlocal. -/
  reboundByNested : List Ident := []
  /-- One entry for each place that binds the name. -/
  bindings : List Ident := []
  /-- Whether the variables can be changed without an assignment. -/
  dynamic : Bool := false
deriving Inhabited

namespace Variables

def bindingCount (vars : Variables) (name : Ident) : Nat := vars.bindings.count name

def declares (vars : Variables) (name : Ident) : Bool :=
  vars.locals.contains name || vars.globals.contains name || vars.nonlocals.contains name

/-- The functions that give access to the variables of a scope by their names. -/
def accessors : List Ident := ["globals", "locals", "vars", "exec", "eval"]

end Variables

/-! ### Targets -/

/-- Whether storing an attribute or item into the object only reads names: it is named, or displayed, or reached from
such an object by attributes, items and method calls. -/
def Expr.isReference : Expr → Bool
  | ⟨_, .name _⟩ | ⟨_, .dict _ _⟩ | ⟨_, .list _⟩ => true
  | ⟨_, .attr value _⟩ | ⟨_, .subscript value _⟩ | ⟨_, .starred value⟩ => value.isReference
  | ⟨_, .call ⟨_, .attr value _⟩ _ _⟩ => value.isReference
  | _ => false

def complexAssignment (target : Expr) : Cause := .complexAssignment target.summary target.pos.line

def storeBindings (target object : Expr) : Except Cause (List Ident) :=
  if object.isReference then .ok [] else .error (complexAssignment target)

mutual

def Expr.targetBindings : Expr → Except Cause (List Ident)
  | ⟨_, .name id⟩ => .ok [id]
  | ⟨_, .tuple items⟩ => Expr.targetsBindings items
  | ⟨_, .list items⟩ => Expr.targetsBindings items
  | ⟨_, .starred value⟩ => value.targetBindings
  | ⟨pos, .attr value name⟩ => storeBindings ⟨pos, .attr value name⟩ value
  | ⟨pos, .subscript value slice⟩ => storeBindings ⟨pos, .subscript value slice⟩ value
  | e => .error (complexAssignment e)

def Expr.targetsBindings : List Expr → Except Cause (List Ident)
  | [] => .ok []
  | e :: es => do return (← e.targetBindings) ++ (← Expr.targetsBindings es)

end

/-! ### Bodies -/

def Alias.isStar (a : Alias) : Bool := a.name == "*"

def Node.bindings : Node → Except Cause (List Ident)
  | .handler h => .ok h.name.toList
  | .expr _ => .ok []
  | .stmt s =>
    match s.kind with
    | .functionDef fn => .ok [fn.name]
    | .classDef cls => .ok [cls.name]
    | .assign targets _ | .delete targets => Expr.targetsBindings targets
    | .augAssign target _ _ | .forLoop target _ _ _ _ => target.targetBindings
    | .withBlock items _ _ => Expr.targetsBindings (items.filterMap WithItem.target)
    | .importModules names | .importFrom _ names _ =>
      .ok ((names.filter fun a => !a.isStar).map Alias.binding)
    | _ => .ok []

def Node.globals : Node → List Ident
  | .stmt ⟨_, .globals names⟩ => names
  | _ => []

def Node.nonlocals : Node → List Ident
  | .stmt ⟨_, .nonlocals names⟩ => names
  | _ => []

/-- The names that the nodes of a body declare, those of nested scopes included. -/
def declaredNames (body : List Stmt) : List Ident :=
  (Stmt.nodesList Node.everywhere body).flatMap fun node => node.globals ++ node.nonlocals

def Node.nestedDeclarations : Node → List Ident
  | .stmt ⟨_, .functionDef fn⟩ => declaredNames fn.body
  | .stmt ⟨_, .classDef cls⟩ => declaredNames cls.body
  | _ => []

def Node.importsAll : Node → Bool
  | .stmt ⟨_, .importModules names⟩ | .stmt ⟨_, .importFrom _ names _⟩ => names.any Alias.isStar
  | _ => false

def Node.isAccessor (node : Node) : Bool := node.name?.any fun id => Variables.accessors.contains id

namespace Variables

def ofBindings (bindings globals nonlocals : List Ident) : Variables :=
  { locals := bindings.filter fun name => !globals.contains name && !nonlocals.contains name
    globals
    nonlocals
    bindings }

def ofBody (body : List Stmt) (params : List Ident) : Except Cause Variables := do
  let own := Stmt.nodesList Node.inScope body
  let sites ← own.mapM Node.bindings
  return { ofBindings (params ++ sites.flatten) (own.flatMap Node.globals) (own.flatMap Node.nonlocals) with
    reboundByNested := own.flatMap Node.nestedDeclarations
    dynamic := own.any Node.importsAll || (Stmt.nodesList Node.everywhere body).any Node.isAccessor }

def ofLambda (params : Params) : Variables := ofBindings params.names [] []

def ofComprehension (generators : List Generator) : Except Cause Variables :=
  (Expr.targetsBindings (generators.map Generator.target)).map fun names => ofBindings names [] []

end Variables

end Speculator
