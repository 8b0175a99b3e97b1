import Speculator.Tree.Basic

/-!
# Nodes of trees

The nodes of a tree in source order, each before its children.  A condition tells the nodes whose children are
listed too: all of them, or only those that do not open a scope of their own.
-/

namespace Speculator

inductive Node where
  | stmt (s : Stmt)
  | expr (e : Expr)
  | handler (h : Handler)

namespace Node

def isScope : Node → Bool
  | stmt s => s.isScope
  | expr e => e.isScope
  | handler _ => false

def everywhere : Node → Bool := fun _ => true

def inScope : Node → Bool := fun node => !node.isScope

end Node

mutual

def Expr.nodes (enters : Node → Bool) : Expr → List Node
  | ⟨pos, kind⟩ => .expr ⟨pos, kind⟩ :: if enters (.expr ⟨pos, kind⟩) then kind.nodes enters else []

def ExprKind.nodes (enters : Node → Bool) : ExprKind → List Node
  | .const _ | .name _ => []
  | .boolOp _ values => Expr.nodesList enters values
  | .binOp left _ right => left.nodes enters ++ right.nodes enters
  | .unaryOp _ operand => operand.nodes enters
  | .lambda params body => params.nodes enters ++ body.nodes enters
  | .ifExp test body orelse => test.nodes enters ++ body.nodes enters ++ orelse.nodes enters
  | .dict keys values => Expr.nodesList enters keys ++ Expr.nodesList enters values
  | .set items | .list items | .tuple items => Expr.nodesList enters items
  | .listComp item generators | .setComp item generators | .generatorExp item generators =>
    Generator.nodesList enters generators ++ item.nodes enters
  | .dictComp key value generators =>
    Generator.nodesList enters generators ++ key.nodes enters ++ value.nodes enters
  | .await value | .yieldFrom value | .starred value => value.nodes enters
  | .yield value => Expr.nodesOption enters value
  | .compare left _ comparators => left.nodes enters ++ Expr.nodesList enters comparators
  | .call func args keywords =>
    func.nodes enters ++ Expr.nodesList enters args ++ Keyword.nodesList enters keywords
  | .attr value _ => value.nodes enters
  | .subscript value slice => value.nodes enters ++ slice.nodes enters
  | .slice lower upper step =>
    Expr.nodesOption enters lower ++ Expr.nodesOption enters upper ++ Expr.nodesOption enters step

def Expr.nodesOption (enters : Node → Bool) : Option Expr → List Node
  | none => []
  | some e => e.nodes enters

def Expr.nodesList (enters : Node → Bool) : List Expr → List Node
  | [] => []
  | e :: es => e.nodes enters ++ Expr.nodesList enters es

def Expr.nodesOptions (enters : Node → Bool) : List (Option Expr) → List Node
  | [] => []
  | e :: es => Expr.nodesOption enters e ++ Expr.nodesOptions enters es

def Params.nodes (enters : Node → Bool) : Params → List Node
  | ⟨_, _, _, kwDefaults, _, defaults⟩ => Expr.nodesList enters defaults ++ Expr.nodesOptions enters kwDefaults

def Keyword.nodesList (enters : Node → Bool) : List Keyword → List Node
  | [] => []
  | ⟨_, value⟩ :: ks => value.nodes enters ++ Keyword.nodesList enters ks

def Generator.nodesList (enters : Node → Bool) : List Generator → List Node
  | [] => []
  | ⟨target, iter, conditions, _⟩ :: gs =>
    target.nodes enters ++ iter.nodes enters ++ Expr.nodesList enters conditions ++ Generator.nodesList enters gs

end

def WithItem.nodesList (enters : Node → Bool) (items : List WithItem) : List Node :=
  items.flatMap fun item => item.context.nodes enters ++ Expr.nodesOption enters item.target

mutual

def Stmt.nodes (enters : Node → Bool) : Stmt → List Node
  | ⟨pos, kind⟩ => .stmt ⟨pos, kind⟩ :: if enters (.stmt ⟨pos, kind⟩) then kind.nodes enters else []

def StmtKind.nodes (enters : Node → Bool) : StmtKind → List Node
  | .functionDef fn => fn.nodes enters
  | .classDef cls => cls.nodes enters
  | .ret value => Expr.nodesOption enters value
  | .delete targets => Expr.nodesList enters targets
  | .assign targets value => Expr.nodesList enters targets ++ value.nodes enters
  | .augAssign target _ value => target.nodes enters ++ value.nodes enters
  | .forLoop target iter body orelse _ =>
    target.nodes enters ++ iter.nodes enters ++ Stmt.nodesList enters body ++ Stmt.nodesList enters orelse
  | .whileLoop test body orelse | .cond test body orelse =>
    test.nodes enters ++ Stmt.nodesList enters body ++ Stmt.nodesList enters orelse
  | .withBlock items body _ => WithItem.nodesList enters items ++ Stmt.nodesList enters body
  | .raise exc cause => Expr.nodesOption enters exc ++ Expr.nodesOption enters cause
  | .tryBlock body handlers orelse final =>
    Stmt.nodesList enters body ++ Handler.nodesList enters handlers ++ Stmt.nodesList enters orelse ++
      Stmt.nodesList enters final
  | .expr value => value.nodes enters
  | .importModules _ | .importFrom .. | .globals _ | .nonlocals _ | .pass | .brk | .cont => []

def FunctionDef.nodes (enters : Node → Bool) : FunctionDef → List Node
  | ⟨_, params, body, decorators, _⟩ =>
    Expr.nodesList enters decorators ++ params.nodes enters ++ Stmt.nodesList enters body

def ClassDef.nodes (enters : Node → Bool) : ClassDef → List Node
  | ⟨_, bases, keywords, body, decorators⟩ =>
    Expr.nodesList enters decorators ++ Expr.nodesList enters bases ++ Keyword.nodesList enters keywords ++
      Stmt.nodesList enters body

def Stmt.nodesList (enters : Node → Bool) : List Stmt → List Node
  | [] => []
  | s :: ss => s.nodes enters ++ Stmt.nodesList enters ss

def Handler.nodesList (enters : Node → Bool) : List Handler → List Node
  | [] => []
  | ⟨pos, type, name, body⟩ :: hs =>
    (.handler ⟨pos, type, name, body⟩ ::
      if enters (.handler ⟨pos, type, name, body⟩) then
        Expr.nodesOption enters type ++ Stmt.nodesList enters body
      else []) ++ Handler.nodesList enters hs

end

/-! ### Questions about nodes -/

def Node.name? : Node → Option Ident
  | .expr e => e.name?
  | _ => none

def Node.calledName? : Node → Option Ident
  | .expr ⟨_, .call func _ _⟩ => func.name?
  | _ => none

def Node.text? : Node → Option String
  | .expr ⟨_, .const (.str s)⟩ => some s
  | _ => none

def Node.suspends : Node → Bool
  | .expr ⟨_, .yield _⟩ | .expr ⟨_, .yieldFrom _⟩ | .expr ⟨_, .await _⟩ => true
  | _ => false

def Expr.names (e : Expr) : List Ident := (e.nodes Node.everywhere).filterMap Node.name?

def Expr.calledNames (e : Expr) : List Ident := (e.nodes Node.everywhere).filterMap Node.calledName?

def Expr.hasScope (e : Expr) : Bool := (e.nodes Node.everywhere).any Node.isScope

def Stmt.texts (body : List Stmt) : List String := (Stmt.nodesList Node.everywhere body).filterMap Node.text?

/-- The weight of a node, without the nodes below it: literals weigh more the larger they are. -/
def Node.weight : Node → Nat
  | .expr ⟨_, .const v⟩ => 1 + v.size
  | _ => 1

/-- The weight of a body.  No tree that denotes a part of it is deeper. -/
def Stmt.weight (body : List Stmt) : Nat :=
  (Stmt.nodesList Node.everywhere body).foldl (fun total node => total + node.weight) 0

end Speculator
