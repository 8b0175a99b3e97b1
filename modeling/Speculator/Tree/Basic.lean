import Speculator.Operator
import Speculator.Value.Basic

/-!
# Trees

Programs as trees of statements and expressions.  A node is a position and a kind; the kind holds the children.
-/

namespace Speculator

/-- The name of a variable, an attribute or a module. -/
abbrev Ident := String

/-- A place in a source file, counted from one. -/
structure Position where
  line : Nat := 1
  column : Nat := 1
deriving DecidableEq, Repr, Inhabited

mutual

structure Expr where
  pos : Position
  kind : ExprKind

/-- The expressions.  Most constructors are named for the construct that they stand for. -/
inductive ExprKind where
  | const (value : Value)
  | name (id : Ident)
  | boolOp (op : BoolOp) (values : List Expr)
  | binOp (left : Expr) (op : BinaryOp) (right : Expr)
  | unaryOp (op : UnaryOp) (operand : Expr)
  | lambda (params : Params) (body : Expr)
  | ifExp (test body orelse : Expr)
  | dict (keys values : List Expr)
  | set (items : List Expr)
  | list (items : List Expr)
  | tuple (items : List Expr)
  | listComp (item : Expr) (generators : List Generator)
  | setComp (item : Expr) (generators : List Generator)
  | generatorExp (item : Expr) (generators : List Generator)
  | dictComp (key value : Expr) (generators : List Generator)
  | await (value : Expr)
  | yield (value : Option Expr)
  | yieldFrom (value : Expr)
  | starred (value : Expr)
  | compare (left : Expr) (ops : List CompareOp) (comparators : List Expr)
  | call (func : Expr) (args : List Expr) (keywords : List Keyword)
  | attr (value : Expr) (name : Ident)
  | subscript (value slice : Expr)
  | slice (lower upper step : Option Expr)

/-- The `defaults` belong to the last positional parameters, `kwDefaults` to the first keyword-only ones. -/
structure Params where
  args : List Ident
  vararg : Option Ident
  kwOnly : List Ident
  kwDefaults : List (Option Expr)
  kwarg : Option Ident
  defaults : List Expr

/-- A keyword argument; without a name it is a mapping that is unpacked. -/
structure Keyword where
  name : Option Ident
  value : Expr

/-- A clause `for target in iter if …` of a comprehension. -/
structure Generator where
  target : Expr
  iter : Expr
  conditions : List Expr
  isAsync : Bool

end

/-- An imported name and the name that it is bound to, when that is another one. -/
structure Alias where
  name : Ident
  asName : Option Ident
deriving DecidableEq, Repr, Inhabited

/-- A context manager and the target that its result is bound to. -/
structure WithItem where
  context : Expr
  target : Option Expr

mutual

structure Stmt where
  pos : Position
  kind : StmtKind

inductive StmtKind where
  | functionDef (fn : FunctionDef)
  | classDef (cls : ClassDef)
  | ret (value : Option Expr)
  | delete (targets : List Expr)
  | assign (targets : List Expr) (value : Expr)
  | augAssign (target : Expr) (op : BinaryOp) (value : Expr)
  | forLoop (target iter : Expr) (body orelse : List Stmt) (isAsync : Bool)
  | whileLoop (test : Expr) (body orelse : List Stmt)
  | cond (test : Expr) (body orelse : List Stmt)
  | withBlock (items : List WithItem) (body : List Stmt) (isAsync : Bool)
  | raise (exc cause : Option Expr)
  | tryBlock (body : List Stmt) (handlers : List Handler) (orelse final : List Stmt)
  | importModules (names : List Alias)
  | importFrom (module : Option Ident) (names : List Alias) (level : Nat)
  | globals (names : List Ident)
  | nonlocals (names : List Ident)
  | expr (value : Expr)
  | pass
  | brk
  | cont

structure FunctionDef where
  name : Ident
  params : Params
  body : List Stmt
  decorators : List Expr
  isAsync : Bool

structure ClassDef where
  name : Ident
  bases : List Expr
  keywords : List Keyword
  body : List Stmt
  decorators : List Expr

/-- A clause `except type as name` of a `try` statement. -/
structure Handler where
  pos : Position
  type : Option Expr
  name : Option Ident
  body : List Stmt

end

structure Module where
  body : List Stmt

instance : Inhabited ExprKind := ⟨.const .none⟩
instance : Inhabited Expr := ⟨⟨{}, default⟩⟩
instance : Inhabited StmtKind := ⟨.pass⟩
instance : Inhabited Stmt := ⟨⟨{}, default⟩⟩
instance : Inhabited Module := ⟨⟨[]⟩⟩

namespace Params

def empty : Params := ⟨[], none, [], [], none, []⟩

instance : Inhabited Params := ⟨empty⟩

def names (p : Params) : List Ident := p.args ++ p.vararg.toList ++ p.kwOnly ++ p.kwarg.toList

/-- Whether every call must fill each positional parameter exactly once, and nothing else. -/
def isPlain (p : Params) : Bool :=
  p.vararg.isNone && p.kwarg.isNone && p.kwOnly.isEmpty && p.defaults.isEmpty && p.kwDefaults.all Option.isNone

end Params

namespace Alias

/-- The name bound by importing a module: without another name, the first part of its dotted name. -/
def binding (a : Alias) : Ident :=
  match a.asName with
  | some name => name
  | none => String.ofList (a.name.toList.takeWhile (· != '.'))

def memberBinding (a : Alias) : Ident := a.asName.getD a.name

end Alias

namespace Expr

def withKind (e : Expr) (kind : ExprKind) : Expr := ⟨e.pos, kind⟩

def sameKind (a b : Expr) : Bool := a.kind.ctorIdx == b.kind.ctorIdx

def name? (e : Expr) : Option Ident :=
  match e.kind with
  | .name id => some id
  | _ => none

def isScope (e : Expr) : Bool :=
  match e.kind with
  | .lambda .. | .listComp .. | .setComp .. | .generatorExp .. | .dictComp .. => true
  | _ => false

end Expr

namespace Stmt

def withKind (s : Stmt) (kind : StmtKind) : Stmt := ⟨s.pos, kind⟩

def sameKind (a b : Stmt) : Bool := a.kind.ctorIdx == b.kind.ctorIdx

def isPass (s : Stmt) : Bool :=
  match s.kind with
  | .pass => true
  | _ => false

def isScope (s : Stmt) : Bool :=
  match s.kind with
  | .functionDef _ | .classDef _ => true
  | _ => false

end Stmt

def Handler.isEmpty (h : Handler) : Bool := h.body.all Stmt.isPass

end Speculator
