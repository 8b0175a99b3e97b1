import Speculator.Guard
import Speculator.Scope.Variables

/-!
# Scopes and name resolution

A scope has its variables and what the optimizer has met in it so far.  The scopes that are visible from a place form
a list, innermost first, that ends with the module.
-/

namespace Speculator

inductive ScopeKind where
  | module
  | function
  | classBody
  | lambda
  | comprehension
deriving DecidableEq, Repr, Inhabited

structure Scope where
  kind : ScopeKind
  vars : Variables
  /-- The function definitions of the scope met so far. -/
  functions : List (Ident × FunctionDef) := []
  guards : GuardSet := GuardSet.empty
  /-- The builtins that are read from constants, with their placeholders. -/
  copied : List (Ident × String) := []

namespace Scope

instance : Inhabited Scope := ⟨{ kind := .module, vars := {} }⟩

def propagates (s : Scope) : Bool := !((s.kind == .module || s.kind == .classBody) && s.vars.dynamic)

def hasCopied (s : Scope) (name : Ident) : Bool := (s.copied.lookup name).isSome

def define (s : Scope) (fn : FunctionDef) : Scope :=
  { s with functions := (fn.name, fn) :: s.functions.filter fun entry => entry.1 != fn.name }

/-! ### Resolution -/

def hidesBuiltin (s : Scope) (name : Ident) : Bool :=
  s.vars.locals.contains name ||
    (s.kind == .module && (s.vars.globals.contains name || s.vars.reboundByNested.contains name))

/-- Whether a name read in the innermost scope can only be the builtin: no visible scope binds or declares it. -/
def isBuiltin (chain : List Scope) (name : Ident) : Bool :=
  match chain with
  | [] => false
  | current :: _ => !current.vars.declares name && chain.all fun s => !s.hidesBuiltin name

def moduleOf? (chain : List Scope) : Option Scope := chain.getLast?

def moduleBinds (chain : List Scope) (name : Ident) : Bool :=
  (moduleOf? chain).any fun s => s.vars.locals.contains name

/-- Whether a name read in the innermost scope is found in the module, which binds it if `bound`. -/
def findsInModule (bound : Bool) (name : Ident) : List Scope → Bool
  | [] => false
  | s :: rest =>
    if s.kind == .module then s.vars.locals.contains name
    else if s.vars.globals.contains name then bound
    else if s.vars.locals.contains name || s.vars.nonlocals.contains name then false
    else findsInModule bound name rest

def isModuleGlobal (chain : List Scope) (name : Ident) : Bool := findsInModule (moduleBinds chain name) name chain

def bindsBelowModule (chain : List Scope) (name : Ident) : Bool :=
  (chain.takeWhile fun s => s.kind != .module).any fun s =>
    s.vars.locals.contains name || s.vars.nonlocals.contains name

end Scope

end Speculator
