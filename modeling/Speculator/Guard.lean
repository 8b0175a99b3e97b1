import Speculator.NameSet

/-!
# Guards

The conditions that are checked at run time before the fast version of a function is called.  A set of guards holds
when each guard in it holds; it has at most one guard for the builtin names, one for the global names, and one for
each argument.
-/

namespace Speculator

/-- A condition on the state of the program when a function is called. -/
inductive Guard where
  /-- The builtin names still have their first values. -/
  | builtins (names : List Ident)
  /-- The variables of the module were not assigned. -/
  | globals (names : List Ident)
  /-- The argument at a position has one of the types. -/
  | argType (position : Nat) (types : List Ident)
deriving DecidableEq, Repr, Inhabited

namespace Guard

/-- The conjunction of two guards on the same subject: the names of both, or the types in both. -/
def merge? : Guard → Guard → Option Guard
  | builtins a, builtins b => some (builtins (NameSet.union a b))
  | globals a, globals b => some (globals (NameSet.union a b))
  | argType i a, argType j b => if i = j then some (argType i (NameSet.inter a b)) else none
  | _, _ => none

/-- The name of the constructor of the guard at run time. -/
def builder : Guard → Ident
  | builtins _ => "GuardBuiltins"
  | globals _ => "GuardGlobals"
  | argType .. => "GuardArgType"

def text (g : Guard) : String :=
  let args :=
    match g with
    | builtins names | globals names => ", ".intercalate (names.map fun name => "\x27" ++ name ++ "\x27")
    | argType position types => toString position ++ ", (" ++ ", ".intercalate types ++ ")"
  g.builder ++ "(" ++ args ++ ")"

def toExpr (g : Guard) (fat : Ident) (pos : Position) : Expr :=
  let args : List Expr :=
    match g with
    | builtins names | globals names => names.map fun name => ⟨pos, .const (.str name)⟩
    | argType position types =>
      [⟨pos, .const (.int position)⟩, ⟨pos, .tuple (types.map fun name => ⟨pos, .name name⟩)⟩]
  ⟨pos, .call ⟨pos, .attr ⟨pos, .name fat⟩ g.builder⟩ args []⟩

end Guard

structure GuardSet where
  guards : List Guard
deriving DecidableEq, Repr, Inhabited

namespace GuardSet

def empty : GuardSet := ⟨[]⟩

/-- Adds a guard to a list, merging it with the first guard on the same subject. -/
def insert (g : Guard) : List Guard → List Guard
  | [] => [g]
  | h :: rest =>
    match h.merge? g with
    | some merged => merged :: rest
    | none => h :: insert g rest

def add (s : GuardSet) (g : Guard) : GuardSet := ⟨insert g s.guards⟩

def extend (s t : GuardSet) : GuardSet := t.guards.foldl add s

def isEmpty (s : GuardSet) : Bool := s.guards.isEmpty

def size (s : GuardSet) : Nat := s.guards.length

def text (s : GuardSet) : String := "[" ++ ", ".intercalate (s.guards.map Guard.text) ++ "]"

def toExpr (s : GuardSet) (fat : Ident) (pos : Position) : Expr :=
  ⟨pos, .list (s.guards.map fun g => g.toExpr fat pos)⟩

end GuardSet

end Speculator
