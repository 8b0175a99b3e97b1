import Speculator.Tree.Basic

/-!
# Known values

What is known of the values of variables at a point of a scope.  Within a conditional region nothing is known, and
what is assigned there is unknown afterwards.  Once an assignment could not be followed, nothing is known any more.
-/

namespace Speculator

structure Namespace where
  /-- Whether an assignment could not be followed. -/
  unknown : Bool := false
  values : List (Ident × Value) := []
  /-- Whether the current point is in a conditional region. -/
  conditional : Bool := false
deriving Inhabited

namespace Namespace

def forget (ns : Namespace) (name : Ident) : Namespace :=
  { ns with values := ns.values.filter fun entry => entry.1 != name }

/-- Records an assignment, of a value that is known or not. -/
def set (ns : Namespace) (name : Ident) (value : Option Value) : Namespace :=
  match value with
  | some v =>
    if ns.unknown then ns
    else if ns.conditional then ns.forget name
    else { ns.forget name with values := (name, v) :: (ns.forget name).values }
  | none => ns.forget name

def unset (ns : Namespace) (name : Ident) : Namespace := ns.forget name

/-- The value of a variable, if it is known at the current point. -/
def get? (ns : Namespace) (name : Ident) : Option Value := if ns.conditional then none else ns.values.lookup name

def loseTrack (ns : Namespace) : Namespace := { ns with unknown := true, values := [] }

def enterCond (ns : Namespace) : Namespace := { ns with conditional := true }

/-- The namespace after a conditional region, which was entered from a point in such a region or not. -/
def leaveCond (ns : Namespace) (wasConditional : Bool) : Namespace := { ns with conditional := wasConditional }

end Namespace

end Speculator
