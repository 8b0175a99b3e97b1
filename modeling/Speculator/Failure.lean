import Speculator.Fault

/-!
# Failures

The ways in which optimizing a module can fail.  A failure met while visiting a node is located once, at the
innermost node; a target that cannot be analyzed is not an error of the optimizer and is never located.
-/

namespace Speculator

inductive Cause where
  /-- An assignment to a target whose effect on the variables cannot be followed. -/
  | complexAssignment (target : String) (line : Nat)
  /-- A pure function raised an exception outside of those that its contract tolerates. -/
  | untolerated (function : String) (fault : Fault)
  /-- A broken rule of the optimizer itself. -/
  | invariant (message : String)
  /-- The traversal went deeper than its bound. -/
  | depthExceeded
deriving DecidableEq, Repr

def Cause.message : Cause → String
  | .complexAssignment target _ => "complex assignment: " ++ target
  | .untolerated function fault =>
    "pure function " ++ function ++ "() raised " ++ fault.name ++ " outside of its tolerated exceptions"
  | .invariant message => message
  | .depthExceeded => "depth exceeded"

/-- A cause, with the place and the node at which it was met once it has been located. -/
inductive Failure where
  | unlocated (cause : Cause)
  | located (location node : String) (cause : Cause)
deriving DecidableEq, Repr

namespace Failure

def cause : Failure → Cause
  | unlocated cause => cause
  | located _ _ cause => cause

def message : Failure → String
  | unlocated cause => cause.message
  | located location node cause => "error at " ++ location ++ " on visiting " ++ node ++ ": " ++ cause.message

def isComplexAssignment : Failure → Bool
  | unlocated (.complexAssignment ..) => true
  | _ => false

def code (f : Failure) : String :=
  match f.cause with
  | .complexAssignment .. => "fatopt::complex_assignment"
  | .untolerated .. => "fatopt::untolerated_exception"
  | .invariant _ | .depthExceeded => "fatopt::internal"

def help? (f : Failure) : Option String :=
  if f.isComplexAssignment then none else some "this is a defect in the optimizer or its pure function catalog"

def locate (f : Failure) (location node : String) : Failure :=
  match f with
  | unlocated (.complexAssignment target line) => unlocated (.complexAssignment target line)
  | unlocated cause => located location node cause
  | located location node cause => located location node cause

end Failure

end Speculator
