import Speculator.Failure
import Speculator.Limits

/-!
# Contracts of pure functions

A function without effects can be called at compile time.  Its contract tells the numbers and types of arguments for
which that is done, and the exceptions that only leave the call as it is.
-/

namespace Speculator

inductive ArgType where
  | any
  | oneOf (types : List String)
deriving DecidableEq, Repr, Inhabited

/-- Whether a value has one of the types.  Booleans are integers. -/
def ArgType.accepts : ArgType → Value → Bool
  | .any, _ => true
  | .oneOf types, v => types.contains v.typeName || (types.contains "int" && v.typeName == "bool")

def argument (args : List Value) (index : Nat) : Except Fault Value :=
  match args[index]? with
  | some v => .ok v
  | none => .error .missingArgument

/-- A function that can be called at compile time.  The receiver of a method is its first argument. -/
structure Contract where
  name : String
  minArgs : Nat
  /-- The greatest number of arguments, if there is one. -/
  maxArgs : Option Nat
  argTypes : List ArgType
  /-- A further condition on the arguments. -/
  check : Option (Limits → List Value → Except Fault Bool) := none
  /-- The exceptions that leave the call as it is. -/
  tolerated : List Fault := []
  call : List Value → Except Fault Value

namespace Contract

def isValid (c : Contract) : Bool :=
  decide (c.minArgs ≤ c.argTypes.length) &&
    c.maxArgs.all fun most => decide (c.minArgs ≤ most) && decide (c.argTypes.length ≤ most)

def takes (c : Contract) (count : Nat) : Bool := decide (c.minArgs ≤ count) && c.maxArgs.all (count ≤ ·)

def argType (c : Contract) (index : Nat) : ArgType := (c.argTypes[index]?).getD .any

def acceptsFrom (c : Contract) (index : Nat) : List Value → Bool
  | [] => true
  | v :: vs => (c.argType index).accepts v && c.acceptsFrom (index + 1) vs

def holds (c : Contract) (limits : Limits) (args : List Value) : Except Fault Bool :=
  match c.check with
  | some check => check limits args
  | none => .ok true

/-- The result is `none` when the contract does not hold or a tolerated exception was raised. -/
def evaluate (c : Contract) (limits : Limits) (receiver : Option Value) (args : List Value) :
    Except Cause (Option Value) :=
  let all := receiver.toList ++ args
  if !c.takes args.length || !c.acceptsFrom 0 args then .ok none
  else
    match c.holds limits all with
    | .error fault => .error (.untolerated c.name fault)
    | .ok false => .ok none
    | .ok true =>
      match c.call all with
      | .ok v => .ok (some v)
      | .error fault => if c.tolerated.contains fault then .ok none else .error (.untolerated c.name fault)

end Contract

end Speculator
