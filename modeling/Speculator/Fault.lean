/-!
# Faults

The ways in which evaluating an operation on literal values may fail.
-/

namespace Speculator

/-- The exceptions raised by operations on values, and the use of an argument that is not there. -/
inductive Fault where
  | typeError
  | valueError
  | zeroDivision
  | overflow
  | indexError
  | keyError
  | unicodeError
  /-- No exception: a function read an argument beyond those it was given, which ends the program. -/
  | missingArgument
deriving DecidableEq, Repr, Inhabited

def Fault.name : Fault → String
  | .typeError => "TypeError"
  | .valueError => "ValueError"
  | .zeroDivision => "ZeroDivisionError"
  | .overflow => "OverflowError"
  | .indexError => "IndexError"
  | .keyError => "KeyError"
  | .unicodeError => "UnicodeError"
  | .missingArgument => "missing argument"

def Fault.all : List Fault :=
  [.typeError, .valueError, .zeroDivision, .overflow, .indexError, .keyError, .unicodeError]

def Fault.ofName? (name : String) : Option Fault := Fault.all.find? fun fault => fault.name == name

end Speculator
