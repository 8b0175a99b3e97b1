/-!
# Operators

The operators of expressions and their spellings.
-/

namespace Speculator

inductive BinaryOp where
  | add
  | sub
  | mult
  | matMult
  | div
  | mod
  | pow
  | lShift
  | rShift
  | bitOr
  | bitXor
  | bitAnd
  | floorDiv
deriving DecidableEq, Repr, Inhabited

inductive UnaryOp where
  | invert
  | not
  | plus
  | minus
deriving DecidableEq, Repr, Inhabited

inductive CompareOp where
  | eq
  | notEq
  | lt
  | ltE
  | gt
  | gtE
  | is
  | isNot
  | isIn
  | notIn
deriving DecidableEq, Repr, Inhabited

/-- The operators that evaluate their operands only as far as needed. -/
inductive BoolOp where
  | and
  | or
deriving DecidableEq, Repr, Inhabited

def BinaryOp.symbol : BinaryOp → String
  | .add => "+"
  | .sub => "-"
  | .mult => "*"
  | .matMult => "@"
  | .div => "/"
  | .mod => "%"
  | .pow => "**"
  | .lShift => "<<"
  | .rShift => ">>"
  | .bitOr => "|"
  | .bitXor => "^"
  | .bitAnd => "&"
  | .floorDiv => "//"

def BinaryOp.all : List BinaryOp :=
  [.add, .sub, .mult, .matMult, .div, .mod, .pow, .lShift, .rShift, .bitOr, .bitXor, .bitAnd, .floorDiv]

def UnaryOp.symbol : UnaryOp → String
  | .invert => "~"
  | .not => "not "
  | .plus => "+"
  | .minus => "-"

def UnaryOp.all : List UnaryOp := [.invert, .not, .plus, .minus]

def CompareOp.symbol : CompareOp → String
  | .eq => "=="
  | .notEq => "!="
  | .lt => "<"
  | .ltE => "<="
  | .gt => ">"
  | .gtE => ">="
  | .is => "is"
  | .isNot => "is not"
  | .isIn => "in"
  | .notIn => "not in"

def CompareOp.all : List CompareOp := [.eq, .notEq, .lt, .ltE, .gt, .gtE, .is, .isNot, .isIn, .notIn]

/-- The operator whose result is always the opposite, whatever the operands do. -/
def CompareOp.negation? : CompareOp → Option CompareOp
  | .isIn => some .notIn
  | .notIn => some .isIn
  | .is => some .isNot
  | .isNot => some .is
  | _ => none

def BoolOp.symbol : BoolOp → String
  | .and => "and"
  | .or => "or"

end Speculator
