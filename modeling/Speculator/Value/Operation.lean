import Speculator.Operator
import Speculator.Number.Float
import Speculator.Value.Basic

/-!
# Operators on values

What the unary and the binary operators give on two literal values, or the exception that they raise.  Numbers take
the widest type of the two operands; an integer becomes a float only when that is exact.
-/

namespace Speculator

open Number (ComplexFloat)

def wordLimit : Nat := Nat.pow 2 64

namespace Numeric

/-- Powers of integers.  A negative exponent gives a float. -/
def powInts (base exponent : Int) : Except Fault Numeric :=
  if exponent < 0 then
    if base = 0 then .error .zeroDivision
    else
      match Number.floatOfInt? base, Number.floatOfInt? exponent with
      | some x, some y => (Number.power x y).map .float
      | _, _ => .error .overflow
  else if exponent = 0 then .ok (.int 1)
  else if base = 0 || base = 1 then .ok (.int base)
  else if base = -1 then .ok (.int (if exponent % 2 = 0 then 1 else -1))
  else if Nat.pow 2 32 ≤ exponent then .error .overflow
  else .ok (.int (Int.pow base exponent.toNat))

def shiftLeft (a b : Int) : Except Fault Numeric :=
  if b < 0 then .error .valueError
  else if a = 0 then .ok (.int 0)
  else if wordLimit ≤ b then .error .overflow
  else .ok (.int (a * Nat.pow 2 b.toNat))

def shiftRight (a b : Int) : Except Fault Numeric :=
  if b < 0 then .error .valueError
  else if Number.bitLength a ≤ b then .ok (.int (if a < 0 then -1 else 0))
  else .ok (.int (Int.fdiv a (Nat.pow 2 b.toNat)))

def binaryInts (op : BinaryOp) (a b : Int) : Except Fault Numeric :=
  match op with
  | .add => .ok (.int (a + b))
  | .sub => .ok (.int (a - b))
  | .mult => .ok (.int (a * b))
  | .div => (Number.divideInts a b).map .float
  | .floorDiv => if b = 0 then .error .zeroDivision else .ok (.int (Int.fdiv a b))
  | .mod => if b = 0 then .error .zeroDivision else .ok (.int (Int.fmod a b))
  | .pow => powInts a b
  | .lShift => shiftLeft a b
  | .rShift => shiftRight a b
  | .bitAnd => .ok (.int (Number.intAnd a b))
  | .bitOr => .ok (.int (Number.intOr a b))
  | .bitXor => .ok (.int (Number.intXor a b))
  | .matMult => .error .typeError

def binaryFloats (op : BinaryOp) (x y : Float) : Except Fault Float :=
  match op with
  | .add => .ok (x + y)
  | .sub => .ok (x - y)
  | .mult => .ok (x * y)
  | .div => .ok (x / y)
  | .floorDiv => .ok (Number.divMod x y).1
  | .mod => .ok (Number.divMod x y).2
  | .pow => Number.power x y
  | _ => .error .typeError

def binaryComplex (op : BinaryOp) (a b : ComplexFloat) : Except Fault ComplexFloat :=
  match op with
  | .add => .ok (a.add b)
  | .sub => .ok (a.sub b)
  | .mult => .ok (a.mul b)
  | .div => a.div b
  | _ => .error .typeError

def isComplex : Numeric → Bool
  | .complex _ => true
  | _ => false

def isZero : Numeric → Bool
  | .int n => n == 0
  | .float x => x == 0.0
  | .complex c => c.isZero

/-- Whether the operator divides by the second of two real numbers. -/
def divides : BinaryOp → Bool
  | .div | .floorDiv | .mod => true
  | _ => false

def binary (op : BinaryOp) (a b : Numeric) : Except Fault Numeric :=
  match a, b with
  | .int m, .int n => binaryInts op m n
  | a, b =>
    if a.isComplex || b.isComplex then
      match a.toComplex?, b.toComplex? with
      | some x, some y => (binaryComplex op x y).map .complex
      | _, _ => .error .overflow
    else
      match a.toFloat?, b.toFloat? with
      | some x, some y =>
        if divides op && b.isZero then .error .zeroDivision else (binaryFloats op x y).map .float
      | _, _ => .error .overflow

end Numeric

namespace Value

def repeatList {α : Type} (count : Nat) (items : List α) : List α :=
  if items.isEmpty then [] else (List.replicate count items).flatten

def repeatSequence (sequence : Value) (count : Int) : Except Fault Value :=
  if wordLimit ≤ count then .error .overflow
  else
    let n := count.toNat
    match sequence with
    | .str s => .ok (.str (String.ofList (repeatList n s.toList)))
    | .bytes b => .ok (.bytes (repeatList n b))
    | .tuple items => .ok (.tuple (repeatList n items))
    | .list items => .ok (.list (repeatList n items))
    | _ => .error .typeError

/-- Whether repeating a sequence leaves the range of the machine.  The copies of a tuple or a list are gathered before
they are joined, even if they are empty. -/
def repetitionOverruns (sequence : Value) (count : Int) : Bool :=
  match sequence with
  | .tuple _ | .list _ => Nat.pow 2 59 ≤ count && count < wordLimit
  | _ => false

/-- Concatenation and repetition of sequences, for values that are not both numbers. -/
def binarySequence (op : BinaryOp) (left right : Value) : Except Fault Value :=
  match op, left, right with
  | .add, .str a, .str b => .ok (.str (a ++ b))
  | .add, .bytes a, .bytes b => .ok (.bytes (a ++ b))
  | .add, .tuple a, .tuple b => .ok (.tuple (a ++ b))
  | .add, .list a, .list b => .ok (.list (a ++ b))
  | .mult, left, right =>
    match right.asInt?, left.asInt? with
    | some count, _ => repeatSequence left count
    | Option.none, some count => repeatSequence right count
    | Option.none, Option.none => .error .typeError
  | _, _, _ => .error .typeError

def binaryOverruns (op : BinaryOp) (left right : Value) : Bool :=
  match op, right.asInt?, left.asInt? with
  | .mult, some count, _ => repetitionOverruns left count
  | .mult, Option.none, some count => repetitionOverruns right count
  | _, _, _ => false

def binaryBools? (op : BinaryOp) (a b : Bool) : Option Bool :=
  match op with
  | .bitAnd => some (a && b)
  | .bitOr => some (a || b)
  | .bitXor => some (a != b)
  | _ => Option.none

def binary (op : BinaryOp) (left right : Value) : Except Fault Value :=
  let bools :=
    match left, right with
    | .bool a, .bool b => binaryBools? op a b
    | _, _ => Option.none
  match bools, left.asNumeric?, right.asNumeric? with
  | some b, _, _ => .ok (.bool b)
  | Option.none, some a, some b => (Numeric.binary op a b).map Numeric.toValue
  | _, _, _ => binarySequence op left right

def unary (op : UnaryOp) (operand : Value) : Except Fault Value :=
  match op, operand.asNumeric? with
  | .not, _ => .ok (.bool !operand.truthy)
  | .invert, some (.int n) => .ok (.int (-n - 1))
  | .minus, some (.int n) => .ok (.int (-n))
  | .minus, some (.float x) => .ok (.float (-x))
  | .minus, some (.complex c) => .ok (.complex c.neg)
  | .plus, some number => .ok number.toValue
  | _, _ => .error .typeError

end Value

end Speculator
