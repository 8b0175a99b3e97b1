import Speculator.Number.ComplexFloat

/-!
# Literal values

The values that a literal can denote.  All but lists, sets and dictionaries can be stored in a single literal node
of a tree; those three are built anew each time their display is evaluated.
-/

namespace Speculator

open Number (ComplexFloat)

/-- A literal value.  Sets and dictionaries keep their items in the order of insertion. -/
inductive Value where
  | none
  | ellipsis
  | bool (b : Bool)
  | int (n : Int)
  | float (x : Float)
  | complex (c : ComplexFloat)
  | str (s : String)
  | bytes (b : List UInt8)
  | tuple (items : List Value)
  | frozenSet (items : List Value)
  | list (items : List Value)
  | set (items : List Value)
  | dict (pairs : List (Value × Value))

instance : Inhabited Value := ⟨.none⟩

/-- A number, after booleans have become integers. -/
inductive Numeric where
  | int (n : Int)
  | float (x : Float)
  | complex (c : ComplexFloat)

namespace Numeric

def toComplex? : Numeric → Option ComplexFloat
  | .int n => (Number.floatOfInt? n).map ComplexFloat.ofFloat
  | .float x => some (ComplexFloat.ofFloat x)
  | .complex c => some c

/-- The number as a float, when it is real and an integer is exact as a float. -/
def toFloat? : Numeric → Option Float
  | .int n => Number.floatOfInt? n
  | .float x => some x
  | .complex _ => none

def toValue : Numeric → Value
  | .int n => .int n
  | .float x => .float x
  | .complex c => .complex c

end Numeric

namespace Value

def typeName : Value → String
  | .none => "NoneType"
  | .ellipsis => "ellipsis"
  | .bool _ => "bool"
  | .int _ => "int"
  | .float _ => "float"
  | .complex _ => "complex"
  | .str _ => "str"
  | .bytes _ => "bytes"
  | .tuple _ => "tuple"
  | .frozenSet _ => "frozenset"
  | .list _ => "list"
  | .set _ => "set"
  | .dict _ => "dict"

mutual

/-- Whether the value can be stored in a single literal node. -/
def isConstant : Value → Bool
  | .list _ | .set _ | .dict _ => false
  | .tuple items | .frozenSet items => allConstant items
  | _ => true

def allConstant : List Value → Bool
  | [] => true
  | v :: vs => v.isConstant && allConstant vs

end

mutual

def isHashable : Value → Bool
  | .list _ | .set _ | .dict _ => false
  | .tuple items => allHashable items
  | _ => true

def allHashable : List Value → Bool
  | [] => true
  | v :: vs => v.isHashable && allHashable vs

end

def isIterable : Value → Bool
  | .str _ | .bytes _ | .tuple _ | .frozenSet _ | .list _ | .set _ | .dict _ => true
  | _ => false

def isContainer : Value → Bool
  | .tuple _ | .frozenSet _ | .list _ | .set _ | .dict _ => true
  | _ => false

def asInt? : Value → Option Int
  | .int n => some n
  | .bool b => some b.toInt
  | _ => Option.none

def isInt : Value → Bool
  | .int _ | .bool _ => true
  | _ => false

def asNumeric? : Value → Option Numeric
  | .bool b => some (.int b.toInt)
  | .int n => some (.int n)
  | .float x => some (.float x)
  | .complex c => some (.complex c)
  | _ => Option.none

def isNumber : Value → Bool
  | .bool _ | .int _ | .float _ | .complex _ => true
  | _ => false

def length? : Value → Option Nat
  | .str s => some s.length
  | .bytes b => some b.length
  | .tuple items | .frozenSet items | .list items | .set items => some items.length
  | .dict pairs => some pairs.length
  | _ => Option.none

def isEmpty (v : Value) : Bool := v.length? == some 0

def truthy : Value → Bool
  | .none => false
  | .ellipsis => true
  | .bool b => b
  | .int n => n != 0
  | .float x => x != 0.0
  | .complex c => !c.isZero
  | v => !v.isEmpty

/-- The items met by iterating over the value, in order; those of a set only when `unordered` allows any order. -/
def items? (unordered : Bool) : Value → Option (List Value)
  | .str s => some (s.toList.map fun c => .str (String.singleton c))
  | .bytes b => some (b.map fun byte => .int byte.toNat)
  | .tuple items | .list items => some items
  | .dict pairs => some (pairs.map Prod.fst)
  | .frozenSet items | .set items => if unordered then some items else Option.none
  | _ => Option.none

mutual

/-- An estimate of the size of the value in a compiled program. -/
def size : Value → Nat
  | .none | .ellipsis | .bool _ => 1
  | .int n =>
    if -Nat.pow 2 31 ≤ n && n < Nat.pow 2 31 then 5 else 5 + 2 * ((Number.bitLength n + 14) / 15)
  | .float _ => 9
  | .complex _ => 17
  | .str s => if s.toList.all (fun c => c.toNat < 0x80) && s.utf8ByteSize < 256 then 2 + s.utf8ByteSize
    else 5 + s.utf8ByteSize
  | .bytes b => 5 + b.length
  | .tuple items => (if items.length < 256 then 2 else 5) + sizeItems items
  | .frozenSet items | .list items | .set items => 5 + sizeItems items
  | .dict pairs => 2 + sizePairs pairs

def sizeItems : List Value → Nat
  | [] => 0
  | v :: vs => v.size + sizeItems vs

def sizePairs : List (Value × Value) → Nat
  | [] => 0
  | (k, v) :: ps => k.size + v.size + sizePairs ps

end

end Value

end Speculator
