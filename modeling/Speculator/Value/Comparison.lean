import Speculator.Operator
import Speculator.Text.Blank
import Speculator.Value.Equality

/-!
# Comparisons of values

The comparison operators on literal values.  The identity of objects is not a property of values, so `is` and
`is not` are refused.
-/

namespace Speculator

def CompareOp.holds (op : CompareOp) (order : Ordering) : Bool :=
  match op with
  | .lt => order == .lt
  | .ltE => order != .gt
  | .gt => order == .gt
  | .gtE => order != .lt
  | .eq => order == .eq
  | .notEq => order != .eq
  | _ => false

namespace Value

/-- The order of two numbers.  Complex numbers have none, and every comparison with a NaN is false. -/
def orderNumbers (op : CompareOp) (left right : Value) : Except Fault Bool :=
  match left.asNumeric?, right.asNumeric? with
  | some (.complex _), some _ | some _, some (.complex _) => .error .typeError
  | some a, some b => .ok ((Numeric.compare? a b).any op.holds)
  | _, _ => .error .typeError

def orderSets (op : CompareOp) (a b : List Value) : Except Fault Bool :=
  match op with
  | .ltE => .ok (equalsSome a b)
  | .lt => .ok (decide (a.length < b.length) && equalsSome a b)
  | .gtE => .ok (equalsSome b a)
  | .gt => .ok (decide (b.length < a.length) && equalsSome b a)
  | _ => .error .typeError

mutual

def order (op : CompareOp) : Value → Value → Except Fault Bool
  | .str a, .str b => .ok (op.holds (compare a b))
  | .bytes a, .bytes b => .ok (op.holds (compare a b))
  | .tuple a, .tuple b | .list a, .list b => orderItems op a b
  | .frozenSet a, .frozenSet b | .frozenSet a, .set b | .set a, .frozenSet b | .set a, .set b => orderSets op a b
  | left, right => orderNumbers op left right

/-- Sequences are ordered by their first items that differ, or by their lengths. -/
def orderItems (op : CompareOp) : List Value → List Value → Except Fault Bool
  | a :: as, b :: bs => if a.equals b then orderItems op as bs else order op a b
  | [], [] => .ok (op.holds .eq)
  | [], _ :: _ => .ok (op.holds .lt)
  | _ :: _, [] => .ok (op.holds .gt)

end

/-- Whether a container holds an item.  Texts and byte strings hold their substrings. -/
def contains (container item : Value) : Except Fault Bool :=
  match container with
  | .str s =>
    match item with
    | .str needle => .ok (Text.occursIn needle.toList s.toList)
    | _ => .error .typeError
  | .bytes b =>
    match item with
    | .bytes needle => .ok (Text.occursIn needle b)
    | item =>
      match item.asInt? with
      | Option.none => .error .typeError
      | some n => if 0 ≤ n && n < 256 then .ok (b.contains (UInt8.ofNat n.toNat)) else .error .valueError
  | .tuple items | .list items => .ok (items.any fun v => v.equals item)
  | .frozenSet items | .set items =>
    if item.isHashable then .ok (items.any fun v => v.equals item) else .error .typeError
  | .dict pairs =>
    if item.isHashable then .ok (pairs.any fun p => p.1.equals item) else .error .typeError
  | _ => .error .typeError

def compare (op : CompareOp) (left right : Value) : Except Fault Bool :=
  match op with
  | .eq => .ok (left.equals right)
  | .notEq => .ok !(left.equals right)
  | .lt | .ltE | .gt | .gtE => order op left right
  | .isIn => contains right left
  | .notIn => (contains right left).map not
  | .is | .isNot => .error .typeError

end Value

end Speculator
