import Speculator.Value.Basic

/-!
# Equality of values

Two equalities.  `Value.equals` is the one that a program sees: numbers of different types are equal when they
denote the same number, and sets are equal when each holds the items of the other.  `==` compares values as they are
stored, type by type and part by part, with floats compared as numbers.
-/

namespace Speculator

open Number (ComplexFloat Scaled)

namespace Numeric

/-- How an integer compares with a float; `none` for a NaN. -/
def compareIntFloat (n : Int) (x : Float) : Option Ordering :=
  if x.isNaN then none
  else if x.isInf then some (if x > 0.0 then .lt else .gt)
  else
    let s := Scaled.ofFloat x
    match compare n s.floor with
    | .eq => some (if s.isInteger then .eq else .lt)
    | order => some order

/-- How two real numbers compare; `none` when one is a NaN or not real. -/
def compare? : Numeric → Numeric → Option Ordering
  | .int m, .int n => some (compare m n)
  | .float x, .float y =>
    if x < y then some .lt else if x == y then some .eq else if x > y then some .gt else none
  | .int n, .float x => compareIntFloat n x
  | .float x, .int n => (compareIntFloat n x).map Ordering.swap
  | _, _ => none

def equals : Numeric → Numeric → Bool
  | .complex a, .complex b => a.equals b
  | .complex c, other | other, .complex c => c.im == 0.0 && compare? (.float c.re) other == some .eq
  | a, b => compare? a b == some .eq

end Numeric

namespace Value

def equalsNumber (a b : Value) : Bool :=
  match a.asNumeric?, b.asNumeric? with
  | some m, some n => m.equals n
  | _, _ => false

mutual

/-- Equality as a program sees it. -/
def equals : Value → Value → Bool
  | .none, .none => true
  | .ellipsis, .ellipsis => true
  | .str a, .str b => a == b
  | .bytes a, .bytes b => a == b
  | .tuple a, .tuple b | .list a, .list b => equalsItems a b
  | .frozenSet a, .frozenSet b | .frozenSet a, .set b | .set a, .frozenSet b | .set a, .set b =>
    a.length == b.length && equalsSome a b
  | .dict a, .dict b => a.length == b.length && equalsPairs a b
  | a, b => equalsNumber a b

def equalsItems : List Value → List Value → Bool
  | [], [] => true
  | a :: as, b :: bs => a.equals b && equalsItems as bs
  | _, _ => false

def equalsSome : List Value → List Value → Bool
  | [], _ => true
  | a :: as, bs => (bs.any fun b => a.equals b) && equalsSome as bs

/-- Whether each key of the first list is in the second one, where its first entry has an equal value. -/
def equalsPairs : List (Value × Value) → List (Value × Value) → Bool
  | [], _ => true
  | (k, v) :: ps, qs =>
    (match qs.find? fun q => k.equals q.1 with
      | some q => v.equals q.2
      | Option.none => false) && equalsPairs ps qs

end

mutual

/-- Equality of two values as they are stored: same constructors, and equal parts in order. -/
def same : Value → Value → Bool
  | .none, .none => true
  | .ellipsis, .ellipsis => true
  | .bool a, .bool b => a == b
  | .int a, .int b => a == b
  | .float a, .float b => a == b
  | .complex a, .complex b => a.equals b
  | .str a, .str b => a == b
  | .bytes a, .bytes b => a == b
  | .tuple a, .tuple b | .frozenSet a, .frozenSet b | .list a, .list b | .set a, .set b => sameItems a b
  | .dict a, .dict b => samePairs a b
  | _, _ => false

def sameItems : List Value → List Value → Bool
  | [], [] => true
  | a :: as, b :: bs => a.same b && sameItems as bs
  | _, _ => false

def samePairs : List (Value × Value) → List (Value × Value) → Bool
  | [], [] => true
  | (a, x) :: as, (b, y) :: bs => a.same b && x.same y && samePairs as bs
  | _, _ => false

end

instance : BEq Value := ⟨same⟩

end Value

end Speculator
