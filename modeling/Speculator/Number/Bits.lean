/-!
# Integers as bit strings

The operations that read an integer as an infinite two's complement bit string, the bit length, and powers modulo an
integer.
-/

namespace Speculator.Number

def bitLength (n : Int) : Nat := if n = 0 then 0 else n.natAbs.log2 + 1

def natAndNot (m n : Nat) : Nat := m ^^^ (m &&& n)

/-- Bitwise conjunction.  A negative number `-(m+1)` has the complemented bits of `m`. -/
def intAnd : Int → Int → Int
  | .ofNat m, .ofNat n => .ofNat (m &&& n)
  | .ofNat m, .negSucc n => .ofNat (natAndNot m n)
  | .negSucc m, .ofNat n => .ofNat (natAndNot n m)
  | .negSucc m, .negSucc n => .negSucc (m ||| n)

def intOr : Int → Int → Int
  | .ofNat m, .ofNat n => .ofNat (m ||| n)
  | .ofNat m, .negSucc n => .negSucc (natAndNot n m)
  | .negSucc m, .ofNat n => .negSucc (natAndNot m n)
  | .negSucc m, .negSucc n => .negSucc (m &&& n)

def intXor : Int → Int → Int
  | .ofNat m, .ofNat n => .ofNat (m ^^^ n)
  | .ofNat m, .negSucc n => .negSucc (m ^^^ n)
  | .negSucc m, .ofNat n => .negSucc (m ^^^ n)
  | .negSucc m, .negSucc n => .ofNat (m ^^^ n)

/-- `base ^ exponent` modulo `modulus`, by squaring.  A result other than zero has the sign of the modulus. -/
def powMod (base : Int) (exponent : Nat) (modulus : Int) : Int :=
  if exponent = 0 then Int.fmod 1 modulus
  else
    let half := powMod base (exponent / 2) modulus
    let square := Int.fmod (half * half) modulus
    if exponent % 2 = 0 then square else Int.fmod (square * base) modulus
termination_by exponent
decreasing_by omega

/-- The integer nearest to `n / d`, the even one when two are equally near. -/
def roundDiv (n : Int) (d : Nat) : Int :=
  let quotient := Int.fdiv n d
  let twice := 2 * Int.fmod n d
  if twice > d || (twice == (d : Int) && quotient % 2 != 0) then quotient + 1 else quotient

end Speculator.Number
