import Speculator.Number.Bits

/-!
# Exact values of floats

A finite float is a signed mantissa times a power of two.  The functions that need the exact value of a float, and
those that round an exact value to the nearest float, are defined through that form.
-/

namespace Speculator.Number

/-- The number `mant * 2 ^ exp` with a sign. -/
structure Scaled where
  negative : Bool
  mant : Nat
  exp : Int
deriving DecidableEq, Repr

def signBit (x : Float) : Bool := decide (Nat.pow 2 63 ≤ x.toBits.toNat)

def zeroSignedAs (x : Float) : Float := if signBit x then -0.0 else 0.0

def infinity : Float := Float.ofBits 0x7ff0000000000000

def notANumber : Float := Float.ofBits 0x7ff8000000000000

namespace Scaled

def ofFloat (x : Float) : Scaled :=
  let bits := x.toBits.toNat
  let fraction := bits % Nat.pow 2 52
  let biased := bits / Nat.pow 2 52 % Nat.pow 2 11
  { negative := signBit x
    mant := if biased = 0 then fraction else Nat.pow 2 52 + fraction
    exp := (max biased 1 : Nat) - 1075 }

def signed (s : Scaled) : Int := if s.negative then -s.mant else s.mant

def mantAt (s : Scaled) (exp : Int) : Nat := s.mant * Nat.pow 2 (s.exp - exp).toNat

/-- The numerator of the value over the denominator `den`. -/
def num (s : Scaled) : Int := s.signed * Nat.pow 2 s.exp.toNat

def den (s : Scaled) : Nat := Nat.pow 2 (-s.exp).toNat

def floor (s : Scaled) : Int := Int.fdiv s.num s.den

def trunc (s : Scaled) : Int := Int.tdiv s.num s.den

def round (s : Scaled) : Int := roundDiv s.num s.den

def isInteger (s : Scaled) : Bool := s.num % s.den == 0

end Scaled

/-- The float `2 ^ e`, for `-1074 ≤ e ≤ 1023`. -/
def twoPow (e : Int) : Float :=
  if e < -1022 then Float.ofBits (UInt64.ofNat (Nat.pow 2 (e + 1074).toNat))
  else Float.ofBits (UInt64.ofNat ((e + 1023).toNat * Nat.pow 2 52))

/-- The float nearest to `m * 2 ^ e`, the one with even mantissa when two are equally near. -/
def nearest (m : Nat) (e : Int) : Float :=
  let target := max (e + bitLength m - 53) (-1074)
  let mant :=
    if target ≤ e then m * Nat.pow 2 (e - target).toNat else (roundDiv m (Nat.pow 2 (target - e).toNat)).toNat
  if mant = 0 then 0.0
  else if target > 971 then infinity
  else Float.ofNat mant * twoPow target

def floatFloor (x : Float) : Float :=
  if x.isFinite && x != 0.0 then Float.ofInt (Scaled.ofFloat x).floor else x

def isInteger (x : Float) : Bool := x.isFinite && (Scaled.ofFloat x).isInteger

def remainder (x y : Float) : Float :=
  if x.isNaN || y.isNaN || x.isInf || y == 0.0 then notANumber
  else if y.isInf then x
  else
    let a := Scaled.ofFloat x
    let b := Scaled.ofFloat y
    let exp := min a.exp b.exp
    let r := nearest (a.mantAt exp % b.mantAt exp) exp
    if a.negative then -r else r

/-- The hypotenuse for the legs `x ≥ y ≥ 0`: the rounded root of the sum of the squares, less its error, computed from
the differences between the root and the legs. -/
def correctedRoot (x y : Float) : Float :=
  let h := Float.sqrt (x * x + y * y)
  let (s, t) :=
    if h ≤ 2.0 * y then
      let d := h - y
      (x * (2.0 * d - x), (d - 2.0 * (x - y)) * d)
    else
      let d := h - x
      (2.0 * d * (x - 2.0 * y), (4.0 * d - y) * y + d * d)
  h - (s + t) / (2.0 * h)

/-- The hypotenuse for the legs `x` and `y`.  Legs whose squares would overflow or underflow are scaled by a power of
two, and a leg far below the other one only adds to it. -/
def hypotenuse (x y : Float) : Float :=
  if x.isInf || y.isInf then infinity
  else if x.isNaN || y.isNaN then notANumber
  else
    let long := if x.abs < y.abs then y.abs else x.abs
    let short := if x.abs < y.abs then x.abs else y.abs
    let scale := twoPow 600
    if long > twoPow 511 then
      if short ≤ long * twoPow (-54) then long + short else correctedRoot (long / scale) (short / scale) * scale
    else if short < twoPow (-459) then
      if long ≥ short * twoPow 54 then long + short else correctedRoot (long * scale) (short * scale) / scale
    else if short ≤ long * twoPow (-54) then long + short
    else correctedRoot long short

/-- The float nearest to a finite float rounded to a number of decimal places, half to even. -/
def roundPlaces (x : Float) (places : Nat) : Float :=
  let s := Scaled.ofFloat x
  let units := roundDiv (s.num.natAbs * Nat.pow 10 places) s.den
  let r := Float.ofScientific units.toNat true places
  if s.negative then -r else r

/-- An integer as a float, when it has at most 53 bits. -/
def floatOfInt? (n : Int) : Option Float := if bitLength n ≤ 53 then some (Float.ofInt n) else none

end Speculator.Number
