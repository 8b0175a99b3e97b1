import Speculator.Fault
import Speculator.Number.Scaled

/-!
# Float operations that may fail

Division with remainder, powers, and the conversions between integers and floats.
-/

namespace Speculator.Number

def truncate (x : Float) : Except Fault Int :=
  if x.isNaN then .error .valueError
  else if x.isInf then .error .overflow
  else .ok (Scaled.ofFloat x).trunc

def roundToInt (x : Float) : Except Fault Int :=
  if x.isNaN then .error .valueError
  else if x.isInf then .error .overflow
  else .ok (Scaled.ofFloat x).round

/-- The floor quotient and the remainder with the sign of the divisor, which is not zero. -/
def divMod (x y : Float) : Float × Float :=
  let r := remainder x y
  let q := (x - r) / y
  let (q, r) :=
    if r != 0.0 then
      if (y < 0.0 : Bool) != (r < 0.0 : Bool) then (q - 1.0, r + y) else (q, r)
    else (q, zeroSignedAs y)
  let floored :=
    if q != 0.0 then
      let f := floatFloor q
      if q - f > 0.5 then f + 1.0 else f
    else zeroSignedAs (x / y)
  (floored, r)

/-- Powers.  A negative base with a fractional exponent has no real power. -/
def power (x y : Float) : Except Fault Float :=
  if y == 0.0 then .ok 1.0
  else if x == 0.0 && y < 0.0 then .error .zeroDivision
  else if x < 0.0 && y.isFinite && !isInteger y then .error .valueError
  else
    let r := Float.pow x y
    if r.isInf && x.isFinite && y.isFinite then .error .overflow else .ok r

/-- The quotient of two integers that are exact floats. -/
def divideInts (x y : Int) : Except Fault Float :=
  if y = 0 then .error .zeroDivision
  else
    match floatOfInt? x, floatOfInt? y with
    | some a, some b => .ok (a / b)
    | _, _ => .error .overflow

/-- An integer as the nearest float, when that is finite. -/
def floatOfInt (n : Int) : Except Fault Float :=
  let x := Float.ofInt n
  if x.isFinite then .ok x else .error .overflow

end Speculator.Number
