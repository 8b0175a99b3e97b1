import Speculator.Number.Shortest

/-!
# Text of floats

A float is written by its shortest decimal: with a decimal point in place when the exponent is from -4 to 15, and
with an exponent of at least two digits otherwise.
-/

namespace Speculator.Number

/-- Writes a decimal.  `point` asks for `.0` after an integer written without exponent. -/
def layout (point negative : Bool) (d : Decimal) : String :=
  let body :=
    if -4 ≤ d.exponent && d.exponent < 16 then
      let whole := d.exponent.toNat + 1
      let (int, frac) :=
        if 0 ≤ d.exponent then
          (d.digits.take whole ++ List.replicate (whole - d.digits.length) '0', d.digits.drop whole)
        else (['0'], List.replicate (-d.exponent - 1).toNat '0' ++ d.digits)
      if frac.isEmpty then (if point then int ++ ['.', '0'] else int) else int ++ '.' :: frac
    else
      let fraction := if d.digits.tail.isEmpty then [] else '.' :: d.digits.tail
      let exponent := Nat.toDigits 10 d.exponent.natAbs
      d.digits.take 1 ++ fraction ++ 'e' :: (if d.exponent < 0 then '-' else '+') ::
        (List.replicate (2 - exponent.length) '0' ++ exponent)
  String.ofList (if negative then '-' :: body else body)

def floatText (point : Bool) (x : Float) : String :=
  if x.isNaN then "nan"
  else if x.isInf then (if x > 0.0 then "inf" else "-inf")
  else layout point (signBit x) (shortest x)

end Speculator.Number
