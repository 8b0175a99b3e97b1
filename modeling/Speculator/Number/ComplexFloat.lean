import Speculator.Fault
import Speculator.Number.Text

/-!
# Complex numbers

Pairs of floats with the arithmetic of the plane, compared part by part.
-/

namespace Speculator.Number

structure ComplexFloat where
  re : Float
  im : Float
deriving DecidableEq

namespace ComplexFloat

def ofFloat (x : Float) : ComplexFloat := ⟨x, 0.0⟩

def isZero (c : ComplexFloat) : Bool := c.re == 0.0 && c.im == 0.0

def isFinite (c : ComplexFloat) : Bool := c.re.isFinite && c.im.isFinite

/-- Equality of both parts as floats: a NaN differs from itself, and the two zeros are equal. -/
def equals (a b : ComplexFloat) : Bool := a.re == b.re && a.im == b.im

def abs (c : ComplexFloat) : Float := hypotenuse c.re c.im

def add (a b : ComplexFloat) : ComplexFloat := ⟨a.re + b.re, a.im + b.im⟩

def sub (a b : ComplexFloat) : ComplexFloat := ⟨a.re - b.re, a.im - b.im⟩

def mul (a b : ComplexFloat) : ComplexFloat := ⟨a.re * b.re - a.im * b.im, a.re * b.im + a.im * b.re⟩

def neg (a : ComplexFloat) : ComplexFloat := ⟨-a.re, -a.im⟩

/-- Both parts are divided by the larger part of the divisor first, so that nothing overflows on the way. -/
def div (a b : ComplexFloat) : Except Fault ComplexFloat :=
  if b.re.abs ≥ b.im.abs then
    if b.re.abs == 0.0 then .error .zeroDivision
    else
      let ratio := b.im / b.re
      let denom := b.re + b.im * ratio
      .ok ⟨(a.re + a.im * ratio) / denom, (a.im - a.re * ratio) / denom⟩
  else
    let ratio := b.re / b.im
    let denom := b.re * ratio + b.im
    .ok ⟨(a.re * ratio + a.im) / denom, (a.im * ratio - a.re) / denom⟩

/-- The imaginary part alone when the real part is the positive zero, else both in parentheses. -/
def text (c : ComplexFloat) : String :=
  let im := floatText false c.im
  if c.re == 0.0 && !signBit c.re then im ++ "j"
  else
    let sign := if im.toList.head? == some '-' then "" else "+"
    "(" ++ floatText false c.re ++ sign ++ im ++ "j)"

end ComplexFloat

end Speculator.Number
