import Speculator.Number.Scaled

/-!
# Shortest decimals

The shortest decimal that reads back as a given float.  The reals that round to a float form an interval around it,
whose ends belong to it when the mantissa is even.  For one digit, two digits and so on, the two decimals next to the
float with that many digits are tested against the interval; the first number of digits with a hit wins, and of two
hits the nearer one, or the greater one if they are equally near.  All the tests are exact: every quantity is a
fraction of natural numbers.
-/

namespace Speculator.Number

/-- The decimal `d₁.d₂d₃… * 10 ^ exponent` with the digits `d₁d₂d₃…`. -/
structure Decimal where
  digits : List Char
  exponent : Int
deriving DecidableEq, Repr

/-- The reals that round to a positive float, as numerators over a common denominator. -/
structure Interval where
  low : Nat
  value : Nat
  high : Nat
  den : Nat
  closed : Bool
deriving Repr

namespace Interval

/-- Around the positive float `mant * 2 ^ exp`.  Below a power of two the neighbour is twice as near. -/
def around (s : Scaled) : Interval :=
  let below := if s.mant = Nat.pow 2 52 && decide (-1074 < s.exp) then 1 else 2
  let scale := Nat.pow 2 (s.exp - 2).toNat
  { low := (4 * s.mant - below) * scale
    value := 4 * s.mant * scale
    high := (4 * s.mant + 2) * scale
    den := Nat.pow 2 (2 - s.exp).toNat
    closed := s.mant % 2 == 0 }

def holds (i : Interval) (n : Nat) : Bool :=
  if i.closed then i.low ≤ n && n ≤ i.high else i.low < n && n < i.high

def shift (i : Interval) (e : Int) : Interval :=
  let scale := Nat.pow 10 (-e).toNat
  { low := i.low * scale
    value := i.value * scale
    high := i.high * scale
    den := i.den * Nat.pow 10 e.toNat
    closed := i.closed }

def width (n : Nat) : Nat := (Nat.toDigits 10 n).length

/-- The exponent of the first decimal digit of the value. -/
def magnitude (i : Interval) : Int :=
  let guess : Int := (width i.value : Int) - width i.den
  if i.den * Nat.pow 10 guess.toNat ≤ i.value * Nat.pow 10 (-guess).toNat then guess else guess - 1

/-- The integer in the interval that is one of the two next to the value.  If both are, it is the nearer one, and the
greater one in the middle between them. -/
def integer? (i : Interval) : Option Nat :=
  let down := i.value / i.den
  let hitDown := i.holds (down * i.den)
  let hitUp := i.holds ((down + 1) * i.den)
  if hitDown && hitUp then
    some (if 2 * (i.value % i.den) < i.den then down else down + 1)
  else if hitDown then some down
  else if hitUp then some (down + 1)
  else none

/-- The first decimal with `digits`, `digits + 1`, … digits in the interval, in at most `more` steps; its unit is
`10 ^ unit`. -/
def search (i : Interval) (unit : Int) : Nat → Nat × Int
  | 0 => ((i.shift unit).value / (i.shift unit).den, unit)
  | more + 1 =>
    match (i.shift unit).integer? with
    | some n => (n, unit)
    | none => search i (unit - 1) more

end Interval

def dropZeroEnd (digits : List Char) : List Char :=
  match (digits.reverse.dropWhile (· == '0')).reverse with
  | [] => ['0']
  | kept => kept

/-- The shortest decimal that reads back as the absolute value of a finite float. -/
def shortest (x : Float) : Decimal :=
  let s := Scaled.ofFloat x
  if s.mant = 0 then ⟨['0'], 0⟩
  else
    let i := Interval.around s
    let (n, unit) := i.search i.magnitude 17
    let digits := Nat.toDigits 10 n
    ⟨dropZeroEnd digits, unit + digits.length - 1⟩

end Speculator.Number
