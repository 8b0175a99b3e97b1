import Speculator.Fault
import Speculator.Number.Scaled
import Speculator.Text.Blank

/-!
# Numerals

Reading integers and floats from text.  Blank characters around a numeral are ignored, and single underscores may
stand between two digits.
-/

namespace Speculator.Number

def isDigit (c : Char) : Bool := '0' ≤ c && c ≤ '9'

def digitsValue (digits : List Char) : Nat := digits.foldl (fun n c => 10 * n + (c.toNat - '0'.toNat)) 0

/-- Removes the underscores of a numeral that follows `before`; each must stand between two digits. -/
def dropUnderscores (before : Option Char) : List Char → Option (List Char)
  | [] => some []
  | c :: cs =>
    if c = '_' then
      if before.any isDigit && cs.head?.any isDigit then dropUnderscores (some c) cs else none
    else (dropUnderscores (some c) cs).map (c :: ·)

/-- The characters of a numeral without surrounding blanks and without underscores. -/
def numeralChars (text : String) : Option (List Char) := dropUnderscores none (Text.trim text).toList

def splitSign : List Char → Bool × List Char
  | '-' :: cs => (true, cs)
  | '+' :: cs => (false, cs)
  | cs => (false, cs)

def readInt (text : String) : Except Fault Int :=
  match numeralChars text with
  | none => .error .valueError
  | some cs =>
    let (negative, digits) := splitSign cs
    if digits.isEmpty || !digits.all isDigit then .error .valueError
    else
      let n : Int := digitsValue digits
      .ok (if negative then -n else n)

/-- Reads an exponent: an `e` in either case, an optional sign and digits, or nothing. -/
def readExponent : List Char → Option Int
  | [] => some 0
  | c :: cs =>
    if c = 'e' || c = 'E' then
      let (negative, digits) := splitSign cs
      if digits.isEmpty || !digits.all isDigit then none
      else some (if negative then -(digitsValue digits : Int) else digitsValue digits)
    else none

/-- The float nearest to `mantissa * 10 ^ exponent`.  Far outside of the range the magnitude decides. -/
def nearestDecimal (mantissa : Nat) (exponent : Int) : Float :=
  let magnitude : Int := (Nat.toDigits 10 mantissa).length + exponent
  if mantissa = 0 || magnitude < -330 then 0.0
  else if magnitude > 310 then infinity
  else Float.ofScientific mantissa (exponent < 0) exponent.natAbs

/-- Reads an unsigned decimal: digits with at most one point among them and an optional exponent. -/
def readDecimal (cs : List Char) : Option Float :=
  let whole := cs.takeWhile isDigit
  let rest := cs.dropWhile isDigit
  let (frac, rest) :=
    match rest with
    | '.' :: after => (after.takeWhile isDigit, after.dropWhile isDigit)
    | rest => ([], rest)
  if whole.isEmpty && frac.isEmpty then none
  else (readExponent rest).map fun e => nearestDecimal (digitsValue (whole ++ frac)) (e - frac.length)

/-- Reads a float: an optional sign and a decimal, an infinity or a NaN, whose names have any case. -/
def readFloat (text : String) : Except Fault Float :=
  match numeralChars text with
  | none => .error .valueError
  | some cs =>
    let (negative, unsigned) := splitSign cs
    let word := String.ofList (unsigned.map Char.toLower)
    let magnitude :=
      if word == "inf" || word == "infinity" then some infinity
      else if word == "nan" then some notANumber
      else readDecimal unsigned
    match magnitude with
    | some x => .ok (if negative then -x else x)
    | none => .error .valueError

end Speculator.Number
