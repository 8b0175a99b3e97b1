import Speculator.Number.Numeral
import Speculator.Pure.Contract
import Speculator.Pure.Power
import Speculator.Text.Codec
import Speculator.Value.Collection
import Speculator.Value.Comparison
import Speculator.Value.Operation
import Speculator.Value.Text

/-!
# Pure builtin functions

The builtin functions that can be called at compile time, with their contracts.
-/

namespace Speculator.Builtin

open Number (ComplexFloat)

def names : List String :=
  ["abs", "all", "any", "ascii", "bin", "bool", "breakpoint", "bytearray", "bytes", "callable", "chr",
    "classmethod", "compile", "complex", "delattr", "dict", "dir", "divmod", "enumerate", "eval", "exec",
    "filter", "float", "format", "frozenset", "getattr", "globals", "hasattr", "hash", "help", "hex", "id",
    "input", "int", "isinstance", "issubclass", "iter", "len", "list", "locals", "map", "max", "memoryview",
    "min", "next", "object", "oct", "open", "ord", "pow", "print", "property", "range", "repr", "reversed",
    "round", "set", "setattr", "slice", "sorted", "staticmethod", "str", "sum", "super", "tuple", "type",
    "vars", "zip"]

def real : ArgType := .oneOf ["int", "float"]

def number : ArgType := .oneOf ["int", "float", "complex"]

def integer : ArgType := .oneOf ["int"]

def strings : ArgType := .oneOf ["str", "bytes"]

def iterable : ArgType := .oneOf ["str", "bytes", "tuple", "frozenset", "list", "set", "dict"]

def plain : ArgType := .oneOf ["int", "float", "complex", "str", "bytes"]

def numeral : ArgType := .oneOf ["int", "float", "str", "bytes"]

/-! ### Conditions on arguments -/

def ordered : List Value → Bool
  | .set _ :: _ | .frozenSet _ :: _ => false
  | _ => true

def orderedCandidates (args : List Value) : Bool := decide (1 < args.length) || ordered args

def byteOf? (v : Value) : Option UInt8 :=
  match v.asInt? with
  | some n => if 0 ≤ n && n < 256 then some (UInt8.ofNat n.toNat) else none
  | none => none

def holdsBytes : Value → Bool
  | .tuple items => items.all fun v => (byteOf? v).isSome
  | _ => true

def charOf? (v : Value) : Option Char :=
  match v.asInt? with
  | some n => if 0 ≤ n && n.toNat.isValidChar then some (Char.ofNat n.toNat) else none
  | none => none

/-- Whether a text is written in ASCII characters; which others are printable depends on the runtime. -/
def isAsciiText : Value → Bool
  | .str s => Text.isAscii s
  | _ => true

def roundsToPlaces (args : List Value) : Except Fault Bool := do
  match ← argument args 0, args[1]? with
  | .float _, some places => return places.asInt?.any (0 ≤ ·)
  | _, _ => return true

def isInexact : Value → Bool
  | .float _ | .complex _ => true
  | _ => false

/-- Whether a sum has ordered items and no inexact term, whose errors the runtime would compensate. -/
def sumsExactly (args : List Value) : Except Fault Bool := do
  match (← argument args 0).items? true with
  | none => return false
  | some items => return ordered args && (items ++ args[1]?.toList).all fun x => !isInexact x

/-! ### Functions -/

def onFirst (f : Value → Except Fault Value) (args : List Value) : Except Fault Value := argument args 0 >>= f

def itemsOf (v : Value) : Except Fault (List Value) :=
  match v.items? true with
  | some items => .ok items
  | none => .error .typeError

def collect (build : List Value → Except Fault Value) : List Value → Except Fault Value
  | [] => build []
  | v :: _ => itemsOf v >>= build

def intOf (v : Value) : Except Fault Int :=
  match v.asInt? with
  | some n => .ok n
  | none => .error .typeError

def abs (v : Value) : Except Fault Value :=
  match v with
  | .float x => .ok (.float x.abs)
  | .complex c =>
    let r := c.abs
    if r.isInf && c.isFinite then .error .overflow else .ok (.float r)
  | v => (intOf v).map fun n => .int n.natAbs

def ascii (v : Value) : Except Fault Value := .ok (.str (Text.escapeNonAscii v.repr))

def radix (base : Nat) (mark : String) (v : Value) : Except Fault Value :=
  (intOf v).map fun n =>
    .str ((if n < 0 then "-" else "") ++ mark ++ String.ofList (Nat.toDigits base n.natAbs))

def bytes (v : Value) : Except Fault Value :=
  match v with
  | .bytes b => .ok (.bytes b)
  | .tuple items =>
    match items.mapM byteOf? with
    | some b => .ok (.bytes b)
    | none => .error .valueError
  | _ => .error .typeError

def chr (v : Value) : Except Fault Value :=
  match charOf? v with
  | some c => .ok (.str (String.singleton c))
  | none => .error .valueError

def complexOf (v : Value) : Except Fault ComplexFloat :=
  match v with
  | .complex c => .ok c
  | .float x => .ok (.ofFloat x)
  | v => (intOf v >>= Number.floatOfInt).map ComplexFloat.ofFloat

/-- `complex(real, imag)` is `real + imag * 1j`, also when the parts are complex. -/
def complex (args : List Value) : Except Fault Value := do
  let real ← complexOf (← argument args 0)
  match args[1]? with
  | none => return .complex real
  | some w =>
    let imag ← complexOf w
    return .complex ⟨real.re - imag.im, real.im + imag.re⟩

def pairOf (v : Value) : Except Fault (Value × Value) :=
  match v.items? false with
  | some [key, value] => .ok (key, value)
  | some _ => .error .valueError
  | none => .error .typeError

def dict : List Value → Except Fault Value
  | [] => .ok (.dict [])
  | .dict pairs :: _ => .ok (.dict pairs)
  | v :: _ => do
    let items ← itemsOf v
    let pairs ← items.mapM pairOf
    (Value.collectDict pairs).map .dict

def divmod (args : List Value) : Except Fault Value := do
  let v ← argument args 0
  let w ← argument args 1
  match v.asInt?, w.asInt? with
  | some a, some b =>
    if b = 0 then .error .zeroDivision else .ok (.tuple [.int (Int.fdiv a b), .int (Int.fmod a b)])
  | _, _ =>
    let q ← Value.binary .floorDiv v w
    let r ← Value.binary .mod v w
    return .tuple [q, r]

def textOf (v : Value) : Except Fault String :=
  match v with
  | .str s => .ok s
  | .bytes b =>
    match Text.Codec.utf8.decode b with
    | some s => .ok s
    | none => .error .valueError
  | _ => .error .typeError

def float (v : Value) : Except Fault Value :=
  match v with
  | .float x => .ok (.float x)
  | .str _ | .bytes _ => (textOf v >>= Number.readFloat).map .float
  | v => (intOf v >>= Number.floatOfInt).map .float

def int (v : Value) : Except Fault Value :=
  match v with
  | .float x => (Number.truncate x).map .int
  | .str _ | .bytes _ => (textOf v >>= Number.readInt).map .int
  | v => (intOf v).map .int

def len (v : Value) : Except Fault Value :=
  match v.length? with
  | some n => .ok (.int n)
  | none => .error .typeError

def best (op : CompareOp) (v : Value) : List Value → Except Fault Value
  | [] => .ok v
  | w :: rest =>
    match Value.compare op w v with
    | .ok better => best op (if better then w else v) rest
    | .error fault => .error fault

def extremum (op : CompareOp) (args : List Value) : Except Fault Value := do
  let candidates ←
    match args with
    | [v] => itemsOf v
    | args => .ok args
  match candidates with
  | [] => .error .valueError
  | v :: rest => best op v rest

def ord (v : Value) : Except Fault Value :=
  match v with
  | .str s =>
    match s.toList with
    | [c] => .ok (.int c.toNat)
    | _ => .error .typeError
  | .bytes [b] => .ok (.int b.toNat)
  | _ => .error .typeError

def pow : List Value → Except Fault Value
  | [base, exponent] => Value.binary .pow base exponent
  | [base, exponent, modulus] =>
    match base.asInt?, exponent.asInt?, modulus.asInt? with
    | some b, some e, some m =>
      if m = 0 || e < 0 then .error .valueError else .ok (.int (Number.powMod b e.toNat m))
    | _, _, _ => .error .typeError
  | _ => .error .typeError

/-- An estimate of the number of decimal digits, from the bit length and the logarithm of two. -/
def digitEstimate (n : Int) : Nat :=
  (Float.ofNat (Number.bitLength n) * 0.301029995663981195213738894724493027).toUInt64.toNat + 1

/-- The multiple of `10 ^ places` nearest to an integer, half to even: zero when the power is far above the integer,
by the estimate of its digits or by the 32 bits that a number of places has. -/
def roundInt (n : Int) (places : Nat) : Int :=
  if places < Nat.pow 2 32 && places ≤ digitEstimate n then
    Number.roundDiv n (Nat.pow 10 places) * Nat.pow 10 places
  else 0

def round (args : List Value) : Except Fault Value := do
  match ← argument args 0, args[1]? with
  | .float x, none => (Number.roundToInt x).map .int
  | .float x, some places =>
    match places.asInt? with
    | none => .error .typeError
    | some n => .ok (.float (if 0 ≤ n && n ≤ 323 && x.isFinite then Number.roundPlaces x n.toNat else x))
  | v, none => (intOf v).map .int
  | v, some places =>
    let n ← intOf v
    let p ← intOf places
    return .int (if 0 ≤ p then n else roundInt n (-p).toNat)

def sum (args : List Value) : Except Fault Value :=
  match args[1]?.getD (.int 0) with
  | .str _ | .bytes _ => .error .typeError
  | start => do
    let items ← itemsOf (← argument args 0)
    items.foldlM (Value.binary .add) start

/-! ### Contracts -/

def firstIs (test : Value → Bool) : Limits → List Value → Except Fault Bool :=
    fun _ args => (argument args 0).map test

def contracts : List Contract :=
  [ { name := "abs", minArgs := 1, maxArgs := some 1, argTypes := [number], tolerated := [.overflow],
      call := onFirst abs },
    { name := "ascii", minArgs := 1, maxArgs := some 1, argTypes := [.any], call := onFirst ascii },
    { name := "bin", minArgs := 1, maxArgs := some 1, argTypes := [integer], call := onFirst (radix 2 "0b") },
    { name := "bool", minArgs := 1, maxArgs := some 1, argTypes := [plain],
      call := onFirst fun v => .ok (.bool v.truthy) },
    { name := "bytes", minArgs := 1, maxArgs := some 1, argTypes := [.oneOf ["bytes", "tuple"]],
      check := some (firstIs holdsBytes), call := onFirst bytes },
    { name := "chr", minArgs := 1, maxArgs := some 1, argTypes := [integer],
      check := some (firstIs fun v => (charOf? v).isSome), call := onFirst chr },
    { name := "complex", minArgs := 1, maxArgs := some 2, argTypes := [number, number],
      tolerated := [.valueError, .typeError, .overflow], call := complex },
    { name := "dict", minArgs := 0, maxArgs := some 1, argTypes := [iterable],
      check := some fun _ args => .ok (ordered args), tolerated := [.typeError, .valueError], call := dict },
    { name := "divmod", minArgs := 2, maxArgs := some 2, argTypes := [real, real],
      check := some fun _ args => (argument args 1).map Value.truthy, tolerated := [.overflow], call := divmod },
    { name := "float", minArgs := 1, maxArgs := some 1, argTypes := [numeral],
      tolerated := [.valueError, .overflow], call := onFirst float },
    { name := "frozenset", minArgs := 0, maxArgs := some 1, argTypes := [iterable], tolerated := [.typeError],
      call := collect fun items => (Value.collectSet items).map .frozenSet },
    { name := "hex", minArgs := 1, maxArgs := some 1, argTypes := [integer], call := onFirst (radix 16 "0x") },
    { name := "int", minArgs := 1, maxArgs := some 1, argTypes := [numeral],
      tolerated := [.valueError, .overflow], call := onFirst int },
    { name := "len", minArgs := 1, maxArgs := some 1, argTypes := [iterable], call := onFirst len },
    { name := "list", minArgs := 1, maxArgs := some 1, argTypes := [iterable],
      check := some fun _ args => .ok (ordered args), call := collect fun items => .ok (.list items) },
    { name := "max", minArgs := 1, maxArgs := none, argTypes := [.any],
      check := some fun _ args => .ok (orderedCandidates args), tolerated := [.typeError, .valueError],
      call := extremum .gt },
    { name := "min", minArgs := 1, maxArgs := none, argTypes := [.any],
      check := some fun _ args => .ok (orderedCandidates args), tolerated := [.typeError, .valueError],
      call := extremum .lt },
    { name := "oct", minArgs := 1, maxArgs := some 1, argTypes := [integer], call := onFirst (radix 8 "0o") },
    { name := "ord", minArgs := 1, maxArgs := some 1, argTypes := [strings],
      check := some (firstIs fun v => v.length? == some 1), call := onFirst ord },
    { name := "pow", minArgs := 2, maxArgs := some 3, argTypes := [real, real, real],
      check := some fun limits args =>
        return powerAllowed limits.maxIntBits (← argument args 0) (← argument args 1) args[2]?,
      tolerated := [.valueError, .typeError, .overflow, .zeroDivision], call := pow },
    { name := "repr", minArgs := 1, maxArgs := some 1, argTypes := [plain], check := some (firstIs isAsciiText),
      call := onFirst fun v => .ok (.str v.repr) },
    { name := "round", minArgs := 1, maxArgs := some 2, argTypes := [real, integer],
      check := some fun _ => roundsToPlaces, tolerated := [.valueError, .overflow], call := round },
    { name := "set", minArgs := 1, maxArgs := some 1, argTypes := [iterable], tolerated := [.typeError],
      call := collect fun items => (Value.collectSet items).map .set },
    { name := "str", minArgs := 1, maxArgs := some 1, argTypes := [.oneOf ["int", "float", "complex", "str"]],
      call := onFirst fun v => .ok (.str v.text) },
    { name := "sum", minArgs := 1, maxArgs := some 2, argTypes := [.any, .any],
      check := some fun _ => sumsExactly, tolerated := [.typeError], call := sum },
    { name := "tuple", minArgs := 1, maxArgs := some 1, argTypes := [iterable],
      check := some fun _ args => .ok (ordered args), call := collect fun items => .ok (.tuple items) } ]

end Speculator.Builtin
