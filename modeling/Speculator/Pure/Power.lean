import Speculator.Number.Float
import Speculator.Value.Basic

/-!
# Powers that may be evaluated

The condition under which a power is evaluated at compile time: it raises nothing, and an integer result has few
bits.
-/

namespace Speculator

def Value.toFloat? : Value → Option Float
  | .float x => some x
  | v => v.asInt?.map Float.ofInt

/-- Whether the bits of a power of integers, estimated by a logarithm, stay below a bound. -/
def powerBitsBelow (maxIntBits : Nat) (base exponent : Value) : Bool :=
  match base.asInt?, exponent.asInt? with
  | some b, some e =>
    b == 0 || e ≤ 0 || !(Float.log2 (Float.ofInt b.natAbs) * Float.ofInt e ≥ Float.ofNat maxIntBits)
  | _, _ => true

/-- Whether a modulus can be applied: all three are integers, the modulus is not zero and the exponent not
negative. -/
def modulusAllowed (base exponent modulus : Value) : Bool :=
  match base.asInt?, exponent.asInt?, modulus.asInt? with
  | some _, some e, some m => m != 0 && 0 ≤ e
  | _, _, _ => false

/-- Whether `base ** exponent`, with an optional modulus, may be evaluated. -/
def powerAllowed (maxIntBits : Nat) (base exponent : Value) (modulus : Option Value) : Bool :=
  match base.toFloat?, exponent.toFloat? with
  | some b, some e =>
    !(b == 0.0 && e < 0.0) && !(b < 0.0 && e < 1.0 && e != 0.0) && modulus.all (modulusAllowed base exponent) &&
      powerBitsBelow maxIntBits base exponent
  | _, _ => false

end Speculator
