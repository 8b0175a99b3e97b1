import Speculator.Value.Basic

/-!
# Limits on folded values

A value computed by the optimizer is stored in the tree only when it is small.
-/

namespace Speculator

structure Limits where
  /-- The greatest estimated size of a constant. -/
  maxConstantSize : Nat := 128
  /-- The greatest number of bits of an integer, without its sign. -/
  maxIntBits : Nat := 256
  maxBytesLen : Nat := 128
  maxStrLen : Nat := 128
  maxSeqLen : Nat := 32
deriving DecidableEq, Repr, Inhabited

def Limits.wide : Limits := ⟨1024, 1024, 1024, 1024, 1024⟩

/-- Whether a value is small enough.  Floats that have no literal are refused. -/
def Limits.admits (l : Limits) (v : Value) : Bool :=
  match v with
  | .int n => decide (Number.bitLength n ≤ l.maxIntBits)
  | .bytes b => decide (b.length ≤ l.maxBytesLen)
  | .str s => decide (s.length ≤ l.maxStrLen)
  | v =>
    let finite :=
      match v with
      | .float x => x.isFinite
      | .complex c => c.isFinite
      | _ => true
    let short := !v.isContainer || v.length?.all (· ≤ l.maxSeqLen)
    finite && short && decide (v.size ≤ l.maxConstantSize)

end Speculator
