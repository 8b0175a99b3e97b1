/-!
# Arithmetic progressions

The integers `start, start + step, …` strictly before a stop, or strictly after it when the step is negative.
-/

namespace Speculator.Number

/-- The number of terms of the progression before the stop; none when the step is zero. -/
def termCount (start stop step : Int) : Nat :=
  let (low, high) := if 0 < step then (start, stop) else (stop, start)
  if step ≠ 0 ∧ low < high then ((high - low - 1).tdiv step.natAbs + 1).toNat else 0

/-- The items `item, item + step, …`, as many as the count says. -/
def successors (step : Int) : Int → Nat → List Int
  | _, 0 => []
  | item, count + 1 => item :: successors step (item + step) count

def terms (start stop step : Int) : List Int := successors step start (termCount start stop step)

end Speculator.Number
