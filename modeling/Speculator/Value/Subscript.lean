import Speculator.Value.Equality

/-!
# Subscripts of values

Items and slices of literal values.
-/

namespace Speculator.Value

def itemAt {α : Type} (items : List α) (index : Int) : Except Fault α :=
  let position := if index < 0 then index + items.length else index
  if position < 0 then .error .indexError
  else
    match items[position.toNat]? with
    | some item => .ok item
    | Option.none => .error .indexError

def subscript (value index : Value) : Except Fault Value :=
  match value with
  | .dict pairs =>
    if index.isHashable then
      match pairs.find? fun p => p.1.equals index with
      | some p => .ok p.2
      | Option.none => .error .keyError
    else .error .typeError
  | value =>
    match index.asInt? with
    | Option.none => .error .typeError
    | some n =>
      match value with
      | .str s => (itemAt s.toList n).map fun c => .str (String.singleton c)
      | .bytes b => (itemAt b n).map fun byte => .int byte.toNat
      | .tuple items | .list items => itemAt items n
      | _ => .error .typeError

/-! ### Slices

The bounds of a slice are integers of any size, and the positions of its items are counted in signed integers of 128
bits.
-/

def fitsMachine (n : Int) : Bool := -Nat.pow 2 127 ≤ n && n < Nat.pow 2 127

/-- The machine integer for a bound; one that does not fit is far outside of every sequence. -/
def machineBound (bound : Int) : Int :=
  if fitsMachine bound then bound else if bound < 0 then -Nat.pow 2 63 else Nat.pow 2 63 - 1

/-- A bound of a slice: a negative one counts from the end, and the result is moved into `low` to `high`. -/
def clampBound (length : Nat) (low high bound : Int) : Int :=
  max low (min high (if bound < 0 then bound + length else bound))

/-- The positions that a walk along a sequence comes through. -/
structure Walk where
  positions : List Int
  /-- Whether the walk ended because the next position does not fit the machine. -/
  overrun : Bool
deriving DecidableEq, Repr

/-- Walks from a position by steps, up to the last position before `stop`. -/
def walk (stop step position : Int) : Walk :=
  if (0 < step ∧ position < stop) ∨ (step < 0 ∧ stop < position) then
    if fitsMachine (position + step) then
      let rest := walk stop step (position + step)
      { rest with positions := position :: rest.positions }
    else ⟨[position], true⟩
  else ⟨[], false⟩
termination_by if 0 < step then (stop - position).toNat else (position - stop).toNat
decreasing_by
  split <;> omega

def sliceWalk (length : Nat) (lower upper step : Option Int) : Except Fault Walk :=
  let step := (step.map machineBound).getD 1
  if step = 0 then .error .valueError
  else
    let low : Int := if 0 < step then 0 else -1
    let high : Int := if 0 < step then length else length - 1
    let first := if 0 < step then low else high
    let last := if 0 < step then high else low
    let start := (lower.map fun bound => clampBound length low high (machineBound bound)).getD first
    let stop := (upper.map fun bound => clampBound length low high (machineBound bound)).getD last
    .ok (walk stop step start)

def sliceList {α : Type} (items : List α) (lower upper step : Option Int) : Except Fault (List α) :=
  (sliceWalk items.length lower upper step).map fun walk =>
    let all := items.toArray
    walk.positions.filterMap fun i => all[i.toNat]?

def slice (value : Value) (lower upper step : Option Int) : Except Fault Value :=
  match value with
  | .str s => (sliceList s.toList lower upper step).map fun cs => .str (String.ofList cs)
  | .bytes b => (sliceList b lower upper step).map .bytes
  | .tuple items => (sliceList items lower upper step).map .tuple
  | .list items => (sliceList items lower upper step).map .list
  | _ => .error .typeError

/-- Whether the walk of a slice along a sequence leaves the range of the machine. -/
def sliceOverruns (value : Value) (lower upper step : Option Int) : Bool :=
  match value with
  | .str s => overruns s.length
  | .bytes b => overruns b.length
  | .tuple items | .list items => overruns items.length
  | _ => false
where
  overruns (length : Nat) : Bool :=
    match sliceWalk length lower upper step with
    | .ok walk => walk.overrun
    | .error _ => false

end Speculator.Value
