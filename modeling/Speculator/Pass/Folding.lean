import Speculator.Pass.Basic
import Speculator.Value.Subscript

/-!
# Folding of operators

Evaluates operators whose operands are literals.  An operation that would raise an exception is left alone, and one
that would build a large value is not even tried.
-/

namespace Speculator

namespace Folding

/-! ### Binary operators -/

def isNegative : Value → Bool
  | .float x => x < 0.0
  | v => v.asInt?.any (· < 0)

def shiftFits (maxIntBits : Nat) (left right : Value) : Bool :=
  match left.asInt?, right.asInt? with
  | some n, some shift => n == 0 || (0 ≤ shift && Number.bitLength n + shift ≤ maxIntBits)
  | _, _ => true

/-- Whether a repeated sequence stays within its limit; `none` if this is no repetition. -/
def repeatFits? (limits : Limits) (sequence count : Value) : Option Bool :=
  match count.asInt?, sequence with
  | some n, .bytes b => some (b.length * n ≤ limits.maxBytesLen)
  | some n, .str s => some (s.length * n ≤ limits.maxStrLen)
  | some n, .tuple items => some (items.length * n ≤ limits.maxSeqLen)
  | _, _ => none

def isReal : Value → Bool
  | .float _ => true
  | v => v.isInt

/-- Whether an operation on numbers raises nothing and builds no large number. -/
def numbersAllowed (maxIntBits : Nat) (op : BinaryOp) (left right : Value) : Bool :=
  let bothInt := left.isInt && right.isInt
  let bothReal := isReal left && isReal right
  match op with
  | .pow => bothReal && powerAllowed maxIntBits left right none
  | .lShift => bothInt && !isNegative right && shiftFits maxIntBits left right
  | .rShift => bothInt && !isNegative right
  | .div => right.truthy
  | .floorDiv | .mod => bothReal && right.truthy
  | .add | .sub | .mult => true
  | .bitOr | .bitXor | .bitAnd | .matMult => bothInt

def binaryAllowed (limits : Limits) (op : BinaryOp) (left right : Value) : Bool :=
  if left.isNumber && right.isNumber then numbersAllowed limits.maxIntBits op left right
  else
    match op, left, right with
    | .mult, _, _ => ((repeatFits? limits left right).or (repeatFits? limits right left)).getD false
    | .add, .str a, .str b => decide (a.length + b.length ≤ limits.maxStrLen)
    | .add, .bytes a, .bytes b => decide (a.length + b.length ≤ limits.maxBytesLen)
    | .add, .tuple a, .tuple b => decide (a.length + b.length ≤ limits.maxSeqLen)
    | _, _, _ => false

def binary? (limits : Limits) (op : BinaryOp) (left right : Value) : Option Value :=
  if op == .matMult || (op == .mod && !left.isNumber) || !binaryAllowed limits op left right then none
  else (Value.binary op left right).toOption

def binaryOverruns (limits : Limits) (op : BinaryOp) (left right : Value) : Bool :=
  binaryAllowed limits op left right && Value.binaryOverruns op left right

/-! ### Unary operators -/

def unaryAllowed (op : UnaryOp) (operand : Value) : Bool :=
  match op with
  | .invert => operand.isInt
  | .not | .plus | .minus => operand.isNumber

def unary? (op : UnaryOp) (operand : Value) : Option Value :=
  if unaryAllowed op operand then (Value.unary op operand).toOption else none

def negatedComparison? (operand : Expr) : Option Expr :=
  match operand.kind with
  | .compare left [op] comparators =>
    op.negation?.map fun negated => operand.withKind (.compare left [negated] comparators)
  | _ => none

/-! ### Items and slices -/

/-- A bound of a slice; `none` if it is not a constant. -/
def sliceBound? : Option Expr → Option (Option Int)
  | none => some none
  | some e =>
    match e.constant? with
    | some .none => some none
    | some v => v.asInt?.map some
    | none => none

def slice? (sequence : Value) (lower upper step : Option Expr) : Option Value :=
  match sequence with
  | .str _ | .bytes _ | .tuple _ | .list _ =>
    match sliceBound? lower, sliceBound? upper, sliceBound? step with
    | some low, some high, some by' => (Value.slice sequence low high by').toOption
    | _, _, _ => none
  | _ => none

def sliceOverruns (sequence : Value) (lower upper step : Option Expr) : Bool :=
  match sliceBound? lower, sliceBound? upper, sliceBound? step with
  | some low, some high, some by' => Value.sliceOverruns sequence low high by'
  | _, _, _ => false

def item? (container index : Value) : Option Value :=
  match container with
  | .dict _ => (Value.subscript container index).toOption
  | .str _ | .bytes _ | .tuple _ | .list _ =>
    if index.isInt then (Value.subscript container index).toOption else none
  | _ => none

/-! ### Comparisons -/

def mixesTextAndBytes : Value → Value → Bool
  | .str _, .bytes _ | .bytes _, .str _ => true
  | _, _ => false

def compare? (op : CompareOp) (left right : Value) : Option Bool :=
  match op with
  | .is | .isNot => none
  | .isIn | .notIn => if right.isIterable then (Value.compare op left right).toOption else none
  | .eq | .notEq => if mixesTextAndBytes left right then none else (Value.compare op left right).toOption
  | _ => (Value.compare op left right).toOption

/-- The result of an identity test of two nodes that are both literally `None`. -/
def identity? (op : CompareOp) (left right : Expr) : Option Bool :=
  match op, left.kind, right.kind with
  | .is, .const .none, .const .none => some true
  | .isNot, .const .none, .const .none => some false
  | _, _, _ => none

/-- The immutable form of a display that is only searched. -/
def searched? (display : Expr) : Option Value :=
  match display.kind, display.literal? with
  | .list _, some (.list items) => some (.tuple items)
  | .set _, some (.set items) => some (.frozenSet items)
  | _, _ => none

/-! ### The pass -/

def foldBinary (e left : Expr) (op : BinaryOp) (right : Expr) : Visit ExprStep := do
  let limits := (← Visit.config).limits
  match left.constant?, right.constant? with
  | some l, some r =>
    Visit.noteOverrun (binaryOverruns limits op l r)
    match binary? limits op l r with
    | some result =>
      match limits.literal? result e.pos with
      | some new =>
        Visit.logQuoting e.pos.line
          ("constant folding: replace " ++ l.summary ++ " " ++ op.symbol ++ " " ++ r.summary ++ " with " ++
            result.summary)
        return .replace new
      | none => return .keep
    | none => return .keep
  | _, _ => return .keep

def foldUnary? (limits : Limits) (e : Expr) (op : UnaryOp) (operand : Expr) : Option Expr :=
  match operand.constant?.bind (unary? op) with
  | some result => limits.literal? result e.pos
  | none => if op == .not then negatedComparison? operand else none

def foldSubscript? (limits : Limits) (e value slice : Expr) : Option Expr := do
  let container ← value.literal?
  let result ←
    match slice.kind with
    | .slice lower upper step => slice? container lower upper step
    | _ => slice.constant?.bind (item? container)
  limits.literal? result e.pos

def subscriptOverruns (value slice : Expr) : Bool :=
  match value.literal?, slice.kind with
  | some container, .slice lower upper step => sliceOverruns container lower upper step
  | _, _ => false

def foldCompare? (limits : Limits) (e left : Expr) (op : CompareOp) (right : Expr) : Option Expr :=
  let compared := do limits.literal? (.bool (← compare? op (← left.literal?) (← right.literal?))) e.pos
  let identical := do limits.literal? (.bool (← identity? op left right)) e.pos
  let simplified := do
    let new ← limits.literal? (← searched? right) right.pos
    return e.withKind (.compare left [op] [new])
  compared <|> identical <|> if op == .isIn then simplified else none

def leaveExpr (e : Expr) : Visit ExprStep := do
  let config ← Visit.config
  if !config.constantFolding then return .keep
  match e.kind with
  | .binOp left op right => foldBinary e left op right
  | .unaryOp op operand => return .ofOption (foldUnary? config.limits e op operand)
  | .subscript value slice => do
    Visit.noteOverrun (subscriptOverruns value slice)
    return .ofOption (foldSubscript? config.limits e value slice)
  | .compare left [op] [right] => return .ofOption (foldCompare? config.limits e left op right)
  | _ => return .keep

end Folding

def Pass.folding : Pass where
  leaveExpr := Folding.leaveExpr

end Speculator
