import Speculator.Tree.Literal
import Speculator.Value.Comparison
import Speculator.Value.Subscript

/-!
# Evaluation of expressions

The value of an expression, or the exception that evaluating it raises.  Operators, comparisons, items and slices are
those of literal values.  What a program finds around it is a parameter: the values of the variables are given by an
environment; the results of called functions, the identity of objects and the exceptions by a `Meaning`.

Evaluation covers literals, variables, displays, unary and binary operators, comparisons of two operands, items and
slices, conditional expressions, junctions, and calls of named functions with positional arguments.
-/

namespace Speculator

variable {ε : Type}

/-- What the names and the exceptions of a program mean. -/
structure Meaning (ε : Type) where
  /-- The exception raised for a fault of an operation. -/
  fault : Fault → ε
  /-- The exception raised for a variable without a value. -/
  unbound : Ident → ε
  /-- The result of calling the function with a name. -/
  call : Ident → List Value → Except ε Value
  /-- Whether two values are one object. -/
  identical : Value → Value → Except ε Bool

abbrev Env := Ident → Option Value

namespace Meaning

def result (m : Meaning ε) {α : Type} (r : Except Fault α) : Except ε α := r.mapError m.fault

@[simp] theorem result_ok (m : Meaning ε) {α : Type} (a : α) : m.result (.ok a) = .ok a := rfl

def compare (m : Meaning ε) (op : CompareOp) (left right : Value) : Except ε Bool :=
  match op with
  | .is => m.identical left right
  | .isNot => (m.identical left right).map not
  | op => m.result (Value.compare op left right)

end Meaning

/-- The bound of a slice that a value is: an integer, or `None` for a bound that is left out. -/
def Value.toBound : Option Value → Except Fault (Option Int)
  | Option.none | some .none => .ok Option.none
  | some v =>
    match v.asInt? with
    | some n => .ok (some n)
    | Option.none => .error .typeError

/-- What a subscription asks for. -/
inductive Index where
  | item (key : Value)
  | span (lower upper step : Option Int)

/-- The slice with the given bounds, which were evaluated before. -/
def Index.ofBounds (lower upper step : Option Value) : Except Fault Index := do
  let low ← Value.toBound lower
  let high ← Value.toBound upper
  let by' ← Value.toBound step
  .ok (.span low high by')

def Meaning.select (m : Meaning ε) (v : Value) : Index → Except ε Value
  | .item key => m.result (Value.subscript v key)
  | .span lower upper step => m.result (Value.slice v lower upper step)

def inSequence {m : Type → Type} [Monad m] {ν : Type} : List (m ν) → m (List ν)
  | [] => pure []
  | x :: xs => do
    let v ← x
    let vs ← inSequence xs
    pure (v :: vs)

theorem inSequence_map_pure {m : Type → Type} [Monad m] [LawfulMonad m] {ν : Type} (vs : List ν) :
    inSequence (vs.map (pure : ν → m ν)) = pure vs := by
  induction vs with
  | nil => rfl
  | cons v vs ih => rw [List.map_cons, inSequence, ih, pure_bind, pure_bind]

def pairsInOrder : List (Except ε Value) → List (Except ε Value) → Except ε (List (Value × Value))
  | k :: ks, v :: vs => do
    let key ← k
    let value ← v
    let rest ← pairsInOrder ks vs
    .ok ((key, value) :: rest)
  | _, _ => .ok []

/-- The first operand that decides, or the last one.  Those after it are not evaluated. -/
def junction (op : BoolOp) : List (Except ε Value) → Except ε Value
  | [] => .ok .none
  | [r] => r
  | r :: rs => do
    let v ← r
    if v.truthy == (op == .and) then junction op rs else .ok v

/-! ### Expressions -/

mutual

/-- The value of an expression.  Expressions that are not covered raise a type error. -/
def Expr.eval (m : Meaning ε) (env : Env) : Expr → Except ε Value
  | ⟨_, .const v⟩ => .ok v
  | ⟨_, .name id⟩ =>
    match env id with
    | some v => .ok v
    | none => .error (m.unbound id)
  | ⟨_, .binOp left op right⟩ => do
    let l ← left.eval m env
    let r ← right.eval m env
    m.result (Value.binary op l r)
  | ⟨_, .unaryOp op operand⟩ => do
    let v ← operand.eval m env
    m.result (Value.unary op v)
  | ⟨_, .tuple items⟩ => (inSequence (Expr.evals m env items)).map .tuple
  | ⟨_, .list items⟩ => (inSequence (Expr.evals m env items)).map .list
  | ⟨_, .set items⟩ => do
    let vs ← inSequence (Expr.evals m env items)
    m.result ((Value.collectSet vs).map .set)
  | ⟨_, .dict keys values⟩ => do
    let ps ← pairsInOrder (Expr.evals m env keys) (Expr.evals m env values)
    m.result ((Value.collectDict ps).map .dict)
  | ⟨_, .compare left [op] [right]⟩ => do
    let l ← left.eval m env
    let r ← right.eval m env
    (m.compare op l r).map .bool
  | ⟨_, .subscript value ⟨_, .slice lower upper step⟩⟩ => do
    let v ← value.eval m env
    let low ← Expr.evalOption m env lower
    let high ← Expr.evalOption m env upper
    let by' ← Expr.evalOption m env step
    let span ← m.result (Index.ofBounds low high by')
    m.select v span
  | ⟨_, .subscript value index⟩ => do
    let v ← value.eval m env
    let i ← index.eval m env
    m.result (Value.subscript v i)
  | ⟨_, .ifExp test body orelse⟩ => do
    let v ← test.eval m env
    if v.truthy then body.eval m env else orelse.eval m env
  | ⟨_, .boolOp op values⟩ => junction op (Expr.evals m env values)
  | ⟨_, .call ⟨_, .name id⟩ args []⟩ => do
    let vs ← inSequence (Expr.evals m env args)
    m.call id vs
  | _ => .error (m.fault .typeError)

def Expr.evals (m : Meaning ε) (env : Env) : List Expr → List (Except ε Value)
  | [] => []
  | e :: es => e.eval m env :: Expr.evals m env es

def Expr.evalOption (m : Meaning ε) (env : Env) : Option Expr → Except ε (Option Value)
  | none => .ok none
  | some e => (e.eval m env).map some

end

/-! ### Subscriptions -/

def Expr.index (m : Meaning ε) (env : Env) (e : Expr) : Except ε Index :=
  match e.kind with
  | .slice lower upper step => do
    let low ← Expr.evalOption m env lower
    let high ← Expr.evalOption m env upper
    let by' ← Expr.evalOption m env step
    m.result (Index.ofBounds low high by')
  | _ => (e.eval m env).map .item

/-- The object is evaluated before what is asked of it. -/
theorem Expr.eval_subscript (m : Meaning ε) (env : Env) (pos : Position) (value index : Expr) :
    Expr.eval m env ⟨pos, .subscript value index⟩ = value.eval m env >>= fun v =>
      index.index m env >>= m.select v := by
  obtain ⟨ipos, kind⟩ := index
  cases kind with
  | slice lower upper step =>
    simp only [Expr.eval, Expr.index]
    cases value.eval m env with
    | error e => rfl
    | ok v =>
      cases Expr.evalOption m env lower with
      | error e => rfl
      | ok low =>
        cases Expr.evalOption m env upper with
        | error e => rfl
        | ok high => cases Expr.evalOption m env step <;> rfl
  | _ =>
    rw [Expr.eval]
    · cases value.eval m env with
      | error e => rfl
      | ok v =>
        simp only [Expr.index]
        cases Expr.eval m env ⟨ipos, _⟩ <;> rfl
    · intro _ _ _ _ h
      cases h

end Speculator
