import Speculator.Proofs.Reading.Tokens

/-!
# The grammar of expressions

A parser by recursive descent for the expressions that are made of operators, calls, displays, conditionals and
lambdas.  Each level of the grammar has the tokens that an expression of the level can open with and those by which
it goes on: a conditional and `lambda` are looser than `or`, then come `and`, `not`, the comparisons, the binary
operators, the signs, powers with a right operand that may have a sign, `await`, and last names, numbers, displays and
what follows them in brackets or behind a point.

The parser has a bound on its depth, and the rest of the module says with which parts it reads which expression
without the bound: `Parsed`, `Continued`, `Chained` and `Listed` stand for the functions of the parser at any bound
that is large enough for the number of tokens.
-/

namespace Speculator.Grammar

variable {level inner : Level} {ts rest : List Token} {e : Expr}

/-- The levels of the grammar, from the loosest to the tightest. -/
inductive Level where
  | expression
  | disjunction
  | conjunction
  | inversion
  | comparison
  | bitOr
  | bitXor
  | bitAnd
  | shift
  | sum
  | term
  | factor
  | power
  | awaited
  | primary
deriving DecidableEq, Repr

def Level.tighter : Level → Level
  | .expression => .disjunction
  | .disjunction => .conjunction
  | .conjunction => .inversion
  | .inversion => .comparison
  | .comparison => .bitOr
  | .bitOr => .bitXor
  | .bitXor => .bitAnd
  | .bitAnd => .shift
  | .shift => .sum
  | .sum => .term
  | .term => .factor
  | .factor => .power
  | .power => .awaited
  | .awaited => .primary
  | .primary => .primary

def Level.operator? : Level → Symbol → Option BinaryOp
  | .bitOr, .bar => some .bitOr
  | .bitXor, .caret => some .bitXor
  | .bitAnd, .ampersand => some .bitAnd
  | .shift, .leftShift => some .lShift
  | .shift, .rightShift => some .rShift
  | .sum, .plus => some .add
  | .sum, .minus => some .sub
  | .term, .star => some .mult
  | .term, .at => some .matMult
  | .term, .slash => some .div
  | .term, .doubleSlash => some .floorDiv
  | .term, .percent => some .mod
  | _, _ => none

def comparison? : List Token → Option (CompareOp × List Token)
  | .symbol .equal :: ts => some (.eq, ts)
  | .symbol .notEqual :: ts => some (.notEq, ts)
  | .symbol .less :: ts => some (.lt, ts)
  | .symbol .lessEqual :: ts => some (.ltE, ts)
  | .symbol .greater :: ts => some (.gt, ts)
  | .symbol .greaterEqual :: ts => some (.gtE, ts)
  | .reserved .is :: .reserved .not :: ts => some (.isNot, ts)
  | .reserved .is :: ts => some (.is, ts)
  | .reserved .isIn :: ts => some (.isIn, ts)
  | .reserved .not :: .reserved .isIn :: ts => some (.notIn, ts)
  | _ => none

def sign? : Symbol → Option UnaryOp
  | .plus => some .plus
  | .minus => some .minus
  | .tilde => some .invert
  | _ => none

/-- What an expression can open with, other than an operand. -/
inductive Opening where
  | lambda
  | unary (op : UnaryOp)
  | await
deriving DecidableEq, Repr

def Level.opening? : Level → List Token → Option (Opening × List Token)
  | .expression, .reserved .lambda :: ts => some (.lambda, ts)
  | .inversion, .reserved .not :: ts => some (.unary .not, ts)
  | .factor, .symbol s :: ts => (sign? s).map fun op => (.unary op, ts)
  | .awaited, .reserved .await :: ts => some (.await, ts)
  | _, _ => none

/-- What an expression can go on with behind its first operand. -/
inductive Tail where
  | conditional
  | bool (op : BoolOp)
  | compare (op : CompareOp)
  | binary (op : BinaryOp)
  | power
  | attr (name : Ident)
  | call
  | index
deriving DecidableEq, Repr

def Tail.compareOp? : Tail → Option CompareOp
  | .compare op => some op
  | _ => none

def Level.tail? : Level → List Token → Option (Tail × List Token)
  | .expression, .reserved .ifThen :: ts => some (.conditional, ts)
  | .disjunction, .reserved .or :: ts => some (.bool .or, ts)
  | .conjunction, .reserved .and :: ts => some (.bool .and, ts)
  | .comparison, ts => (comparison? ts).map fun r => (.compare r.1, r.2)
  | .power, .symbol .doubleStar :: ts => some (.power, ts)
  | .primary, .symbol .dot :: .name id :: ts => some (.attr id, ts)
  | .primary, .symbol .openParen :: ts => some (.call, ts)
  | .primary, .symbol .openBracket :: ts => some (.index, ts)
  | level, .symbol s :: ts => (level.operator? s).map fun op => (.binary op, ts)
  | _, _ => none

def parameters : List Token → Option (List Ident × List Token)
  | .symbol .colon :: ts => some ([], ts)
  | .name id :: .symbol .colon :: ts => some ([id], ts)
  | .name id :: .symbol .comma :: ts => (parameters ts).map fun r => (id :: r.1, r.2)
  | _ => none

/-- Items in brackets are a tuple, unless there is a single one without a comma. -/
def grouped : List Expr → Bool → Expr
  | [e], false => e
  | items, _ => ⟨{}, .tuple items⟩

mutual

def read : Nat → Level → List Token → Option (Expr × List Token)
  | 0, _, _ => none
  | fuel + 1, level, ts =>
    match level.opening? ts with
    | some (.lambda, ts) =>
      (parameters ts).bind fun names =>
        (read fuel .expression names.2).map fun body =>
          (⟨{}, .lambda ⟨names.1, none, [], [], none, []⟩ body.1⟩, body.2)
    | some (.unary op, ts) => (read fuel level ts).map fun operand => (⟨{}, .unaryOp op operand.1⟩, operand.2)
    | some (.await, ts) => (read fuel .primary ts).map fun value => (⟨{}, .await value.1⟩, value.2)
    | none =>
      (if level = .primary then readAtom fuel ts else read fuel level.tighter ts).bind fun first =>
        readTail fuel level first.1 first.2

/-- What an expression of a level is, given its first operand. -/
def readTail : Nat → Level → Expr → List Token → Option (Expr × List Token)
  | 0, _, _, _ => none
  | fuel + 1, level, e, ts =>
    match level.tail? ts with
    | none => some (e, ts)
    | some (.conditional, us) =>
      (read fuel .disjunction us).bind fun
        | (test, .reserved .orElse :: us) =>
          (read fuel .expression us).map fun orelse => (⟨{}, .ifExp test e orelse.1⟩, orelse.2)
        | _ => none
    | some (.bool op, _) =>
      (readChain fuel level ts).map fun links => (⟨{}, .boolOp op (e :: links.1.map Prod.snd)⟩, links.2)
    | some (.compare _, _) =>
      (readChain fuel level ts).map fun links =>
        (⟨{}, .compare e (links.1.filterMap (·.1.compareOp?)) (links.1.map Prod.snd)⟩, links.2)
    | some (.binary op, us) =>
      (read fuel level.tighter us).bind fun right => readTail fuel level ⟨{}, .binOp e op right.1⟩ right.2
    | some (.power, us) => (read fuel .factor us).map fun right => (⟨{}, .binOp e .pow right.1⟩, right.2)
    | some (.attr name, us) => readTail fuel level ⟨{}, .attr e name⟩ us
    | some (.call, us) =>
      (readItems fuel .closeParen us).bind fun items => readTail fuel level ⟨{}, .call e items.1 []⟩ items.2.2
    | some (.index, us) =>
      (readItems fuel .closeBracket us).bind fun items =>
        if items.1.isEmpty then none
        else readTail fuel level ⟨{}, .subscript e (grouped items.1 items.2.1)⟩ items.2.2

/-- Operators of a level and their right operands, as many as there are. -/
def readChain : Nat → Level → List Token → Option (List (Tail × Expr) × List Token)
  | 0, _, _ => none
  | fuel + 1, level, ts =>
    match level.tail? ts with
    | none => some ([], ts)
    | some (tail, ts) =>
      (read fuel level.tighter ts).bind fun operand =>
        (readChain fuel level operand.2).map fun links => ((tail, operand.1) :: links.1, links.2)

/-- Expressions with commas between them, up to a closing bracket, and whether a comma is the last of it. -/
def readItems : Nat → Symbol → List Token → Option (List Expr × Bool × List Token)
  | 0, _, _ => none
  | fuel + 1, close, ts =>
    if ts.head? = some (.symbol close) then some ([], false, ts.tail)
    else
      (read fuel .expression ts).bind fun
        | (e, .symbol .comma :: ts) =>
          (readItems fuel close ts).map fun items => (e :: items.1, items.2.1 || items.1.isEmpty, items.2.2)
        | (e, t :: ts) => if t = .symbol close then some ([e], false, ts) else none
        | (_, []) => none

def readAtom : Nat → List Token → Option (Expr × List Token)
  | fuel + 1, ts =>
    match ts with
    | .name id :: ts => some (⟨{}, .name id⟩, ts)
    | .number n :: ts => some (⟨{}, .const (.int n)⟩, ts)
    | .symbol .openParen :: ts =>
      (readItems fuel .closeParen ts).map fun items => (grouped items.1 items.2.1, items.2.2)
    | .symbol .openBracket :: ts => (readItems fuel .closeBracket ts).map fun items =>
      (⟨{}, .list items.1⟩, items.2.2)
    | _ => none
  | 0, _ => none

end

/-- The expression that a text is.  The bound is more than the parser can use on so many tokens. -/
def Alphabet.parse? (A : Alphabet) (text : String) : Option Expr :=
  (A.tokens text.toList).bind fun ts =>
    match read (24 * (ts.length + 1)) .expression ts with
    | some (e, []) => some e
    | _ => none

/-! ## The parser without its bound -/

/-- The tokens start with an expression of a level, and the rest is what follows. -/
def Parsed (level : Level) (ts : List Token) (r : Expr × List Token) : Prop :=
  ∀ fuel, 24 * ts.length + (20 - level.ctorIdx) ≤ fuel → read fuel level ts = some r

def Continued (level : Level) (e : Expr) (ts : List Token) (r : Expr × List Token) : Prop :=
  ∀ fuel, 24 * ts.length + 2 ≤ fuel → readTail fuel level e ts = some r

def Chained (level : Level) (ts : List Token) (r : List (Tail × Expr) × List Token) : Prop :=
  ∀ fuel, 24 * ts.length + 1 ≤ fuel → readChain fuel level ts = some r

def Listed (close : Symbol) (ts : List Token) (r : List Expr × Bool × List Token) : Prop :=
  ∀ fuel, 24 * ts.length + 22 ≤ fuel → readItems fuel close ts = some r

def Atomic (ts : List Token) (r : Expr × List Token) : Prop :=
  ∀ fuel, 24 * ts.length + 1 ≤ fuel → readAtom fuel ts = some r

/-- Nothing that tokens start with continues an expression of a level or of a tighter one. -/
def Stops (level : Level) (ts : List Token) : Prop :=
  ∀ inner : Level, level.ctorIdx ≤ inner.ctorIdx → inner.tail? ts = none

section Rules

-- Computes the equations of the parser once, before the rules that all rewrite with them.
attribute [local simp] read readTail readChain readItems readAtom

variable {us vs : List Token} {r : Expr × List Token}

/-- The functions of the parser are looked at where the bound leaves one for their parts. -/
theorem of_fuel_succ {p : Nat → Prop} {bound : Nat} (hpos : 0 < bound)
    (h : ∀ fuel, bound ≤ fuel + 1 → p (fuel + 1)) : ∀ fuel, bound ≤ fuel → p fuel := by
  intro fuel hf
  obtain ⟨fuel, rfl⟩ : ∃ n, fuel = n + 1 := ⟨fuel - 1, by omega⟩
  exact h fuel hf

variable {items : List Expr} {comma : Bool} {links : List (Tail × Expr)} {close : Symbol}

theorem Stops.mono (h : Stops level ts) (hi : level.ctorIdx ≤ inner.ctorIdx) : Stops inner ts :=
  fun _ hl => h _ (hi.trans hl)

theorem Level.ctorIdx_tighter (hl : level ≠ .primary) : level.tighter.ctorIdx = level.ctorIdx + 1 := by
  cases level <;> first | rfl | exact absurd rfl hl

theorem Level.ctorIdx_le (level : Level) : level.ctorIdx ≤ Level.primary.ctorIdx := by
  cases level <;> decide

theorem Level.eq_of_ctorIdx_eq (h : inner.ctorIdx = level.ctorIdx) : inner = level := by
  cases inner <;> cases level <;> first | rfl | simp [Level.ctorIdx] at h

theorem Level.ctorIdx_primary : Level.primary.ctorIdx = 14 := rfl

theorem Parsed.lambda {names body} (ho : level.opening? ts = some (.lambda, us))
    (hu : us.length < ts.length) (hp : parameters us = some (names, vs)) (hv : vs.length ≤ us.length)
    (hb : Parsed .expression vs (body, rest)) :
    Parsed level ts (⟨{}, .lambda ⟨names, none, [], [], none, []⟩ body⟩, rest) := by
  refine of_fuel_succ (by omega) fun fuel hf => ?_
  rw [read, ho]
  simp only [hp, Option.bind_some]
  rw [hb fuel (by omega)]
  rfl

theorem Parsed.unary {op operand} (ho : level.opening? ts = some (.unary op, us))
    (hu : us.length < ts.length) (h : Parsed level us (operand, rest)) :
    Parsed level ts (⟨{}, .unaryOp op operand⟩, rest) := by
  refine of_fuel_succ (by omega) fun fuel hf => ?_
  rw [read, ho]
  simp only
  rw [h fuel (by omega)]
  rfl

theorem Parsed.await {value} (ho : level.opening? ts = some (.await, us)) (hu : us.length < ts.length)
    (h : Parsed .primary us (value, rest)) : Parsed level ts (⟨{}, .await value⟩, rest) := by
  refine of_fuel_succ (by omega) fun fuel hf => ?_
  rw [read, ho]
  simp only
  rw [h fuel (by omega)]
  rfl

/-! ### Expressions that start with an operand -/

theorem Parsed.descend (hl : level ≠ .primary) (ho : level.opening? ts = none)
    (h : Parsed level.tighter ts (e, rest)) (hlt : rest.length < ts.length) (ht : Continued level e rest r) :
    Parsed level ts r := by
  refine of_fuel_succ (by omega) fun fuel hf => ?_
  have hidx := Level.ctorIdx_tighter hl
  have hle := level.ctorIdx_le
  rw [Level.ctorIdx_primary] at hle
  rw [read, ho]
  simp only [if_neg hl]
  rw [h fuel (by omega), Option.bind_some, ht fuel (by omega)]

theorem Parsed.atom (h : Atomic ts (e, rest)) (hlt : rest.length < ts.length) (ht : Continued .primary e rest r) :
    Parsed .primary ts r := by
  refine of_fuel_succ (by omega) fun fuel hf => ?_
  rw [Level.ctorIdx_primary] at hf
  have ho : Level.opening? .primary ts = none := by simp [Level.opening?]
  rw [read, ho]
  simp only [if_true]
  rw [h fuel (by omega), Option.bind_some, ht fuel (by omega)]

theorem Continued.stop (h : level.tail? ts = none) : Continued level e ts (e, ts) := by
  refine of_fuel_succ (by omega) fun fuel hf => ?_
  rw [readTail, h]

/-- An expression of a tighter level is one of a looser level without an opening and a tail of its own. -/
theorem Parsed.climb (hi : level.ctorIdx ≤ inner.ctorIdx)
    (ho : ∀ mid : Level, level.ctorIdx ≤ mid.ctorIdx → mid.ctorIdx < inner.ctorIdx → mid.opening? ts = none)
    (hlt : rest.length < ts.length) (hs : Stops level rest) (h : Parsed inner ts (e, rest)) :
    Parsed level ts (e, rest) := by
  obtain ⟨n, hn⟩ : ∃ n, inner.ctorIdx = level.ctorIdx + n := ⟨inner.ctorIdx - level.ctorIdx, by omega⟩
  induction n generalizing level with
  | zero =>
    obtain rfl := Level.eq_of_ctorIdx_eq hn
    exact h
  | succ n ih =>
    have hl : level ≠ .primary := by
      rintro rfl
      have := inner.ctorIdx_le
      omega
    have hidx := Level.ctorIdx_tighter hl
    refine Parsed.descend hl (ho level le_rfl (by omega)) ?_ hlt (.stop (hs level le_rfl))
    exact ih (by omega) (fun mid hm => ho mid (by omega)) (hs.mono (by omega)) (by omega)

/-! ### What follows the first operand -/

theorem Continued.conditional {test orelse} (ht : level.tail? ts = some (.conditional, us))
    (hu : us.length < ts.length) (h : Parsed .disjunction us (test, .reserved .orElse :: vs))
    (hv : vs.length < us.length) (h' : Parsed .expression vs (orelse, rest)) :
    Continued level e ts (⟨{}, .ifExp test e orelse⟩, rest) := by
  refine of_fuel_succ (by omega) fun fuel hf => ?_
  rw [readTail, ht]
  simp only
  rw [h fuel (by omega), Option.bind_some]
  simp only
  rw [h' fuel (by omega)]
  rfl

theorem Continued.binary {op right} (ht : level.tail? ts = some (.binary op, us))
    (hu : us.length < ts.length) (h : Parsed level.tighter us (right, vs)) (hv : vs.length < us.length)
    (h' : Continued level ⟨{}, .binOp e op right⟩ vs r) : Continued level e ts r := by
  refine of_fuel_succ (by omega) fun fuel hf => ?_
  rw [readTail, ht]
  simp only
  rw [h fuel (by omega), Option.bind_some, h' fuel (by omega)]

theorem Continued.power {right} (ht : level.tail? ts = some (.power, us)) (hu : us.length < ts.length)
    (h : Parsed .factor us (right, rest)) : Continued level e ts (⟨{}, .binOp e .pow right⟩, rest) := by
  refine of_fuel_succ (by omega) fun fuel hf => ?_
  rw [readTail, ht]
  simp only
  rw [h fuel (by omega)]
  rfl

theorem Continued.attr {name} (ht : level.tail? ts = some (.attr name, us)) (hu : us.length < ts.length)
    (h : Continued level ⟨{}, .attr e name⟩ us r) : Continued level e ts r := by
  refine of_fuel_succ (by omega) fun fuel hf => ?_
  rw [readTail, ht]
  exact h fuel (by omega)

theorem Continued.call (ht : level.tail? ts = some (.call, us)) (hu : us.length < ts.length)
    (h : Listed .closeParen us (items, comma, vs)) (hv : vs.length < us.length)
    (h' : Continued level ⟨{}, .call e items []⟩ vs r) : Continued level e ts r := by
  refine of_fuel_succ (by omega) fun fuel hf => ?_
  rw [readTail, ht]
  simp only
  rw [h fuel (by omega), Option.bind_some, h' fuel (by omega)]

theorem Continued.index (ht : level.tail? ts = some (.index, us)) (hu : us.length < ts.length)
    (h : Listed .closeBracket us (items, comma, vs)) (hi : items ≠ []) (hv : vs.length < us.length)
    (h' : Continued level ⟨{}, .subscript e (grouped items comma)⟩ vs r) :
    Continued level e ts r := by
  refine of_fuel_succ (by omega) fun fuel hf => ?_
  rw [readTail, ht]
  simp only
  rw [h fuel (by omega), Option.bind_some, if_neg (by simpa using hi), h' fuel (by omega)]

theorem Continued.bool {op} (ht : level.tail? ts = some (.bool op, us)) (h : Chained level ts (links, rest)) :
    Continued level e ts (⟨{}, .boolOp op (e :: links.map Prod.snd)⟩, rest) := by
  refine of_fuel_succ (by omega) fun fuel hf => ?_
  rw [readTail, ht]
  simp only
  rw [h fuel (by omega)]
  rfl

theorem Continued.compare {op} (ht : level.tail? ts = some (.compare op, us)) (h : Chained level ts (links, rest)) :
    Continued level e ts (⟨{}, .compare e (links.filterMap (·.1.compareOp?)) (links.map Prod.snd)⟩, rest) := by
  refine of_fuel_succ (by omega) fun fuel hf => ?_
  rw [readTail, ht]
  simp only
  rw [h fuel (by omega)]
  rfl

theorem Chained.nil (h : level.tail? ts = none) : Chained level ts ([], ts) := by
  refine of_fuel_succ (by omega) fun fuel hf => ?_
  rw [readChain, h]

theorem Chained.cons {tail operand} (ht : level.tail? ts = some (tail, us))
    (hu : us.length < ts.length) (h : Parsed level.tighter us (operand, vs)) (hv : vs.length < us.length)
    (h' : Chained level vs (links, rest)) :
    Chained level ts ((tail, operand) :: links, rest) := by
  refine of_fuel_succ (by omega) fun fuel hf => ?_
  rw [readChain, ht]
  simp only
  rw [h fuel (by omega), Option.bind_some, h' fuel (by omega)]
  rfl

theorem Listed.nil : Listed close (.symbol close :: ts) ([], false, ts) := by
  refine of_fuel_succ (by omega) fun fuel hf => ?_
  rw [readItems, List.head?_cons, if_pos rfl, List.tail_cons]

theorem Listed.single (hn : ts.head? ≠ some (.symbol close)) (hc : close ≠ .comma)
    (h : Parsed .expression ts (e, .symbol close :: rest)) : Listed close ts ([e], false, rest) := by
  refine of_fuel_succ (by omega) fun fuel hf => ?_
  rw [readItems, if_neg hn, h fuel (by omega), Option.bind_some]
  simp [hc]

theorem Listed.cons (hn : ts.head? ≠ some (.symbol close)) (h : Parsed .expression ts (e, .symbol .comma :: us))
    (hu : us.length < ts.length) (h' : Listed close us (items, comma, rest)) :
    Listed close ts (e :: items, comma || items.isEmpty, rest) := by
  refine of_fuel_succ (by omega) fun fuel hf => ?_
  rw [readItems, if_neg hn, h fuel (by omega), Option.bind_some]
  simp only
  rw [h' fuel (by omega)]
  rfl

theorem Atomic.name (id : Ident) : Atomic (.name id :: rest) (⟨{}, .name id⟩, rest) := by
  refine of_fuel_succ (by omega) fun fuel hf => ?_
  rw [readAtom]

theorem Atomic.number (n : Nat) : Atomic (.number n :: rest) (⟨{}, .const (.int n)⟩, rest) := by
  refine of_fuel_succ (by omega) fun fuel hf => ?_
  rw [readAtom]

theorem Atomic.group (h : Listed .closeParen ts (items, comma, rest)) :
    Atomic (.symbol .openParen :: ts) (grouped items comma, rest) := by
  refine of_fuel_succ (by omega) fun fuel hf => ?_
  rw [List.length_cons] at hf
  rw [readAtom, h fuel (by omega)]
  rfl

theorem Atomic.list (h : Listed .closeBracket ts (items, comma, rest)) :
    Atomic (.symbol .openBracket :: ts) (⟨{}, .list items⟩, rest) := by
  refine of_fuel_succ (by omega) fun fuel hf => ?_
  rw [List.length_cons] at hf
  rw [readAtom, h fuel (by omega)]
  rfl

end Rules

/-! ## Reading in front of what follows -/

/-- The levels whose expressions go on as long as they can, each being the first operand of the next. -/
def Level.isLeft : Level → Bool
  | .bitOr | .bitXor | .bitAnd | .shift | .sum | .term | .primary => true
  | _ => false

/-- What follows an expression ends it at a level or, at a level that goes on, ends the operand that it is. -/
inductive Followed (level : Level) (e : Expr) (rest : List Token) : Expr × List Token → Prop where
  | stop (hs : Stops level rest) : Followed level e rest (e, rest)
  | goesOn {r} (hl : level.isLeft = true)
    (hs : ∀ inner : Level, level.ctorIdx < inner.ctorIdx → inner.tail? rest = none) (h : Continued level e rest r) :
    Followed level e rest r

/-- The tokens are read as the expression in front of everything that may follow it. -/
def ReadAs (level : Level) (ts : List Token) (e : Expr) : Prop :=
  ∀ rest r, Followed level e rest r → Parsed level (ts ++ rest) r

def Plain (level : Level) (t : Token) : Prop :=
  ∀ outer : Level, outer.ctorIdx < level.ctorIdx → ∀ us, outer.opening? (t :: us) = none

section Levels

variable {t : Token} {r : Expr × List Token}

theorem Followed.continued (h : Followed level e rest r) : Continued level e rest r := by
  cases h with
  | stop hs => exact .stop (hs level le_rfl)
  | goesOn _ _ h => exact h

theorem Followed.of_primary (h : Continued .primary e rest r) : Followed .primary e rest r :=
  .goesOn rfl (fun inner hi => absurd inner.ctorIdx_le (by omega)) h

theorem Followed.stops (h : Followed level e rest r) (hi : level.ctorIdx < inner.ctorIdx) : Stops inner rest := by
  cases h with
  | stop hs => exact hs.mono hi.le
  | goesOn _ hs _ => exact fun inner' hi' => hs inner' (hi.trans_le hi')

theorem Followed.eq_of_not_isLeft (h : Followed level e rest r) (hl : level.isLeft = false) :
    Stops level rest ∧ r = (e, rest) := by
  cases h with
  | stop hs => exact ⟨hs, rfl⟩
  | goesOn hl' _ _ => rw [hl] at hl'; cases hl'

theorem Plain.mono (h : Plain inner t) (hi : level.ctorIdx ≤ inner.ctorIdx) : Plain level t :=
  fun outer ho => h outer (ho.trans_le hi)

theorem ReadAs.parsed (h : ReadAs level ts e) (hs : Stops level rest) : Parsed level (ts ++ rest) (e, rest) :=
  h rest _ (.stop hs)

/-- What is read at a level is read at every looser one that does not open with its first token. -/
theorem ReadAs.climb (h : ReadAs inner (t :: ts) e) (ht : Plain inner t) (hi : level.ctorIdx ≤ inner.ctorIdx) :
    ReadAs level (t :: ts) e := by
  intro rest r hr
  rcases hi.lt_or_eq with hlt | heq
  · have hlevel : level ≠ .primary := by
      rintro rfl
      have := inner.ctorIdx_le
      omega
    have hidx := Level.ctorIdx_tighter hlevel
    have hlen : rest.length < (t :: ts ++ rest).length := by
      rw [List.length_append, List.length_cons]
      omega
    have hparsed : Parsed level.tighter (t :: ts ++ rest) (e, rest) :=
      .climb (by omega) (fun mid _ hm => ht mid hm _) hlen (hr.stops (by omega)) (h.parsed (hr.stops hlt))
    exact .descend hlevel (ht level hlt _) hparsed hlen hr.continued
  · obtain rfl := Level.eq_of_ctorIdx_eq heq
    exact h rest r hr

end Levels

end Speculator.Grammar
