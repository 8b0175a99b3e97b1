import Speculator.Proofs.Reading.Grammar

/-!
# The tokens of rendered expressions

The expressions that are made of names, numbers, operators, calls, displays, conditionals and lambdas, the tokens that
they consist of, and that their source text is read as these tokens: between two of its pieces there is always a
blank, a bracket or a character that belongs to neither.
-/

namespace Speculator

open List

open Grammar

mutual

@[simp] def Expr.unplaced : Expr → Expr
  | ⟨_, kind⟩ => ⟨{}, kind.unplaced⟩

@[simp] def ExprKind.unplaced : ExprKind → ExprKind
  | .const v => .const v
  | .name id => .name id
  | .boolOp op values => .boolOp op (Expr.unplacedList values)
  | .binOp left op right => .binOp left.unplaced op right.unplaced
  | .unaryOp op operand => .unaryOp op operand.unplaced
  | .lambda params body => .lambda params.unplaced body.unplaced
  | .ifExp test body orelse => .ifExp test.unplaced body.unplaced orelse.unplaced
  | .dict keys values => .dict (Expr.unplacedList keys) (Expr.unplacedList values)
  | .set items => .set (Expr.unplacedList items)
  | .list items => .list (Expr.unplacedList items)
  | .tuple items => .tuple (Expr.unplacedList items)
  | .listComp item generators => .listComp item.unplaced (Generator.unplacedList generators)
  | .setComp item generators => .setComp item.unplaced (Generator.unplacedList generators)
  | .generatorExp item generators => .generatorExp item.unplaced (Generator.unplacedList generators)
  | .dictComp key value generators => .dictComp key.unplaced value.unplaced (Generator.unplacedList generators)
  | .await value => .await value.unplaced
  | .yield value => .yield (Expr.unplacedOption value)
  | .yieldFrom value => .yieldFrom value.unplaced
  | .starred value => .starred value.unplaced
  | .compare left ops comparators => .compare left.unplaced ops (Expr.unplacedList comparators)
  | .call func args keywords => .call func.unplaced (Expr.unplacedList args) (Keyword.unplacedList keywords)
  | .attr value name => .attr value.unplaced name
  | .subscript value slice => .subscript value.unplaced slice.unplaced
  | .slice lower upper step =>
    .slice (Expr.unplacedOption lower) (Expr.unplacedOption upper) (Expr.unplacedOption step)

def Expr.unplacedOption : Option Expr → Option Expr
  | none => none
  | some e => some e.unplaced

def Expr.unplacedList : List Expr → List Expr
  | [] => []
  | e :: es => e.unplaced :: Expr.unplacedList es

def Expr.unplacedOptions : List (Option Expr) → List (Option Expr)
  | [] => []
  | none :: es => none :: Expr.unplacedOptions es
  | some e :: es => some e.unplaced :: Expr.unplacedOptions es

def Params.unplaced : Params → Params
  | ⟨args, vararg, kwOnly, kwDefaults, kwarg, defaults⟩ =>
    ⟨args, vararg, kwOnly, Expr.unplacedOptions kwDefaults, kwarg, Expr.unplacedList defaults⟩

def Keyword.unplacedList : List Keyword → List Keyword
  | [] => []
  | ⟨name, value⟩ :: ks => ⟨name, value.unplaced⟩ :: Keyword.unplacedList ks

def Generator.unplacedList : List Generator → List Generator
  | [] => []
  | ⟨target, iter, conditions, isAsync⟩ :: gs =>
    ⟨target.unplaced, iter.unplaced, Expr.unplacedList conditions, isAsync⟩ :: Generator.unplacedList gs

end

/-- The expressions that are made of names, numbers, operators, calls, displays, conditionals and lambdas. -/
inductive Expr.Readable (A : Alphabet) : Expr → Prop where
  | name {pos id} (hid : A.IsName id) : Readable A ⟨pos, .name id⟩
  | number {pos} {n : Int} (hn : 0 ≤ n) : Readable A ⟨pos, .const (.int n)⟩
  | attr {pos value name} (hv : Readable A value) (hn : A.IsName name) : Readable A ⟨pos, .attr value name⟩
  | call {pos func args} (hf : Readable A func) (ha : ∀ a ∈ args, Readable A a) : Readable A ⟨pos, .call func args []⟩
  | subscript {pos value slice} (hv : Readable A value) (hs : Readable A slice) :
    Readable A ⟨pos, .subscript value slice⟩
  | list {pos items} (hi : ∀ e ∈ items, Readable A e) : Readable A ⟨pos, .list items⟩
  | tuple {pos items} (hi : ∀ e ∈ items, Readable A e) : Readable A ⟨pos, .tuple items⟩
  | binOp {pos left right op} (hl : Readable A left) (hr : Readable A right) : Readable A ⟨pos, .binOp left op right⟩
  | unaryOp {pos op operand} (ho : Readable A operand) : Readable A ⟨pos, .unaryOp op operand⟩
  | boolOp {pos op values} (hlen : 2 ≤ values.length)
    (hv : ∀ e ∈ values, Readable A e) : Readable A ⟨pos, .boolOp op values⟩
  | compare {pos left ops comparators} (hl : Readable A left)
    (hops : 1 ≤ ops.length) (hlen : ops.length = comparators.length) (hc : ∀ e ∈ comparators, Readable A e) :
    Readable A ⟨pos, .compare left ops comparators⟩
  | ifExp {pos test body orelse} (ht : Readable A test) (hb : Readable A body)
    (ho : Readable A orelse) : Readable A ⟨pos, .ifExp test body orelse⟩
  | lambda {pos names body} (hn : ∀ id ∈ names, A.IsName id)
    (hb : Readable A body) : Readable A ⟨pos, .lambda ⟨names, none, [], [], none, []⟩ body⟩
  | await {pos value} (hv : Readable A value) : Readable A ⟨pos, .await value⟩

/-! ## The tokens of an expression -/

def BinaryOp.token : BinaryOp → Grammar.Symbol
  | .add => .plus
  | .sub => .minus
  | .mult => .star
  | .matMult => .at
  | .div => .slash
  | .mod => .percent
  | .pow => .doubleStar
  | .lShift => .leftShift
  | .rShift => .rightShift
  | .bitOr => .bar
  | .bitXor => .caret
  | .bitAnd => .ampersand
  | .floorDiv => .doubleSlash

def UnaryOp.token : UnaryOp → Token
  | .invert => .symbol .tilde
  | .not => .reserved .not
  | .plus => .symbol .plus
  | .minus => .symbol .minus

def CompareOp.tokens : CompareOp → List Token
  | .eq => [.symbol .equal]
  | .notEq => [.symbol .notEqual]
  | .lt => [.symbol .less]
  | .ltE => [.symbol .lessEqual]
  | .gt => [.symbol .greater]
  | .gtE => [.symbol .greaterEqual]
  | .is => [.reserved .is]
  | .isNot => [.reserved .is, .reserved .not]
  | .isIn => [.reserved .isIn]
  | .notIn => [.reserved .not, .reserved .isIn]

def BoolOp.token : BoolOp → Token
  | .and => .reserved .and
  | .or => .reserved .or

def enclose (wrap : Bool) (ts : List Token) : List Token :=
  if wrap then .symbol .openParen :: (ts ++ [.symbol .closeParen]) else ts

mutual

def Expr.tokensAt (required : Precedence) : Expr → List Token
  | ⟨_, kind⟩ => enclose (decide (kind.precedence.ctorIdx < required.ctorIdx)) kind.tokens

@[simp] def ExprKind.tokens : ExprKind → List Token
  | .name id => [.name id]
  | .const (.int n) => [.number n.toNat]
  | .attr ⟨pos, kind⟩ name =>
    (if kind.isIntLiteral then enclose true kind.tokens else Expr.tokensAt .atom ⟨pos, kind⟩) ++
      [.symbol .dot, .name name]
  | .call func args _ =>
    func.tokensAt .atom ++ .symbol .openParen ::
      (List.intercalate [.symbol .comma] (Expr.tokensEach .test args) ++ [.symbol .closeParen])
  | .subscript value slice =>
    value.tokensAt .atom ++ .symbol .openBracket :: (slice.tokensAt .tuple ++ [.symbol .closeBracket])
  | .list items =>
    .symbol .openBracket :: (List.intercalate [.symbol .comma] (Expr.tokensEach .test items) ++
      [.symbol .closeBracket])
  | .tuple [item] => .symbol .openParen :: (item.tokensAt .test ++ [.symbol .comma, .symbol .closeParen])
  | .tuple items =>
    .symbol .openParen :: (List.intercalate [.symbol .comma] (Expr.tokensEach .test items) ++ [.symbol .closeParen])
  | .binOp left op right =>
    left.tokensAt (Precedence.operands op).1 ++ .symbol op.token :: right.tokensAt (Precedence.operands op).2
  | .unaryOp op operand => op.token :: operand.tokensAt (.ofUnary op)
  | .boolOp op values => List.intercalate [op.token] (Expr.tokensEach (Precedence.ofBool op).next values)
  | .compare left ops comparators =>
    left.tokensAt .bitOr ++
      (List.zipWith (fun op ts => op.tokens ++ ts) ops (Expr.tokensEach .bitOr comparators)).flatten
  | .ifExp test body orelse =>
    body.tokensAt .or ++ .reserved .ifThen :: (test.tokensAt .or ++ .reserved .orElse :: orelse.tokensAt .test)
  | .lambda params body =>
    .reserved .lambda :: (List.intercalate [.symbol .comma] (params.args.map fun id => [.name id]) ++
      .symbol .colon :: body.tokensAt .test)
  | .await value => .reserved .await :: value.tokensAt .atom
  | _ => []

def Expr.tokensEach (required : Precedence) : List Expr → List (List Token)
  | [] => []
  | e :: es => e.tokensAt required :: Expr.tokensEach required es

end

theorem Expr.tokensEach_eq_map (p : Precedence) (es : List Expr) :
    Expr.tokensEach p es = es.map (Expr.tokensAt p) := by
  induction es with
  | nil => rfl
  | cons e es ih => rw [Expr.tokensEach, ih, map_cons]

theorem Expr.codesAt_eq_map (p : Precedence) (es : List Expr) : Expr.codesAt p es = es.map (Expr.codeAt p) := by
  induction es with
  | nil => rfl
  | cons e es ih => rw [Expr.codesAt, ih, map_cons]

theorem Expr.unplacedList_eq_map (es : List Expr) : Expr.unplacedList es = es.map Expr.unplaced := by
  induction es with
  | nil => rfl
  | cons e es ih => rw [Expr.unplacedList, ih, map_cons]

theorem intercalate_cons {α : Type} (sep x : List α) (xs : List (List α)) :
    List.intercalate sep (x :: xs) = x ++ xs.flatMap (sep ++ ·) := by
  induction xs generalizing x with
  | nil => simp
  | cons y ys ih => rw [intercalate_cons_cons, ih, flatMap_cons, append_assoc, append_assoc]

/-! ## The text is read as the tokens -/

section Text

attribute [local simp] Boundary BoundaryOrDot

variable {A : Alphabet} {p : Char → Prop} {cs : List Char} {ts : List Token}

theorem reads_delimiter {s} (hs : s ∈ [.openParen, .closeParen, .openBracket, .closeBracket, .comma]) :
    A.ReadsBefore p s.text [.symbol s] := by
  simp only [mem_cons, not_mem_nil, or_false] at hs
  rcases hs with rfl | rfl | rfl | rfl | rfl <;> exact .symbol rfl fun _ _ _ => rfl

theorem reads_reserved {w} (hw : w ∈ [.and, .or, .not, .is, .isIn, .ifThen, .orElse, .lambda, .await]) :
    A.ReadsBefore BoundaryOrDot w.text.toList [.reserved w] := by
  have hall : ∀ w ∈ [Reserved.and, .or, .not, .is, .isIn, .ifThen, .orElse, .lambda, .await],
      w.text.toList ≠ [] ∧ (w.text.toList.all fun c => decide (c.toNat < 128 ∧ c.isAlpha = true)) = true ∧
        Token.ofWord w.text = .reserved w := by
    decide +kernel
  obtain ⟨hne, hall, hword⟩ := hall w hw
  have halpha : ∀ c ∈ w.text.toList, c.toNat < 128 ∧ c.isAlpha = true :=
    fun c hc => of_decide_eq_true (all_eq_true.1 hall c hc)
  obtain ⟨c, ds, ht⟩ := exists_cons_of_ne_nil hne
  rw [← hword]
  refine .word ⟨c, ds, ht, ?_, fun x hx => ?_⟩
  · obtain ⟨hlt, hc⟩ := halpha c (by simp [ht])
    simp [A.starts_ascii c hlt, hc]
  · obtain ⟨hlt, hx⟩ := halpha x (by simp [ht, hx])
    simp [A.continues_ascii x hlt, Char.isAlphanum, hx]

variable {id : Ident}

theorem reads_name (h : A.IsName id) : A.ReadsBefore BoundaryOrDot id.toList [.name id] := by
  have hword : Token.ofWord id = .name id := by rw [Token.ofWord, h.2]
  exact hword ▸ .word h.1

theorem opens_of_isName (h : A.IsName id) : ∃ c cs, id.toList = c :: cs ∧ A.Opens c := by
  obtain ⟨c, cs, ht, hc, -⟩ := h.1
  exact ⟨c, cs, ht, .inl hc⟩

theorem reads_binary (op : BinaryOp) : A.ReadsBefore (· = ' ') op.symbol.toList [.symbol op.token] := by
  have htext : op.symbol.toList = op.token.text := by cases op <;> rfl
  rw [htext]
  refine .symbol (by cases op <;> rfl) ?_
  rintro c rest rfl
  cases op <;> rfl

theorem reads_bool (op : BoolOp) : A.ReadsBefore (· = ' ') op.symbol.toList [op.token] := by
  have hblank : ∀ c, c = ' ' → BoundaryOrDot c := by simp
  cases op with
  | and => exact (reads_reserved (w := .and) (by simp)).mono hblank
  | or => exact (reads_reserved (w := .or) (by simp)).mono hblank

theorem reads_compare (op : CompareOp) : A.ReadsBefore (· = ' ') op.symbol.toList op.tokens := by
  have hblank : ∀ c, c = ' ' → BoundaryOrDot c := by simp
  have hsymbol : ∀ s ∈ [Grammar.Symbol.equal, .notEqual, .less, .lessEqual, .greater, .greaterEqual],
      A.ReadsBefore (· = ' ') s.text [.symbol s] := by
    intro s hs
    simp only [mem_cons, not_mem_nil, or_false] at hs
    rcases hs with rfl | rfl | rfl | rfl | rfl | rfl <;> exact .symbol rfl fun c rest hc => by subst hc; rfl
  have hword : ∀ w ∈ [Reserved.is, .not, .isIn], A.ReadsBefore (· = ' ') w.text.toList [.reserved w] := by
    intro w hw
    simp only [mem_cons, not_mem_nil, or_false] at hw
    rcases hw with rfl | rfl | rfl <;> exact (reads_reserved (by simp)).mono hblank
  cases op with
  | eq => exact hsymbol .equal (by simp)
  | notEq => exact hsymbol .notEqual (by simp)
  | lt => exact hsymbol .less (by simp)
  | ltE => exact hsymbol .lessEqual (by simp)
  | gt => exact hsymbol .greater (by simp)
  | gtE => exact hsymbol .greaterEqual (by simp)
  | is => exact hword .is (by simp)
  | isIn => exact hword .isIn (by simp)
  | isNot => exact (hword .is (by simp)).append (.append_of_any .blank (hword .not (by simp))) rfl
  | notIn => exact (hword .not (by simp)).append (.append_of_any .blank (hword .isIn (by simp))) rfl

theorem reads_enclosed (h : A.ReadsBefore Boundary cs ts) :
    A.ReadsBefore p ('(' :: (cs ++ [')'])) (.symbol .openParen :: (ts ++ [.symbol .closeParen])) :=
  (reads_delimiter (s := .openParen) (by simp)).append_of_any
    (h.append (reads_delimiter (s := .closeParen) (by simp)) (by simp))

theorem reads_bracketed (h : A.ReadsBefore Boundary cs ts) :
    A.ReadsBefore p ('[' :: (cs ++ [']'])) (.symbol .openBracket :: (ts ++ [.symbol .closeBracket])) :=
  (reads_delimiter (s := .openBracket) (by simp)).append_of_any
    (h.append (reads_delimiter (s := .closeBracket) (by simp)) (by simp))

theorem reads_items {α : Type} {items : List α} {f : α → List Char} {g : α → List Token}
    (h : ∀ e ∈ items, A.ReadsBefore Boundary (f e) (g e)) :
    A.ReadsBefore Boundary (List.intercalate [',', ' '] (items.map f))
      (List.intercalate [.symbol .comma] (items.map g)) :=
  .intercalate ((reads_delimiter (s := .comma) (by simp)).append_of_any .blank) (by simp) h

/-- The text of an expression starts like one and is read as its tokens. -/
structure Expr.Legible (A : Alphabet) (e : Expr) : Prop where
  opens : ∃ c cs, e.kind.code.toList = c :: cs ∧ A.Opens c
  reads : A.ReadsBefore Boundary e.kind.code.toList e.kind.tokens
  pointed : e.kind.precedence = .atom → e.kind.isIntLiteral = false →
    A.ReadsBefore BoundaryOrDot e.kind.code.toList e.kind.tokens

theorem opens_symbol {c : Char} (hc : c ∈ ['(', '[', '+', '-', '~']) : A.Opens c := .inr (.inr hc)

theorem opens_letter {c : Char} (hc : c.toNat < 128 ∧ c.isAlpha = true) : A.Opens c :=
  .inl (by simp [A.starts_ascii c hc.1, hc.2])

theorem Precedence.ofBinary_ne_atom (op : BinaryOp) : Precedence.ofBinary op ≠ .atom := by
  cases op <;> decide

theorem Precedence.ofUnary_ne_atom (op : UnaryOp) : Precedence.ofUnary op ≠ .atom := by
  cases op <;> decide

theorem Precedence.ofBool_ne_atom (op : BoolOp) : Precedence.ofBool op ≠ .atom := by
  cases op <;> decide

namespace Expr.Legible

variable {e : Expr}

theorem of_pointed (opens : ∃ c cs, e.kind.code.toList = c :: cs ∧ A.Opens c)
    (h : A.ReadsBefore BoundaryOrDot e.kind.code.toList e.kind.tokens) : e.Legible A :=
  ⟨opens, h.mono fun _ => .inl, fun _ _ => h⟩

theorem of_loose (opens : ∃ c cs, e.kind.code.toList = c :: cs ∧ A.Opens c) (hp : e.kind.precedence ≠ .atom)
    (h : A.ReadsBefore Boundary e.kind.code.toList e.kind.tokens) : e.Legible A :=
  ⟨opens, h, fun ha => absurd ha hp⟩

theorem codeAt (h : e.Legible A) (required : Precedence) :
    A.ReadsBefore Boundary (e.codeAt required).toList (e.tokensAt required) := by
  obtain ⟨pos, kind⟩ := e
  rw [Expr.codeAt, Expr.tokensAt, parenthesize, enclose]
  split
  · simpa using reads_enclosed h.reads
  · exact h.reads

theorem opens_at (h : e.Legible A) (required : Precedence) :
    ∃ c cs, (e.codeAt required).toList = c :: cs ∧ A.Opens c := by
  obtain ⟨pos, kind⟩ := e
  rw [Expr.codeAt, parenthesize]
  split
  · exact ⟨'(', kind.code.toList ++ [')'], by simp, opens_symbol (by simp)⟩
  · exact h.opens

end Expr.Legible

theorem opens_append {text : String} {ds : List Char} (h : ∃ c cs, text.toList = c :: cs ∧ A.Opens c) :
    ∃ c cs, text.toList ++ ds = c :: cs ∧ A.Opens c := by
  obtain ⟨c, cs, ht, hc⟩ := h
  exact ⟨c, cs ++ ds, by rw [ht, cons_append], hc⟩

theorem paramTexts_replicate (names : List Ident) : paramTexts names (List.replicate names.length none) = names := by
  induction names with
  | nil => rfl
  | cons name names ih => rw [length_cons, replicate_succ, paramTexts, ih]

theorem Params.code_plain (names : List Ident) :
    Params.code ⟨names, none, [], [], none, []⟩ = ", ".intercalate names := by
  rw [Params.code, Params.layout]
  simp [Expr.codesAt, paramTexts, paramTexts_replicate]

namespace Expr.Legible

attribute [local simp] ExprKind.code

variable {pos : Position}

theorem name (hid : A.IsName id) : Legible A ⟨pos, .name id⟩ := by
  refine .of_pointed ?_ ?_ <;> simp only [ExprKind.code, ExprKind.tokens]
  · exact opens_of_isName hid
  · exact reads_name hid

theorem number {n : Int} (hn : 0 ≤ n) : Legible A ⟨pos, .const (.int n)⟩ := by
  obtain ⟨n, rfl⟩ := Int.eq_ofNat_of_zero_le hn
  have hcode : (ExprKind.code (.const (.int n))).toList = Nat.toDigits 10 n := by
    rw [ExprKind.code]
    exact Nat.toList_repr
  refine ⟨?_, ?_, fun _ h => by cases h⟩
  · obtain ⟨d, ds, hds⟩ := exists_cons_of_ne_nil (Nat.toDigits_ne_nil (n := n) (b := 10))
    refine ⟨d, ds, hcode.trans hds, .inr (.inl ?_)⟩
    exact Nat.isDigit_of_mem_toDigits (n := n) (b := 10) (by omega) (by omega) (by simp [hds])
  · rw [hcode, ExprKind.tokens, Int.toNat_natCast]
    exact .number n

theorem base {kind} (h : Legible A ⟨pos, kind⟩) : A.ReadsBefore BoundaryOrDot
      (if kind.isIntLiteral then "(" ++ kind.code ++ ")" else Expr.codeAt .atom ⟨pos, kind⟩).toList
      (if kind.isIntLiteral then enclose true kind.tokens else Expr.tokensAt .atom ⟨pos, kind⟩) ∧
    ∃ c cs, (if kind.isIntLiteral then "(" ++ kind.code ++ ")" else Expr.codeAt .atom ⟨pos, kind⟩).toList = c :: cs ∧
      A.Opens c := by
  have henclosed : A.ReadsBefore BoundaryOrDot ("(" ++ kind.code ++ ")").toList (enclose true kind.tokens) := by
    simpa [enclose] using reads_enclosed h.reads
  by_cases hint : kind.isIntLiteral = true
  · simp only [hint, if_true]
    exact ⟨henclosed, '(', kind.code.toList ++ [')'], by simp, opens_symbol (by simp)⟩
  · simp only [hint, if_false, Bool.false_eq_true]
    refine ⟨?_, h.opens_at .atom⟩
    rw [Expr.codeAt, Expr.tokensAt, parenthesize]
    by_cases hwrap : kind.precedence.ctorIdx < Precedence.atom.ctorIdx
    · simpa [hwrap] using henclosed
    · have hatom : kind.precedence = .atom := by
        revert hwrap
        cases kind.precedence <;> decide
      simpa [hwrap, enclose] using h.pointed hatom (by simpa using hint)

attribute [local simp] ExprKind.precedence

variable {value left : Expr} {items comparators : List Expr}

theorem attr {name} (hv : value.Legible A) (hn : A.IsName name) : Legible A ⟨pos, .attr value name⟩ := by
  obtain ⟨vpos, kind⟩ := value
  obtain ⟨hbase, hopens⟩ := hv.base
  have hpoint : A.ReadsBefore BoundaryOrDot ('.' :: name.toList) [.symbol .dot, .name name] := by
    have hdot : A.ReadsBefore A.Opens ['.'] [.symbol .dot] := by
      refine .symbol (s := .dot) rfl fun c rest hc => ?_
      have hne : ('.' == c) = false := by simpa using hc.ne.2.2.symm
      simp [Symbol.first?, Symbol.all, Symbol.text, List.isPrefixOf, hne]
    obtain ⟨c, cs, hname, hc⟩ := opens_of_isName hn
    have hid := reads_name hn
    rw [hname] at hid ⊢
    exact hdot.append hid hc
  refine .of_pointed ?_ ?_ <;> simp only [ExprKind.code, ExprKind.tokens, String.toList_append, append_assoc]
  · exact opens_append hopens
  · exact hbase.append hpoint (.inr rfl)

theorem call {func args} (hf : func.Legible A) (ha : ∀ a ∈ args, a.Legible A) :
    Legible A ⟨pos, .call func args []⟩ := by
  have hitems := reads_items fun a h => (ha a h).codeAt .test
  have hargs : A.ReadsBefore BoundaryOrDot
      ('(' :: (List.intercalate [',', ' '] (args.map fun e => (e.codeAt .test).toList) ++ [')']))
      (.symbol .openParen :: (List.intercalate [.symbol .comma] (args.map (Expr.tokensAt .test)) ++
        [.symbol .closeParen])) := reads_enclosed hitems
  refine .of_pointed ?_ ?_
  · simp only [ExprKind.code, String.toList_append, append_assoc]
    exact opens_append (hf.opens_at .atom)
  · simpa [Keyword.codes, String.toList_intercalate, Expr.codesAt_eq_map,
      Expr.tokensEach_eq_map, Function.comp_def] using
      (hf.codeAt .atom).append hargs (by simp)

theorem subscript {slice} (hv : value.Legible A) (hs : slice.Legible A) :
    Legible A ⟨pos, .subscript value slice⟩ := by
  have hindex : A.ReadsBefore BoundaryOrDot ('[' :: ((slice.codeAt .tuple).toList ++ [']']))
      (.symbol .openBracket :: (slice.tokensAt .tuple ++ [.symbol .closeBracket])) :=
    reads_bracketed (hs.codeAt .tuple)
  refine .of_pointed ?_ ?_
  · simp only [ExprKind.code, String.toList_append, append_assoc]
    exact opens_append (hv.opens_at .atom)
  · simpa using (hv.codeAt .atom).append hindex (by simp)

theorem list (hi : ∀ e ∈ items, e.Legible A) : Legible A ⟨pos, .list items⟩ := by
  have hitems := reads_items fun e h => (hi e h).codeAt .test
  refine .of_pointed ?_ ?_
  · simp only [ExprKind.code, String.toList_append, append_assoc]
    exact ⟨'[', _, rfl, opens_symbol (by simp)⟩
  · simpa [String.toList_intercalate, Expr.codesAt_eq_map,
      Expr.tokensEach_eq_map, Function.comp_def] using reads_bracketed (p := BoundaryOrDot) hitems

theorem tuple (hi : ∀ e ∈ items, e.Legible A) : Legible A ⟨pos, .tuple items⟩ := by
  by_cases hone : ∃ item, items = [item]
  · obtain ⟨item, rfl⟩ := hone
    have hitem : A.ReadsBefore Boundary ((item.codeAt .test).toList ++ [','])
        (item.tokensAt .test ++ [.symbol .comma]) :=
      ((hi item (by simp)).codeAt .test).append (reads_delimiter (s := .comma) (by simp)) (by simp)
    refine .of_pointed ?_ ?_
    · simp only [ExprKind.code, String.toList_append, append_assoc]
      exact ⟨'(', _, rfl, opens_symbol (by simp)⟩
    · simpa using reads_enclosed (p := BoundaryOrDot) hitem
  · have hmany : ∀ item, items = [item] → False := fun item h => hone ⟨item, h⟩
    have hitems := reads_items fun e h => (hi e h).codeAt .test
    refine .of_pointed ?_ ?_
    · simp only [ExprKind.code, String.toList_append, append_assoc]
      exact ⟨'(', _, rfl, opens_symbol (by simp)⟩
    · simpa [String.toList_intercalate, Expr.codesAt_eq_map,
        Expr.tokensEach_eq_map, Function.comp_def] using reads_enclosed (p := BoundaryOrDot) hitems

theorem binOp {right op} (hl : left.Legible A) (hr : right.Legible A) : Legible A ⟨pos, .binOp left op right⟩ := by
  refine .of_loose ?_ (Precedence.ofBinary_ne_atom op) ?_
  · simp only [ExprKind.code, String.toList_append, append_assoc]
    exact opens_append (hl.opens_at _)
  · simpa using (hl.codeAt (Precedence.operands op).1).spaced (reads_binary op) (hr.codeAt (Precedence.operands op).2)

theorem reads_sign {s} (hs : s ∈ [.plus, .minus, .tilde]) : A.ReadsBefore A.Opens s.text [.symbol s] := by
  simp only [mem_cons, not_mem_nil, or_false] at hs
  have hend : Symbol.first? s.text = some s := by rcases hs with rfl | rfl | rfl <;> rfl
  refine .symbol hend fun c rest hc => ?_
  have heq : ('=' == c) = false := by simpa using hc.ne.1.symm
  have hgt : ('>' == c) = false := by simpa using hc.ne.2.1.symm
  rcases hs with rfl | rfl | rfl <;>
    simp [Symbol.first?, Symbol.all, Symbol.text, List.isPrefixOf, heq, hgt]

theorem unaryOp {op operand} (ho : operand.Legible A) : Legible A ⟨pos, .unaryOp op operand⟩ := by
  obtain ⟨c, cs, htext, hc⟩ := ho.opens_at (.ofUnary op)
  have hread := ho.codeAt (.ofUnary op)
  have hsign : ∀ s ∈ [Grammar.Symbol.plus, .minus, .tilde], A.ReadsBefore Boundary
      (s.text ++ (operand.codeAt (.ofUnary op)).toList) ([.symbol s] ++ operand.tokensAt (.ofUnary op)) := by
    intro s hs
    rw [htext] at hread ⊢
    exact (reads_sign hs).append hread hc
  refine .of_loose ?_ (Precedence.ofUnary_ne_atom op) ?_ <;>
    simp only [ExprKind.code, ExprKind.tokens, String.toList_append]
  · cases op with
    | not => exact ⟨'n', _, rfl, opens_letter (by decide)⟩
    | invert => exact ⟨'~', _, rfl, opens_symbol (by simp)⟩
    | plus => exact ⟨'+', _, rfl, opens_symbol (by simp)⟩
    | minus => exact ⟨'-', _, rfl, opens_symbol (by simp)⟩
  · cases op with
    | not =>
      have hnot := reads_reserved (A := A) (w := .not) (by simp)
      have htext : UnaryOp.not.symbol.toList = Reserved.not.text.toList ++ [' '] := rfl
      rw [htext, append_assoc]
      exact hnot.append (.append_of_any .blank hread) (by simp)
    | invert => exact hsign .tilde (by simp)
    | plus => exact hsign .plus (by simp)
    | minus => exact hsign .minus (by simp)

theorem boolOp {op values} (hne : values ≠ []) (hv : ∀ e ∈ values, e.Legible A) :
    Legible A ⟨pos, .boolOp op values⟩ := by
  have hsep : A.ReadsBefore (fun _ => True) (' ' :: (op.symbol.toList ++ [' '])) [op.token] :=
    .append_of_any .blank ((reads_bool op).append .blank rfl)
  have hvalues := Alphabet.ReadsBefore.intercalate hsep (by simp)
    fun e h => (hv e h).codeAt (Precedence.ofBool op).next
  refine .of_loose ?_ (Precedence.ofBool_ne_atom op) ?_
  · obtain ⟨first, rest, rfl⟩ := exists_cons_of_ne_nil hne
    simp only [ExprKind.code, String.toList_intercalate, Expr.codesAt_eq_map, map_cons, intercalate_cons]
    exact opens_append ((hv first (by simp)).opens_at (Precedence.ofBool op).next)
  · simpa [String.toList_intercalate, Expr.codesAt_eq_map, Expr.tokensEach_eq_map, Function.comp_def] using hvalues

theorem reads_comparisons (hc : ∀ e ∈ comparators, e.Legible A) (ops : List CompareOp)
    (h : A.ReadsBefore Boundary cs ts) :
    A.ReadsBefore Boundary (cs ++ (String.join (comparisonTexts ops (Expr.codesAt .bitOr comparators))).toList)
      (ts ++ (List.zipWith (fun op ts => op.tokens ++ ts) ops (Expr.tokensEach .bitOr comparators)).flatten) := by
  induction comparators generalizing ops cs ts with
  | nil => simpa [Expr.codesAt, Expr.tokensEach, comparisonTexts] using h
  | cons e es ih =>
    cases ops with
    | nil => simpa [comparisonTexts] using h
    | cons op ops =>
      have hstep := h.spaced (reads_compare op) ((hc e (by simp)).codeAt .bitOr)
      simpa [Expr.codesAt, Expr.tokensEach, comparisonTexts, String.join_cons] using
        ih (fun x hx => hc x (mem_cons_of_mem _ hx)) ops hstep

theorem compare {ops} (hl : left.Legible A) (hc : ∀ e ∈ comparators, e.Legible A) :
    Legible A ⟨pos, .compare left ops comparators⟩ := by
  refine .of_loose ?_ (by simp) ?_
  · simp only [ExprKind.code, String.toList_append]
    exact opens_append (hl.opens_at _)
  · simpa only [ExprKind.code, ExprKind.tokens, String.toList_append] using
      reads_comparisons hc ops (hl.codeAt .bitOr)

theorem ifExp {test body orelse} (ht : test.Legible A) (hb : body.Legible A) (ho : orelse.Legible A) :
    Legible A ⟨pos, .ifExp test body orelse⟩ := by
  have hblank : ∀ c, c = ' ' → BoundaryOrDot c := by simp
  have hif : A.ReadsBefore (· = ' ') Reserved.ifThen.text.toList [.reserved .ifThen] :=
    (reads_reserved (by simp)).mono hblank
  have helse : A.ReadsBefore (· = ' ') Reserved.orElse.text.toList [.reserved .orElse] :=
    (reads_reserved (by simp)).mono hblank
  have htail := (ht.codeAt .or).spaced helse (ho.codeAt .test)
  refine .of_loose ?_ (by simp) ?_
  · simp only [ExprKind.code, String.toList_append, append_assoc]
    exact opens_append (hb.opens_at _)
  · simpa [Reserved.text] using (hb.codeAt .or).spaced hif htail

theorem await (hv : value.Legible A) : Legible A ⟨pos, .await value⟩ := by
  have hawait := reads_reserved (A := A) (w := .await) (by simp)
  refine .of_loose ?_ (by simp) ?_ <;> simp only [ExprKind.code, ExprKind.tokens, String.toList_append]
  · exact ⟨'a', _, rfl, opens_letter (by decide)⟩
  · simpa [Reserved.text] using
      hawait.append (.append_of_any .blank (hv.codeAt .atom)) (by simp)

theorem lambda {names body} (hn : ∀ id ∈ names, A.IsName id) (hb : body.Legible A) :
    Legible A ⟨pos, .lambda ⟨names, none, [], [], none, []⟩ body⟩ := by
  have hword := reads_reserved (A := A) (w := .lambda) (by simp)
  have hcolon : A.ReadsBefore (· = ' ') [':'] [.symbol .colon] :=
    .symbol (s := .colon) rfl fun c rest hc => by subst hc; rfl
  have hbody : A.ReadsBefore Boundary (':' :: ' ' :: (body.codeAt .test).toList)
      (.symbol .colon :: body.tokensAt .test) :=
    hcolon.append (.append_of_any .blank (hb.codeAt .test)) rfl
  refine .of_loose ?_ (by simp) ?_
  · refine ⟨'l', (ExprKind.code (.lambda ⟨names, none, [], [], none, []⟩ body)).toList.tail, ?_,
      opens_letter (by decide)⟩
    simp only [ExprKind.code]
    split <;> simp
  · simp only [ExprKind.code, ExprKind.tokens, Params.code_plain]
    cases names with
    | nil => simpa [Reserved.text] using hword.append hbody (by simp)
    | cons id ids =>
      have hnames := reads_items fun x hx => (reads_name (hn x hx)).mono fun _ => .inl
      have hnonempty : (", ".intercalate (id :: ids)).isEmpty = false := by
        obtain ⟨c, cs, hid, -⟩ := opens_of_isName (hn id (by simp))
        rw [← Bool.not_eq_true, String.isEmpty_iff, ← String.toList_eq_nil_iff]
        simp [String.toList_intercalate, intercalate_cons, hid]
      have hparams := hnames.append hbody (by simp)
      rw [hnonempty]
      simpa [Reserved.text, String.toList_intercalate] using
        hword.append (.append_of_any .blank hparams) (by simp)

end Expr.Legible

theorem Expr.Readable.legible {e : Expr} (h : e.Readable A) : e.Legible A := by
  induction h with
  | name hid => exact .name hid
  | number hn => exact .number hn
  | attr _ hn ihv => exact .attr ihv hn
  | call _ _ ihf iha => exact .call ihf iha
  | subscript _ _ ihv ihs => exact .subscript ihv ihs
  | list _ ih => exact .list ih
  | tuple _ ih => exact .tuple ih
  | binOp _ _ ihl ihr => exact .binOp ihl ihr
  | unaryOp _ ih => exact .unaryOp ih
  | boolOp hlen _ ih => exact .boolOp (ne_nil_of_length_pos (by omega)) ih
  | compare _ _ _ _ ihl ihc => exact .compare ihl ihc
  | ifExp _ _ _ iht ihb iho => exact .ifExp iht ihb iho
  | lambda hn _ ihb => exact .lambda hn ihb
  | await _ ih => exact .await ih

end Text

end Speculator
