import Speculator.Proofs.Reading.Legible

/-!
# Reading back what is written

The source text of an expression is read as the same expression: the parentheses that the rendering leaves out are
those that the precedence and the associativity of the operators make superfluous.
-/

namespace Speculator

open List Precedence

open Grammar

/-! ## The tokens are read as the expression -/

/-- The level of the grammar at which expressions of a binding strength are read. -/
def Precedence.level : Precedence → Level
  | tuple | yield | test => .expression
  | or => .disjunction
  | and => .conjunction
  | not => .inversion
  | cmp => .comparison
  | bitOr => .bitOr
  | bitXor => .bitXor
  | bitAnd => .bitAnd
  | shift => .shift
  | arith => .sum
  | term => .term
  | factor => .factor
  | power => .power
  | await => .awaited
  | atom => .primary

theorem Precedence.ctorIdx_level (p : Precedence) : p.level.ctorIdx = p.ctorIdx - 2 := by
  cases p <;> rfl

namespace Grammar

def Starts (level : Level) (t : Token) : Prop :=
  Plain level t ∧ t ≠ .symbol .closeParen ∧ t ≠ .symbol .closeBracket

section Tokens

variable {level : Level} {ts rest : List Token} {t : Token} {e : Expr}

theorem starts_openParen : Starts level (.symbol .openParen) :=
  ⟨fun outer _ us => by cases outer <;> rfl, by decide, by decide⟩

theorem stops_nil : Stops level [] := fun inner _ => by cases inner <;> rfl

theorem stops_closeParen : Stops level (.symbol .closeParen :: ts) := fun inner _ => by cases inner <;> rfl

theorem stops_closeBracket : Stops level (.symbol .closeBracket :: ts) := fun inner _ => by cases inner <;> rfl

theorem stops_comma : Stops level (.symbol .comma :: ts) := fun inner _ => by cases inner <;> rfl

theorem stops_orElse : Stops level (.reserved .orElse :: ts) := fun inner _ => by cases inner <;> rfl

theorem stops_ifThen : Stops .disjunction (.reserved .ifThen :: ts) := by
  intro inner hi
  cases inner <;> first | rfl | exact absurd hi (by decide)

theorem ReadAs.enclosed (h : ReadAs .expression (t :: ts) e) (ht : t ≠ .symbol .closeParen) :
    ReadAs level (.symbol .openParen :: (t :: ts ++ [.symbol .closeParen])) e := by
  refine ReadAs.climb ?_ starts_openParen.1 level.ctorIdx_le
  intro rest r hr
  have hlisted : Listed .closeParen (t :: ts ++ .symbol .closeParen :: rest) ([e], false, rest) :=
    .single (by simpa using ht) (by decide) (h.parsed stops_closeParen)
  have hatom := Atomic.group hlisted
  rw [cons_append, append_assoc]
  exact .atom hatom (by simp only [length_cons, length_append]; omega) hr.continued

end Tokens

end Grammar

/-- The first token can be that of the expression, and the tokens are read as it. -/
structure Expr.Parses (e : Expr) : Prop where
  head : ∃ t ts, e.kind.tokens = t :: ts ∧ Starts e.kind.precedence.level t
  reads : ReadAs e.kind.precedence.level e.kind.tokens e.unplaced

namespace Expr.Parses

variable {e : Expr}

theorem tokensAt_cons (h : e.Parses) (p : Precedence) : ∃ t ts, e.tokensAt p = t :: ts ∧ Starts p.level t := by
  obtain ⟨pos, kind⟩ := e
  obtain ⟨t, ts, ht, hplain, hclose⟩ := h.head
  rw [Expr.tokensAt, enclose]
  split
  · exact ⟨_, _, rfl, starts_openParen⟩
  · rename_i hp
    have hle : p.level.ctorIdx ≤ kind.precedence.level.ctorIdx := by
      rw [ctorIdx_level, ctorIdx_level]
      simp only [decide_eq_true_eq] at hp
      omega
    exact ⟨t, ts, ht, hplain.mono hle, hclose⟩

theorem length_lt (h : e.Parses) (p : Precedence) (rest : List Token) :
    rest.length < (e.tokensAt p ++ rest).length := by
  obtain ⟨t, ts, ht, -⟩ := h.tokensAt_cons p
  simp only [ht, length_append, length_cons]
  omega

theorem tokensAt (h : e.Parses) (p : Precedence) : ReadAs p.level (e.tokensAt p) e.unplaced := by
  obtain ⟨pos, kind⟩ := e
  obtain ⟨t, ts, ht, hplain, hclose⟩ := h.head
  have hreads := h.reads
  simp only [ht] at hreads
  rw [Expr.tokensAt, enclose, ht]
  split
  · exact (hreads.climb hplain (Nat.zero_le _)).enclosed hclose.1
  · rename_i hp
    refine hreads.climb hplain ?_
    rw [ctorIdx_level, ctorIdx_level]
    simp only [decide_eq_true_eq] at hp
    omega

/-! ### Names, numbers and brackets -/

variable {pos : Position} {items : List Expr} {value left right : Expr} {rest : List Token}

theorem name {id} : Parses ⟨pos, .name id⟩ := by
  refine ⟨⟨.name id, [], by simp only [ExprKind.tokens], ?_, by simp, by simp⟩, ?_⟩
  · exact fun outer _ us => by cases outer <;> rfl
  · intro rest r hr
    simp only [ExprKind.tokens]
    exact .atom (.name id) (by simp) hr.continued

theorem precedence_number {n : Int} (hn : 0 ≤ n) : ExprKind.precedence (.const (.int n)) = .atom := by
  obtain ⟨n, rfl⟩ := Int.eq_ofNat_of_zero_le hn
  have hdigit : (Value.repr (.int n)).toList.head? ≠ some '-' := by
    intro h
    have hmem : '-' ∈ Nat.toDigits 10 n := mem_of_head? (Nat.toList_repr ▸ h)
    have := Nat.isDigit_of_mem_toDigits (b := 10) (by omega) (by omega) hmem
    cases this
  simp only [ExprKind.precedence]
  rw [if_neg (by simp [hdigit])]

theorem number {n : Int} (hn : 0 ≤ n) : Parses ⟨pos, .const (.int n)⟩ := by
  refine ⟨⟨.number n.toNat, [], by simp only [ExprKind.tokens], ?_, by simp, by simp⟩, ?_⟩
  · exact fun outer _ us => by cases outer <;> rfl
  · simp only [precedence_number hn]
    intro rest r hr
    obtain ⟨n, rfl⟩ := Int.eq_ofNat_of_zero_le hn
    simp only [ExprKind.tokens]
    exact .atom (.number n) (by simp) hr.continued

theorem listed {close} (hclose : close = .closeParen ∨ close = .closeBracket) (rest : List Token)
    (h : ∀ e ∈ items, e.Parses) :
    Listed close (List.intercalate [.symbol .comma] (items.map (Expr.tokensAt .test)) ++ .symbol close :: rest)
      (items.map Expr.unplaced, false, rest) := by
  induction items with
  | nil => exact .nil
  | cons e es ih =>
    obtain ⟨t, ts, ht, -, hparen, hbracket⟩ := (h e (by simp)).tokensAt_cons .test
    have hreads := (h e (by simp)).tokensAt .test
    have hhead : t ≠ .symbol close := by rcases hclose with rfl | rfl <;> assumption
    have hcomma : close ≠ .comma := by rcases hclose with rfl | rfl <;> decide
    rw [map_cons, intercalate_cons]
    cases es with
    | nil =>
      have hstop : Stops .expression (.symbol close :: rest) := by
        rcases hclose with rfl | rfl
        · exact stops_closeParen
        · exact stops_closeBracket
      simpa using Listed.single (by simp [ht, hhead]) hcomma (hreads.parsed hstop)
    | cons e' es =>
      have hrest := ih fun x hx => h x (mem_cons_of_mem _ hx)
      rw [map_cons, intercalate_cons] at hrest
      have hstop : Stops .expression (.symbol .comma :: (Expr.tokensAt .test e' ++
          (es.map (Expr.tokensAt .test)).flatMap ([.symbol .comma] ++ ·) ++ .symbol close :: rest)) := stops_comma
      simpa using Listed.cons (by simp [ht, hhead]) (hreads.parsed hstop) (by simp; omega) hrest

theorem grouped_eq_tuple (h : ∀ item, items ≠ [item]) : grouped items false = ⟨{}, .tuple items⟩ := by
  cases items with
  | nil => rfl
  | cons e es =>
    cases es with
    | nil => exact absurd rfl (h e)
    | cons e' es => rfl

theorem list (h : ∀ e ∈ items, e.Parses) : Parses ⟨pos, .list items⟩ := by
  refine ⟨⟨.symbol .openBracket, _, by simp only [ExprKind.tokens]; rfl, ?_, by simp, by simp⟩, ?_⟩
  · exact fun outer _ us => by cases outer <;> rfl
  · intro rest r hr
    simp only [Expr.unplaced, ExprKind.unplaced, Expr.unplacedList_eq_map] at hr
    have hatom := Atomic.list (listed (.inr rfl) rest h)
    simp only [ExprKind.tokens, Expr.tokensEach_eq_map, cons_append, append_assoc, nil_append]
    exact .atom hatom (by simp; omega) hr.continued

theorem tuple (h : ∀ e ∈ items, e.Parses) : Parses ⟨pos, .tuple items⟩ := by
  by_cases hone : ∃ item, items = [item]
  · obtain ⟨item, rfl⟩ := hone
    refine ⟨⟨.symbol .openParen, _, by simp only [ExprKind.tokens]; rfl, starts_openParen⟩, ?_⟩
    intro rest r hr
    obtain ⟨t, ts, ht, -, hparen, -⟩ := (h item (by simp)).tokensAt_cons .test
    have hitem : Parsed .expression (item.tokensAt .test ++ .symbol .comma :: .symbol .closeParen :: rest)
        (item.unplaced, .symbol .comma :: .symbol .closeParen :: rest) :=
      ((h item (by simp)).tokensAt .test).parsed stops_comma
    have hatom := Atomic.group (Listed.cons (by simp [ht, hparen]) hitem (by simp; omega) .nil)
    simp only [ExprKind.tokens, cons_append, append_assoc, nil_append]
    exact .atom hatom (by simp; omega) hr.continued
  · have hmany : ∀ item, items = [item] → False := fun item heq => hone ⟨item, heq⟩
    refine ⟨⟨.symbol .openParen, _, by simp only [ExprKind.tokens]; rfl, starts_openParen⟩, ?_⟩
    intro rest r hr
    simp only [Expr.unplaced, ExprKind.unplaced, Expr.unplacedList_eq_map] at hr
    have hatom := Atomic.group (listed (.inl rfl) rest h)
    rw [grouped_eq_tuple fun item heq => by
      obtain ⟨x, rfl, -⟩ := map_eq_singleton_iff.1 heq
      exact hone ⟨x, rfl⟩] at hatom
    simp only [ExprKind.tokens, Expr.tokensEach_eq_map, cons_append, append_assoc, nil_append]
    exact .atom hatom (by simp; omega) hr.continued

/-! ### What is taken of a primary -/

theorem attr {name} (hv : value.Parses) : Parses ⟨pos, .attr value name⟩ := by
  obtain ⟨vpos, kind⟩ := value
  have hbase : ∃ t ts, (if kind.isIntLiteral then enclose true kind.tokens else Expr.tokensAt .atom ⟨vpos, kind⟩) =
      t :: ts ∧ Starts .primary t ∧ ReadAs .primary (t :: ts) (Expr.unplaced ⟨vpos, kind⟩) := by
    split
    · obtain ⟨t, ts, ht, hplain, hclose⟩ := hv.head
      have hreads := hv.reads
      simp only [ht] at hreads
      refine ⟨_, _, rfl, starts_openParen, ?_⟩
      rw [ht]
      exact (hreads.climb hplain (Nat.zero_le _)).enclosed hclose.1
    · obtain ⟨t, ts, ht, hstarts⟩ := hv.tokensAt_cons .atom
      exact ⟨t, ts, ht, hstarts, ht ▸ hv.tokensAt .atom⟩
  obtain ⟨t, ts, ht, hstarts, hreads⟩ := hbase
  refine ⟨⟨t, ts ++ [.symbol .dot, .name name], by simp only [ExprKind.tokens, ht, cons_append], hstarts⟩, ?_⟩
  intro rest r hr
  have htail : Continued .primary (Expr.unplaced ⟨vpos, kind⟩) (.symbol .dot :: .name name :: rest) r :=
    .attr rfl (by simp only [length_cons]; omega) hr.continued
  simp only [ExprKind.tokens, ht, append_assoc, cons_append, nil_append]
  exact hreads _ _ (.of_primary htail)

theorem call {func args} (hf : func.Parses) (ha : ∀ a ∈ args, a.Parses) : Parses ⟨pos, .call func args []⟩ := by
  obtain ⟨t, ts, ht, hstarts⟩ := hf.tokensAt_cons .atom
  refine ⟨⟨t, _, by simp only [ExprKind.tokens, ht, cons_append]; rfl, hstarts⟩, ?_⟩
  intro rest r hr
  simp only [Expr.unplaced, ExprKind.unplaced, Expr.unplacedList_eq_map, Keyword.unplacedList] at hr
  have htail : Continued .primary func.unplaced (.symbol .openParen :: (List.intercalate [.symbol .comma]
      (args.map (Expr.tokensAt .test)) ++ .symbol .closeParen :: rest)) r :=
    .call rfl (by simp) (listed (.inl rfl) rest ha) (by simp; omega) hr.continued
  simp only [ExprKind.tokens, Expr.tokensEach_eq_map, append_assoc, cons_append, nil_append]
  exact hf.tokensAt .atom _ _ (.of_primary htail)

theorem subscript {slice} (hv : value.Parses) (hs : slice.Parses) : Parses ⟨pos, .subscript value slice⟩ := by
  obtain ⟨t, ts, ht, hstarts⟩ := hv.tokensAt_cons .atom
  obtain ⟨u, us, hu, -, -, hbracket⟩ := hs.tokensAt_cons .tuple
  refine ⟨⟨t, _, by simp only [ExprKind.tokens, ht, cons_append]; rfl, hstarts⟩, ?_⟩
  intro rest r hr
  have hindex : Listed .closeBracket (slice.tokensAt .tuple ++ .symbol .closeBracket :: rest)
      ([slice.unplaced], false, rest) :=
    .single (by simp [hu, hbracket]) (by decide) ((hs.tokensAt .tuple).parsed stops_closeBracket)
  have htail : Continued .primary value.unplaced
      (.symbol .openBracket :: (slice.tokensAt .tuple ++ .symbol .closeBracket :: rest)) r :=
    .index rfl (by simp) hindex (by simp) (by simp; omega) hr.continued
  simp only [ExprKind.tokens, append_assoc, cons_append, nil_append]
  exact hv.tokensAt .atom _ _ (.of_primary htail)

/-! ### Operators -/

section Binary

variable {op : BinaryOp} (hop : op ≠ .pow) (us : List Token)

include hop

theorem tail?_binary : (ofBinary op).level.tail? (.symbol op.token :: us) = some (.binary op, us) := by
  cases op <;> first | rfl | exact absurd rfl hop

theorem tail?_inside_binary {inner : Level} (hi : (ofBinary op).level.ctorIdx < inner.ctorIdx) :
    inner.tail? (.symbol op.token :: us) = none := by
  cases op <;> cases inner <;> first | rfl | exact absurd rfl hop | exact absurd hi (by decide)

omit us in
theorem level_binary : (ofBinary op).level.isLeft = true ∧
    (ofBinary op).level.tighter = (ofBinary op).next.level ∧
    operands op = (ofBinary op, (ofBinary op).next) := by
  cases op <;> first | exact ⟨rfl, rfl, rfl⟩ | exact absurd rfl hop

end Binary

theorem level_lt_next (op : BinaryOp) :
    (ofBinary op).level.ctorIdx < (ofBinary op).next.level.ctorIdx := by
  cases op <;> decide

theorem stops_factor (h : Stops .power rest) : Stops .factor rest := by
  intro inner hi
  by_cases hinner : inner = .factor
  · subst hinner
    rcases rest with - | ⟨t, rest⟩
    · rfl
    · cases t <;> rfl
  · exact h inner (Nat.lt_of_le_of_ne hi fun heq => hinner (Level.eq_of_ctorIdx_eq heq.symm))

theorem power (hl : left.Parses) (hr : right.Parses) : Parses ⟨pos, .binOp left .pow right⟩ := by
  obtain ⟨t, ts, ht, hplain, hclose⟩ := hl.tokensAt_cons .await
  have htokens : ExprKind.tokens (.binOp left .pow right) =
      left.tokensAt .await ++ .symbol .doubleStar :: right.tokensAt .factor := by
    simp only [ExprKind.tokens]
    rfl
  constructor
  · refine ⟨t, ts ++ .symbol .doubleStar :: right.tokensAt .factor, by rw [htokens, ht]; rfl, ?_, hclose⟩
    exact hplain.mono (Nat.le_succ Level.power.ctorIdx)
  · intro rest r hfollow
    obtain ⟨hs, rfl⟩ := hfollow.eq_of_not_isLeft rfl
    have hpower : Stops .awaited (.symbol .doubleStar :: (right.tokensAt .factor ++ rest)) := by
      intro inner hi
      cases inner <;> first | rfl | exact absurd hi (by decide)
    have hright : Continued .power left.unplaced (.symbol .doubleStar :: (right.tokensAt .factor ++ rest))
        (⟨{}, .binOp left.unplaced .pow right.unplaced⟩, rest) :=
      .power rfl (by simp) ((hr.tokensAt .factor).parsed (stops_factor hs))
    have hleft := (hl.tokensAt .await).parsed hpower
    simp only [htokens, append_assoc, cons_append]
    change Parsed .power _ _
    exact .descend (by decide) rfl hleft (hl.length_lt _ _) hright

theorem binary {op} (hop : op ≠ .pow) (hl : left.Parses) (hr : right.Parses) :
    Parses ⟨pos, .binOp left op right⟩ := by
  obtain ⟨hleft, htighter, hoperands⟩ := level_binary hop
  obtain ⟨t, ts, ht, hstarts⟩ := hl.tokensAt_cons (ofBinary op)
  refine ⟨⟨t, _, by simp only [ExprKind.tokens, hoperands, ht, cons_append]; rfl, hstarts⟩, ?_⟩
  intro rest r hfollow
  have hright := (hr.tokensAt (ofBinary op).next).parsed (hfollow.stops (level_lt_next op))
  have htail : Continued (ofBinary op).level left.unplaced
      (.symbol op.token :: (right.tokensAt (ofBinary op).next ++ rest)) r :=
    .binary (tail?_binary hop _) (by simp) (htighter ▸ hright) (hr.length_lt _ _) hfollow.continued
  simp only [ExprKind.tokens, hoperands, append_assoc, cons_append]
  exact hl.tokensAt _ _ _ (.goesOn hleft (fun inner hi => tail?_inside_binary hop _ hi) htail)

theorem binOp {op} (hl : left.Parses) (hr : right.Parses) : Parses ⟨pos, .binOp left op right⟩ := by
  by_cases hop : op = .pow
  · exact hop ▸ .power hl hr
  · exact .binary hop hl hr

theorem chained {α : Type} {level} (hl : level ≠ .primary) {f : α → List Token} {tail : α → Tail}
    {operand : α → Expr} {items : List α}
    (hread : ∀ x ∈ items, ∀ vs, Stops level.tighter vs → ∃ us, level.tail? (f x ++ vs) = some (tail x, us) ∧
      us.length < (f x ++ vs).length ∧ vs.length < us.length ∧ Parsed level.tighter us (operand x, vs))
    (hstop : ∀ x ∈ items, ∀ vs, Stops level.tighter (f x ++ vs)) (hrest : Stops level rest) :
    Chained level (items.flatMap f ++ rest) (items.map fun x => (tail x, operand x), rest) := by
  induction items with
  | nil => exact .nil (hrest level le_rfl)
  | cons x items ih =>
    have hnext : Stops level.tighter (items.flatMap f ++ rest) := by
      cases items with
      | nil => exact hrest.mono (by rw [Level.ctorIdx_tighter hl]; omega)
      | cons y items =>
        rw [flatMap_cons, append_assoc]
        exact hstop y (by simp) _
    obtain ⟨us, htail, hlt, hlt', hparsed⟩ := hread x (by simp) _ hnext
    rw [flatMap_cons, append_assoc]
    exact .cons htail hlt hparsed hlt'
      (ih (fun y hy => hread y (mem_cons_of_mem _ hy)) (fun y hy => hstop y (mem_cons_of_mem _ hy)))

theorem level_bool (op : BoolOp) : (ofBool op).level ≠ .primary ∧
    (ofBool op).level.isLeft = false ∧
    (ofBool op).level.tighter = (ofBool op).next.level ∧
    (∀ us, (ofBool op).level.opening? us = none) ∧
    ∀ us, (ofBool op).level.tail? (op.token :: us) = some (.bool op, us) := by
  cases op <;> exact ⟨by decide, rfl, rfl, fun _ => rfl, fun _ => rfl⟩

theorem stops_bool (op : BoolOp) (us : List Token) : Stops (ofBool op).next.level (op.token :: us) := by
  intro inner hi
  cases op <;> cases inner <;> first | rfl | exact absurd hi (by decide)

def operandTokens (op : BoolOp) (e : Expr) : List Token := op.token :: e.tokensAt (Precedence.ofBool op).next

theorem boolOp {op values} (hlen : 2 ≤ values.length) (hv : ∀ e ∈ values, e.Parses) :
    Parses ⟨pos, .boolOp op values⟩ := by
  obtain ⟨first, second, others, rfl⟩ : ∃ a b cs, values = a :: b :: cs := by
    rcases values with - | ⟨a, - | ⟨b, cs⟩⟩
    · simp at hlen
    · simp at hlen
    · exact ⟨a, b, cs, rfl⟩
  obtain ⟨hprimary, hleft, htighter, hopening, htail⟩ := level_bool op
  obtain ⟨t, ts, ht, hplain, hclose⟩ := (hv first (by simp)).tokensAt_cons (ofBool op).next
  have htokens : ExprKind.tokens (.boolOp op (first :: second :: others)) =
      first.tokensAt (ofBool op).next ++ (second :: others).flatMap (operandTokens op) := by
    rw [ExprKind.tokens, Expr.tokensEach_eq_map, map_cons, intercalate_cons, flatMap_map]
    rfl
  constructor
  · refine ⟨t, ts ++ _, by rw [htokens, ht]; rfl, hplain.mono ?_, hclose⟩
    rw [← htighter, Level.ctorIdx_tighter hprimary]
    exact Nat.le_succ _
  · intro rest r hfollow
    obtain ⟨hs, rfl⟩ := hfollow.eq_of_not_isLeft hleft
    have hchain : Chained (ofBool op).level ((second :: others).flatMap (operandTokens op) ++ rest)
        ((second :: others).map (fun e => (.bool op, e.unplaced)), rest) := by
      refine chained hprimary (fun e he vs hvs => ?_) (fun e _ vs => ?_) hs
      · have he := hv e (mem_cons_of_mem _ he)
        refine ⟨_, htail _, Nat.lt_succ_self _, he.length_lt _ _, ?_⟩
        rw [htighter] at hvs ⊢
        exact (he.tokensAt _).parsed hvs
      · rw [htighter]
        exact stops_bool op _
    have hcontinued : Continued (ofBool op).level first.unplaced
        ((second :: others).flatMap (operandTokens op) ++ rest)
        (⟨{}, .boolOp op (first.unplaced :: (second :: others).map Expr.unplaced)⟩, rest) := by
      have hbool := Continued.bool (e := first.unplaced) (htail _) hchain
      rwa [map_map] at hbool
    have hstop : Stops (ofBool op).next.level ((second :: others).flatMap (operandTokens op) ++ rest) :=
      stops_bool op _
    have hfirst := ((hv first (by simp)).tokensAt (ofBool op).next).parsed hstop
    rw [htokens, append_assoc]
    simp only [Expr.unplaced, ExprKind.unplaced, Expr.unplacedList_eq_map]
    exact .descend hprimary (hopening _) (htighter ▸ hfirst) ((hv first (by simp)).length_lt _ _) hcontinued

/-- An operand of a comparison does not start with the word that would make its operator longer. -/
theorem comparison?_tokens (op : CompareOp) {t} (ht : Grammar.Plain .bitOr t) (us : List Token) :
    comparison? (op.tokens ++ t :: us) = some (op, t :: us) := by
  have hnot : t ≠ .reserved .not := by
    rintro rfl
    have := ht .inversion (by decide) []
    cases this
  cases op with
  | is =>
    simp only [CompareOp.tokens, cons_append, nil_append]
    unfold comparison?
    split <;> simp_all
  | _ => rfl

theorem stops_compare (op : CompareOp) (us : List Token) : Stops .bitOr (op.tokens ++ us) := by
  intro inner hi
  cases op <;> cases inner <;> first | rfl | exact absurd hi (by decide)

def comparatorTokens (x : CompareOp × Expr) : List Token := x.1.tokens ++ x.2.tokensAt .bitOr

theorem flatten_comparators (ops : List CompareOp) (comparators : List Expr) :
    (List.zipWith (fun op ts => op.tokens ++ ts) ops (comparators.map (Expr.tokensAt .bitOr))).flatten =
      (ops.zip comparators).flatMap comparatorTokens := by
  induction ops generalizing comparators with
  | nil => rfl
  | cons op ops ih =>
    cases comparators with
    | nil => rfl
    | cons c cs => simp [ih, comparatorTokens]

theorem tail?_comparator {x} (hx : x.2.Parses) (vs : List Token) :
    Level.tail? .comparison (comparatorTokens x ++ vs) = some (.compare x.1, x.2.tokensAt .bitOr ++ vs) := by
  obtain ⟨u, us, hu, hplain, -⟩ := hx.tokensAt_cons .bitOr
  simp only [comparatorTokens, hu, append_assoc, cons_append, Level.tail?]
  rw [comparison?_tokens x.1 hplain]
  rfl

theorem stops_comparator (x : CompareOp × Expr) (vs : List Token) : Stops .bitOr (comparatorTokens x ++ vs) := by
  rw [comparatorTokens, append_assoc]
  exact stops_compare x.1 _

theorem chained_comparators {links : List (CompareOp × Expr)} (h : ∀ x ∈ links, x.2.Parses)
    (hs : Stops .comparison rest) : Chained .comparison (links.flatMap comparatorTokens ++ rest)
      (links.map (fun x => (.compare x.1, x.2.unplaced)), rest) := by
  refine chained (by decide) (fun x hx vs hvs => ?_) (fun x _ vs => stops_comparator x vs) hs
  refine ⟨_, tail?_comparator (h x hx) vs, ?_, (h x hx).length_lt _ _, ((h x hx).tokensAt .bitOr).parsed hvs⟩
  have : 0 < x.1.tokens.length := by cases x.1 <;> decide
  simp only [comparatorTokens, length_append]
  omega

theorem compare {ops comparators} (hl : left.Parses) (hops : 1 ≤ ops.length)
    (hlen : ops.length = comparators.length) (hc : ∀ e ∈ comparators, e.Parses) :
    Parses ⟨pos, .compare left ops comparators⟩ := by
  obtain ⟨t, ts, ht, hplain, hclose⟩ := hl.tokensAt_cons .bitOr
  have htokens : ExprKind.tokens (.compare left ops comparators) =
      left.tokensAt .bitOr ++ (ops.zip comparators).flatMap comparatorTokens := by
    rw [ExprKind.tokens, Expr.tokensEach_eq_map, flatten_comparators]
  constructor
  · exact ⟨t, ts ++ _, by rw [htokens, ht]; rfl, hplain.mono (Nat.le_succ Level.comparison.ctorIdx), hclose⟩
  · intro rest r hfollow
    obtain ⟨hs, rfl⟩ := hfollow.eq_of_not_isLeft rfl
    have hmem : ∀ x ∈ ops.zip comparators, x.2.Parses := fun x hx => hc x.2 (of_mem_zip hx).2
    have hops' : ((ops.zip comparators).map fun x => (Tail.compare x.1, x.2.unplaced)).filterMap
        (fun link => link.1.compareOp?) = ops := by
      rw [filterMap_map]
      simpa [Function.comp_def, Tail.compareOp?] using map_fst_zip hlen.le
    have hcomparators : ((ops.zip comparators).map fun x => (Tail.compare x.1, x.2.unplaced)).map Prod.snd =
        comparators.map Expr.unplaced := by
      have hsnd := congrArg (List.map Expr.unplaced) (map_snd_zip hlen.ge)
      rw [map_map] at hsnd ⊢
      exact hsnd
    obtain ⟨x, links, hzip⟩ : ∃ x xs, ops.zip comparators = x :: xs :=
      exists_cons_of_ne_nil (ne_nil_of_length_pos (by simp; omega))
    have hfront : (ops.zip comparators).flatMap comparatorTokens ++ rest =
        comparatorTokens x ++ (links.flatMap comparatorTokens ++ rest) := by
      rw [hzip, flatMap_cons, append_assoc]
    have htail := tail?_comparator (hmem x (by simp [hzip])) (links.flatMap comparatorTokens ++ rest)
    have hcontinued := Continued.compare (e := left.unplaced) (hfront ▸ htail) (chained_comparators hmem hs)
    rw [hops', hcomparators] at hcontinued
    have hstops : Stops .bitOr ((ops.zip comparators).flatMap comparatorTokens ++ rest) :=
      hfront ▸ stops_comparator x _
    rw [htokens, append_assoc]
    simp only [Expr.unplaced, ExprKind.unplaced, Expr.unplacedList_eq_map]
    change Parsed .comparison _ _
    exact .descend (by decide) rfl ((hl.tokensAt .bitOr).parsed hstops) (hl.length_lt _ _) hcontinued

theorem ifExp {test body orelse} (ht : test.Parses) (hb : body.Parses) (ho : orelse.Parses) :
    Parses ⟨pos, .ifExp test body orelse⟩ := by
  obtain ⟨t, ts, hbody, hplain, hclose⟩ := hb.tokensAt_cons .or
  constructor
  · refine ⟨t, _, by simp only [ExprKind.tokens, hbody, cons_append]; rfl, hplain.mono (Nat.zero_le _), hclose⟩
  · intro rest r hfollow
    obtain ⟨hs, rfl⟩ := hfollow.eq_of_not_isLeft rfl
    have horelse := (ho.tokensAt .test).parsed hs
    have hcondition : Parsed .disjunction (test.tokensAt .or ++ .reserved .orElse :: (orelse.tokensAt .test ++ rest))
        (test.unplaced, .reserved .orElse :: (orelse.tokensAt .test ++ rest)) := (ht.tokensAt .or).parsed stops_orElse
    have htail : Continued .expression body.unplaced
        (.reserved .ifThen :: (test.tokensAt .or ++ .reserved .orElse :: (orelse.tokensAt .test ++ rest)))
        (⟨{}, .ifExp test.unplaced body.unplaced orelse.unplaced⟩, rest) :=
      .conditional rfl (by simp) hcondition (by simp; omega) horelse
    have hfirst := (hb.tokensAt .or).parsed (@stops_ifThen (test.tokensAt .or ++ .reserved .orElse ::
      (orelse.tokensAt .test ++ rest)))
    have hopening : Level.opening? .expression (body.tokensAt .or ++ .reserved .ifThen ::
        (test.tokensAt .or ++ .reserved .orElse :: (orelse.tokensAt .test ++ rest))) = none := by
      rw [hbody]
      exact hplain .expression (by decide) _
    simp only [ExprKind.tokens, append_assoc, cons_append]
    change Parsed .expression _ _
    exact .descend (by decide) hopening hfirst (hb.length_lt _ _) htail

theorem parameters_names (names : List Ident) (us : List Token) :
    parameters (List.intercalate [.symbol .comma] (names.map fun id => [.name id]) ++ .symbol .colon :: us) =
      some (names, us) := by
  induction names with
  | nil => rfl
  | cons id ids ih =>
    cases ids with
    | nil => rfl
    | cons id' ids =>
      rw [map_cons] at ih
      rw [map_cons, map_cons, intercalate_cons_cons]
      simp only [cons_append, nil_append, parameters, ih]
      rfl

theorem lambda {names body} (hb : body.Parses) : Parses ⟨pos, .lambda ⟨names, none, [], [], none, []⟩ body⟩ := by
  refine ⟨⟨.reserved .lambda, _, by simp only [ExprKind.tokens]; rfl, ?_, by simp, by simp⟩, ?_⟩
  · intro outer hi
    exact absurd hi (Nat.not_lt_zero _)
  · intro rest r hfollow
    obtain ⟨hs, rfl⟩ := hfollow.eq_of_not_isLeft rfl
    simp only [ExprKind.tokens, append_assoc, cons_append]
    exact .lambda rfl (by simp) (parameters_names names _) (by simp; omega) ((hb.tokensAt .test).parsed hs)

theorem unaryOp {op operand} (ho : operand.Parses) : Parses ⟨pos, .unaryOp op operand⟩ := by
  have hopening : ∀ us, (ofUnary op).level.opening? (op.token :: us) = some (.unary op, us) := by
    cases op <;> exact fun us => rfl
  have hstarts : Starts (ofUnary op).level op.token := by
    refine ⟨fun outer hi us => ?_, by cases op <;> decide, by cases op <;> decide⟩
    cases op <;> cases outer <;> first | rfl | exact absurd hi (by decide)
  refine ⟨⟨op.token, _, by simp only [ExprKind.tokens]; rfl, hstarts⟩, ?_⟩
  intro rest r hfollow
  obtain ⟨hs, rfl⟩ := hfollow.eq_of_not_isLeft (by cases op <;> rfl)
  simp only [ExprKind.tokens, cons_append]
  exact .unary (hopening _) (by simp) ((ho.tokensAt _).parsed hs)

theorem await (hv : value.Parses) : Parses ⟨pos, .await value⟩ := by
  refine ⟨⟨.reserved .await, _, by simp only [ExprKind.tokens]; rfl, ?_, by simp, by simp⟩, ?_⟩
  · intro outer hi us
    cases outer <;> first | rfl | exact absurd hi (by simp [ExprKind.precedence, level])
  · intro rest r hfollow
    obtain ⟨hs, rfl⟩ := hfollow.eq_of_not_isLeft rfl
    simp only [ExprKind.tokens, cons_append]
    exact .await rfl (by simp) ((hv.tokensAt .atom).parsed (hs.mono (Nat.le_succ Level.awaited.ctorIdx)))

end Expr.Parses

theorem Expr.Readable.parses {A : Alphabet} {e : Expr} (h : e.Readable A) : e.Parses := by
  induction h with
  | name _ => exact .name
  | number hn => exact .number hn
  | attr _ _ ihv => exact .attr ihv
  | call _ _ ihf iha => exact .call ihf iha
  | subscript _ _ ihv ihs => exact .subscript ihv ihs
  | list _ ih => exact .list ih
  | tuple _ ih => exact .tuple ih
  | binOp _ _ ihl ihr => exact .binOp ihl ihr
  | unaryOp _ ih => exact .unaryOp ih
  | boolOp hlen _ ih => exact .boolOp hlen ih
  | compare _ hops hlen _ ihl ihc => exact .compare ihl hops hlen ihc
  | ifExp _ _ _ iht ihb iho => exact .ifExp iht ihb iho
  | lambda _ _ ihb => exact .lambda ihb
  | await _ ih => exact .await ih

theorem Expr.Readable.parse?_code {A : Alphabet} {e : Expr} (h : e.Readable A) :
    A.parse? e.code = some e.unplaced := by
  have htokens : A.tokens e.code.toList = some (e.tokensAt .tuple) := by
    have := h.legible.codeAt .tuple [] (by simp)
    rw [append_nil, Alphabet.tokens] at this
    simpa [Expr.code] using this
  have hparsed := (h.parses.tokensAt .tuple).parsed stops_nil
  rw [append_nil] at hparsed
  rw [Alphabet.parse?, htokens, Option.bind_some]
  have hread := hparsed (24 * ((e.tokensAt .tuple).length + 1)) (by omega)
  simp only [level] at hread
  rw [hread]

/-- Rendering is faithful: the grammar reads the source text of an expression back as the same tree up to positions,
so different trees have different texts. -/
theorem parse?_code_faithful (A : Alphabet) :
    (∀ e : Expr, e.Readable A → A.parse? e.code = some e.unplaced) ∧
      ∀ e e' : Expr, e.Readable A → e'.Readable A → e.code = e'.code → e.unplaced = e'.unplaced := by
  refine ⟨fun e h => h.parse?_code, fun e e' h h' hcode => ?_⟩
  have hread := h.parse?_code
  rw [hcode, h'.parse?_code] at hread
  exact (Option.some.inj hread).symm

/-- A difference whose operands are a power of signed operands and a difference. -/
def signedPowers : Expr :=
  let name (id : Ident) : Expr := ⟨⟨3, 1⟩, .name id⟩
  let negative (id : Ident) : Expr := ⟨{}, .unaryOp .minus (name id)⟩
  ⟨{}, .binOp ⟨{}, .binOp (negative "a") .pow (negative "b")⟩ .sub ⟨{}, .binOp (name "c") .sub ⟨{}, .const (.int 1)⟩⟩⟩

theorem parse?_code_signedPowers :
    signedPowers.Readable .ascii ∧ signedPowers.code = "(-a) ** -b - (c - 1)" ∧
      Alphabet.ascii.parse? signedPowers.code = some signedPowers.unplaced ∧
      ∀ e : Expr, e.Readable .ascii → signedPowers.code = e.code → signedPowers.unplaced = e.unplaced := by
  have hname : ∀ id ∈ ["a", "b", "c"], Alphabet.ascii.IsName id := by
    intro id hid
    simp only [List.mem_cons, List.not_mem_nil, or_false] at hid
    rcases hid with rfl | rfl | rfl
    · exact ⟨⟨'a', [], rfl, by decide, by simp⟩, by decide +kernel⟩
    · exact ⟨⟨'b', [], rfl, by decide, by simp⟩, by decide +kernel⟩
    · exact ⟨⟨'c', [], rfl, by decide, by simp⟩, by decide +kernel⟩
  have hreadable : signedPowers.Readable .ascii :=
    .binOp (.binOp (.unaryOp (.name (hname "a" (by simp)))) (.unaryOp (.name (hname "b" (by simp)))))
      (.binOp (.name (hname "c" (by simp))) (.number (by decide)))
  exact ⟨hreadable, by decide +kernel, (parse?_code_faithful .ascii).1 _ hreadable,
    fun e he => (parse?_code_faithful .ascii).2 _ e hreadable he⟩

end Speculator
