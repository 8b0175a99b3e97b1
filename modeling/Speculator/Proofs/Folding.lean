import Speculator.Pass.Folding
import Speculator.Proofs.Fragment

/-!
# Folding keeps the meaning

What an operation on literals may be folded to is listed once (`Folding.Folded`).  It evaluates like the operation
itself. Identity tests are only folded when both operands are literally `None`, so that they ask for a meaning of
identity under which `None` is identical to itself.
-/

namespace Speculator

variable {ε : Type} {v : Value}

/-! ### Expressions with the same meaning -/

/-- `new` may take the place of `e`: also between the brackets of a subscription. -/
def Expr.Alike {ε : Type} (m : Meaning ε) (env : Env) (e new : Expr) : Prop :=
  new.eval m env = e.eval m env ∧ new.index m env = e.index m env

def Expr.isSlice (e : Expr) : Bool :=
  match e.kind with
  | .slice .. => true
  | _ => false

variable {e : Expr}

theorem Expr.index_of_not_slice (m : Meaning ε) (env : Env) (h : e.isSlice = false) :
    e.index m env = (e.eval m env).map .item := by
  unfold Expr.isSlice at h
  unfold Expr.index
  split
  · rename_i hk
    rw [hk] at h
    cases h
  · rfl

theorem Value.isSlice_toExpr (pos : Position) (v : Value) : (v.toExpr pos).isSlice = false := by
  cases v with
  | tuple | frozenSet =>
    simp only [toExpr]
    split <;> rfl
  | _ => rfl

theorem Limits.isSlice_literal? {limits : Limits} {pos : Position} (h : limits.literal? v pos = some e) :
    e.isSlice = false := by
  rw [Limits.eq_toExpr_of_literal? h]
  exact v.isSlice_toExpr pos

/-- `new` is plain and evaluates like `e`, if `None` is identical to itself. -/
structure Folds (fr : Fragment) (e new : Expr) : Prop where
  plain : new.Plain fr
  notSlice : new.isSlice = false
  eval : ∀ {ε : Type} (m : Meaning ε) (env : Env), m.identical .none .none = .ok true → new.eval m env = e.eval m env

variable {fr : Fragment} {limits : Limits} {pos : Position}

theorem Folds.of_literal {new at'} (hv : v.Regular fr.sets)
    (heval : ∀ {ε : Type} (m : Meaning ε) (env : Env), m.identical .none .none = .ok true → e.eval m env = .ok v)
    (h : limits.literal? v at' = some new) : Folds fr e new := by
  refine ⟨Expr.plain_literal? hv h, Limits.isSlice_literal? h, fun m env hid => ?_⟩
  rw [heval m env hid, Limits.eval_literal? m env hv h]

namespace Folding

/-! ### What an operation becomes -/

/-- What an operation may be folded to: the literal of its result, or a comparison without a negation or with a
constant to search. -/
inductive Folded (limits : Limits) : Expr → Expr → Prop
  | binary {pos left right new op l r result}
    (hleft : left.constant? = some l) (hright : right.constant? = some r) (hresult : Value.binary op l r = .ok result)
    (hnew : limits.literal? result pos = some new) : Folded limits ⟨pos, .binOp left op right⟩ new
  | unary {pos operand new op v result}
    (hoperand : operand.constant? = some v)
    (hresult : Value.unary op v = .ok result) (hnew : limits.literal? result pos = some new) :
    Folded limits ⟨pos, .unaryOp op operand⟩ new
  | negated {pos inner left op opposite comparators}
    (hop : op.negation? = some opposite) : Folded limits ⟨pos, .unaryOp .not ⟨inner, .compare left [op] comparators⟩⟩
      ⟨inner, .compare left [opposite] comparators⟩
  | item {pos value index new container i result}
    (hvalue : value.literal? = some container)
    (hindex : index.constant? = some i) (hresult : Value.subscript container i = .ok result)
    (hnew : limits.literal? result pos = some new) : Folded limits ⟨pos, .subscript value index⟩ new
  | slice {pos inner value new lower upper step container result}
    {low high by' : Option Int} (hvalue : value.literal? = some container) (hlower : sliceBound? lower = some low)
    (hupper : sliceBound? upper = some high) (hstep : sliceBound? step = some by')
    (hresult : Value.slice container low high by' = .ok result) (hnew : limits.literal? result pos = some new) :
    Folded limits ⟨pos, .subscript value ⟨inner, .slice lower upper step⟩⟩ new
  | compared {pos left right new op l r} {b : Bool}
    (hleft : left.literal? = some l) (hright : right.literal? = some r) (hresult : Value.compare op l r = .ok b)
    (hnew : limits.literal? (.bool b) pos = some new) : Folded limits ⟨pos, .compare left [op] [right]⟩ new
  | identical {pos left right new op} {b : Bool}
    (hsame : identity? op left right = some b) (hnew : limits.literal? (.bool b) pos = some new) :
    Folded limits ⟨pos, .compare left [op] [right]⟩ new
  | searched {pos left right new v} (hright : searched? right = some v)
    (hnew : limits.literal? v right.pos = some new) :
    Folded limits ⟨pos, .compare left [.isIn] [right]⟩ ⟨pos, .compare left [.isIn] [new]⟩

theorem slice_of_slice? {sequence result lower upper step} (h : slice? sequence lower upper step = some result) :
    ∃ low high by', sliceBound? lower = some low ∧ sliceBound? upper = some high ∧ sliceBound? step = some by' ∧
      Value.slice sequence low high by' = .ok result := by
  unfold slice? at h
  split at h
  case h_5 => cases h
  -- the four kinds of sequences are sliced in the same way
  all_goals
    split at h
    · rename_i low high by' hl hu hs
      exact ⟨low, high, by', hl, hu, hs, toOption_eq_some h⟩
    · cases h

theorem subscript_of_item? {container index result} (h : item? container index = some result) :
    Value.subscript container index = .ok result := by
  unfold item? at h
  split at h
  case h_1 => exact toOption_eq_some h
  case h_6 => cases h
  all_goals
    split at h
    · exact toOption_eq_some h
    · cases h

variable {new left right : Expr} {op : CompareOp} {b : Bool}

theorem folded_of_foldUnary? {operand op} (h : foldUnary? limits ⟨pos, .unaryOp op operand⟩ op operand = some new) :
    Folded limits ⟨pos, .unaryOp op operand⟩ new := by
  unfold foldUnary? at h
  split at h
  · rename_i result hresult
    obtain ⟨v, hv, hop⟩ := Option.bind_eq_some_iff.mp hresult
    unfold unary? at hop
    split at hop
    · exact .unary hv (toOption_eq_some hop) h
    · cases hop
  · split at h
    · rename_i hnot
      cases eq_of_beq hnot
      unfold negatedComparison? at h
      split at h
      · rename_i hkind
        obtain ⟨inner, kind⟩ := operand
        cases hkind
        obtain ⟨opposite, hop, rfl⟩ := Option.map_eq_some_iff.mp h
        exact .negated hop
      · cases h
    · cases h

theorem folded_of_foldSubscript? {value index}
    (h : foldSubscript? limits ⟨pos, .subscript value index⟩ value index = some new) :
    Folded limits ⟨pos, .subscript value index⟩ new := by
  obtain ⟨container, hvalue, h⟩ := Option.bind_eq_some_iff.mp h
  extract_lets literal at h
  split at h
  · rename_i hkind
    obtain ⟨inner, kind⟩ := index
    cases hkind
    obtain ⟨result, hslice, hnew⟩ := Option.bind_eq_some_iff.mp h
    obtain ⟨low, high, by', hlower, hupper, hstep, hresult⟩ := slice_of_slice? hslice
    exact .slice hvalue hlower hupper hstep hresult hnew
  · obtain ⟨result, hitem, hnew⟩ := Option.bind_eq_some_iff.mp h
    obtain ⟨i, hindex, hitem⟩ := Option.bind_eq_some_iff.mp hitem
    exact .item hvalue hindex (subscript_of_item? hitem) hnew

theorem result_of_compare? {l r} (h : compare? op l r = some b) : Value.compare op l r = .ok b := by
  cases op <;> simp only [compare?] at h
  case is | isNot => cases h
  case isIn | notIn =>
    split at h
    · exact toOption_eq_some h
    · cases h
  case eq | notEq =>
    split at h
    · cases h
    · exact toOption_eq_some h
  all_goals exact toOption_eq_some h

theorem literal?_of_searched? {display} (h : searched? display = some v) : ∃ w, display.literal? = some w := by
  unfold searched? at h
  split at h
  · exact ⟨_, ‹_›⟩
  · exact ⟨_, ‹_›⟩
  · cases h

theorem folded_of_foldCompare? (h : foldCompare? limits ⟨pos, .compare left [op] [right]⟩ left op right = some new) :
    Folded limits ⟨pos, .compare left [op] [right]⟩ new := by
  unfold foldCompare? at h
  rcases orElse_eq_some h with h | h
  · obtain ⟨l, hleft, h⟩ := Option.bind_eq_some_iff.mp h
    obtain ⟨r, hright, h⟩ := Option.bind_eq_some_iff.mp h
    obtain ⟨b, hb, hnew⟩ := Option.bind_eq_some_iff.mp h
    exact .compared hleft hright (result_of_compare? hb) hnew
  rcases orElse_eq_some h with h | h
  · obtain ⟨b, hb, hnew⟩ := Option.bind_eq_some_iff.mp h
    exact .identical hb hnew
  split at h
  · rename_i hop
    cases eq_of_beq hop
    obtain ⟨v, hv, h⟩ := Option.bind_eq_some_iff.mp h
    obtain ⟨display, hdisplay, h⟩ := Option.bind_eq_some_iff.mp h
    cases h
    exact .searched hv hdisplay
  · cases h

/-! ### What it evaluates to -/

theorem compare_negation (m : Meaning ε) {negated} (h : op.negation? = some negated) (l r : Value) :
    m.compare negated l r = (m.compare op l r).map not := by
  cases op <;> cases h <;> simp only [Meaning.compare, Value.compare]
  · cases m.identical l r <;> simp [Except.map]
  all_goals cases Value.contains r l <;> simp [Except.map, Meaning.result, Except.mapError]

theorem folds_not_compare {negated inner} (hp : left.Plain fr ∧ right.Plain fr) (h : op.negation? = some negated) :
    Folds fr ⟨pos, .unaryOp .not ⟨inner, .compare left [op] [right]⟩⟩ ⟨inner, .compare left [negated] [right]⟩ := by
  refine ⟨by rw [Expr.Plain]; exact hp, rfl, fun m env _ => ?_⟩
  simp only [Expr.eval]
  cases left.eval m env with
  | error e => rfl
  | ok l =>
    cases right.eval m env with
    | error e => rfl
    | ok r =>
      change (m.compare negated l r).map Value.bool = (m.compare op l r).map Value.bool >>= _
      rw [compare_negation m h]
      cases m.compare op l r with
      | error e => rfl
      | ok b => rfl

theorem evalOption_of_sliceBound? (m : Meaning ε) (env : Env) {bound} {n : Option Int}
    (h : sliceBound? bound = some n) : ∃ v, Expr.evalOption m env bound = .ok v ∧ Value.toBound v = .ok n := by
  unfold sliceBound? at h
  split at h
  · cases h
    exact ⟨none, rfl, rfl⟩
  · split at h
    · rename_i hc
      cases h
      refine ⟨some .none, ?_, rfl⟩
      rw [Expr.evalOption, Expr.eval_of_constant m env hc]
      rfl
    · rename_i v hv hc
      obtain ⟨k, hk, rfl⟩ := Option.map_eq_some_iff.mp h
      refine ⟨some v, ?_, ?_⟩
      · rw [Expr.evalOption, Expr.eval_of_constant m env hc]
        rfl
      · unfold Value.toBound
        split <;> rename_i heq <;> cases heq
        · exact (hv rfl).elim
        · rw [hk]
    · cases h

/-- The bounds of a folded slice are those that it has when it is evaluated. -/
theorem index_slice (m : Meaning ε) (env : Env) {lower upper step} {low high by' : Option Int}
    (hlower : sliceBound? lower = some low) (hupper : sliceBound? upper = some high)
    (hstep : sliceBound? step = some by') :
    Expr.index m env ⟨pos, .slice lower upper step⟩ = .ok (.span low high by') := by
  obtain ⟨l, hl, hlow⟩ := evalOption_of_sliceBound? m env hlower
  obtain ⟨u, hu, hhigh⟩ := evalOption_of_sliceBound? m env hupper
  obtain ⟨k, hk, hby⟩ := evalOption_of_sliceBound? m env hstep
  simp only [Expr.index, hl, hu, hk]
  change m.result (Index.ofBounds l u k) = _
  rw [Index.ofBounds, hlow, hhigh, hby]
  rfl

theorem compare_of_result (m : Meaning ε) {l r} (h : Value.compare op l r = .ok b) : m.compare op l r = .ok b := by
  have hresult : m.result (Value.compare op l r) = .ok b := by rw [h, Meaning.result_ok]
  cases op with
  | is | isNot => cases h
  | _ => exact hresult

theorem compare_of_identity? (m : Meaning ε) (env : Env) (hid : m.identical .none .none = .ok true)
    (h : identity? op left right = some b) :
    left.eval m env = .ok .none ∧ right.eval m env = .ok .none ∧ m.compare op .none .none = .ok b := by
  obtain ⟨_, lkind⟩ := left
  obtain ⟨_, rkind⟩ := right
  unfold identity? at h
  split at h
  · rename_i hl hr
    cases hl; cases hr; cases h
    exact ⟨rfl, rfl, hid⟩
  · rename_i hl hr
    cases hl; cases hr; cases h
    refine ⟨rfl, rfl, ?_⟩
    simp only [Meaning.compare, hid]
    rfl
  · cases h

theorem regular_of_searched? {display} (hp : display.Plain fr) (h : searched? display = some v) :
    ∃ w, display.literal? = some w ∧ v.Regular fr.sets ∧ ∀ item, Value.contains v item = Value.contains w item := by
  unfold searched? at h
  split at h
  · rename_i items _ hl
    cases h
    have hr := Expr.regular_of_literal display hp hl
    rw [Value.Regular] at hr
    exact ⟨_, hl, by rw [Value.Regular]; exact hr, fun item => rfl⟩
  · rename_i items _ hl
    cases h
    have hr := Expr.regular_of_literal display hp hl
    rw [Value.Regular] at hr
    refine ⟨_, hl, ?_, fun item => rfl⟩
    rw [Value.Regular, Value.allConstant_iff]
    exact fun w hw => Value.isConstant_of_isHashable _ w (Value.allRegular_iff.mp hr.2.1 w hw) (hr.2.2.1 w hw)
  · cases h

/-- What is folded evaluates alike, whatever the variables and the called functions are. -/
theorem Folded.folds (hp : e.Plain fr) (h : Folded limits e new) : Folds fr e new := by
  cases h with
  | @binary pos left right new op l r result hl hr hresult hnew =>
    rw [Expr.Plain] at hp
    have hc := Value.isConstant_binary (Expr.isConstant_of_constant left hp.1 hl)
      (Expr.isConstant_of_constant right hp.2 hr) hresult
    refine .of_literal (Value.regular_of_isConstant _ _ hc) (fun m env _ => ?_) hnew
    rw [Expr.eval, Expr.eval_of_constant m env hl, Expr.eval_of_constant m env hr]
    change m.result (Value.binary op l r) = _
    rw [hresult, Meaning.result_ok]
  | @unary pos operand new op v result hv hresult hnew =>
    refine .of_literal (Value.regular_of_isConstant _ _ (Value.isConstant_unary hresult)) (fun m env _ => ?_) hnew
    rw [Expr.eval, Expr.eval_of_constant m env hv]
    change m.result (Value.unary op v) = _
    rw [hresult, Meaning.result_ok]
  | negated hop =>
    rw [Expr.Plain] at hp
    obtain ⟨_, right, _, rfl, hparts⟩ := Expr.of_plain_compare hp
    exact folds_not_compare hparts hop
  | @item pos value index new container i result hvalue hindex hresult hnew =>
    rw [Expr.Plain] at hp
    have hreg := Expr.regular_of_literal value hp.1 hvalue
    refine .of_literal (Value.regular_subscript hreg hresult) (fun m env _ => ?_) hnew
    have hslice : index.isSlice = false := by
      obtain ⟨inner, kind⟩ := index
      cases kind with
      | slice => cases hindex
      | _ => rfl
    rw [Expr.eval_subscript, Expr.eval_of_literal m env value hvalue, Expr.index_of_not_slice m env hslice,
      Expr.eval_of_constant m env hindex]
    change m.result (Value.subscript container i) = _
    rw [hresult, Meaning.result_ok]
  | @slice pos inner value new lower upper step container result low high by' hvalue hl hu hs hresult hnew =>
    rw [Expr.Plain] at hp
    have hreg := Expr.regular_of_literal value hp.1 hvalue
    refine .of_literal (Value.regular_slice hreg hresult) (fun m env _ => ?_) hnew
    rw [Expr.eval_subscript, Expr.eval_of_literal m env value hvalue, index_slice m env hl hu hs]
    change m.result (Value.slice container low high by') = _
    rw [hresult, Meaning.result_ok]
  | @compared pos left right new op l r b hl hr hresult hnew =>
    refine .of_literal (by simp [Value.Regular]) (fun m env _ => ?_) hnew
    rw [Expr.eval, Expr.eval_of_literal m env left hl, Expr.eval_of_literal m env right hr]
    change (m.compare op l r).map Value.bool = _
    rw [compare_of_result m hresult]
    rfl
  | @identical pos left right new op b hsame hnew =>
    refine .of_literal (by simp [Value.Regular]) (fun m env hid => ?_) hnew
    obtain ⟨hl, hr, hcmp⟩ := compare_of_identity? m env hid hsame
    rw [Expr.eval, hl, hr]
    change (m.compare op .none .none).map Value.bool = _
    rw [hcmp]
    rfl
  | @searched pos left right new v hright hnew =>
    rw [Expr.Plain] at hp
    obtain ⟨w, hw, hreg, hsame⟩ := regular_of_searched? hp.2 hright
    refine ⟨?_, rfl, fun m env _ => ?_⟩
    · rw [Expr.Plain]
      exact ⟨hp.1, Expr.plain_literal? hreg hnew⟩
    · simp only [Expr.eval, Limits.eval_literal? m env hreg hnew, Expr.eval_of_literal m env right hw]
      cases left.eval m env with
      | error x => rfl
      | ok l =>
        change (m.result (Value.contains v l)).map Value.bool = (m.result (Value.contains w l)).map Value.bool
        rw [hsame]

end Folding

end Speculator
