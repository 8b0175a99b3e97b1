import Speculator.Proofs.Literals

/-!
# Plain expressions

The expressions whose evaluation is described: literals, certain variables, displays, unary and binary operators,
single comparisons, items and slices, conditional expressions, junctions, and positional calls of certain names.  The
literals that take the places of such expressions are again of this kind, because the operations on regular values
give regular values.
-/

namespace Speculator

open List

/-! ### Values of operations -/

namespace Value

theorem mem_repeatList {α : Type} {count : Nat} {items : List α} {a : α} (h : a ∈ repeatList count items) :
    a ∈ items := by
  unfold repeatList at h
  split at h
  · cases h
  obtain ⟨l, hl, ha⟩ := mem_flatten.mp h
  rw [eq_of_mem_replicate hl] at ha
  exact ha

theorem isContainer_toValue (n : Numeric) : n.toValue.isContainer = false := by
  cases n <;> rfl

/-- `v` has no parts, or is a sequence of the type of an operand whose parts are parts of the operands. -/
def Recombines (left right v : Value) : Prop :=
  v.isContainer = false ∨
  (∃ items, v = .tuple items ∧ ∀ w ∈ items, ∃ parts, (left = .tuple parts ∨ right = .tuple parts) ∧ w ∈ parts) ∨
  ∃ items, v = .list items ∧ (∃ parts, left = .list parts ∨ right = .list parts) ∧
    ∀ w ∈ items, ∃ parts, (left = .list parts ∨ right = .list parts) ∧ w ∈ parts

variable {left right v : Value} {op : BinaryOp}

theorem Recombines.symm (h : Recombines left right v) : Recombines right left v := by
  rcases h with h | ⟨items, hv, hitems⟩ | ⟨items, hv, ⟨parts, hparts⟩, hitems⟩
  · exact .inl h
  · refine .inr (.inl ⟨items, hv, fun w hw => ?_⟩)
    obtain ⟨parts, hparts, hw⟩ := hitems w hw
    exact ⟨parts, hparts.symm, hw⟩
  · refine .inr (.inr ⟨items, hv, ⟨parts, hparts.symm⟩, fun w hw => ?_⟩)
    obtain ⟨parts, hparts, hw⟩ := hitems w hw
    exact ⟨parts, hparts.symm, hw⟩

variable {sequence : Value} {lower upper step : Option Int}

theorem recombines_repeatSequence {other} {count : Int} (h : repeatSequence sequence count = .ok v) :
    Recombines sequence other v := by
  unfold repeatSequence at h
  split at h
  · cases h
  extract_lets n at h
  split at h <;> cases h
  case h_1 | h_2 => exact .inl rfl
  case h_3 items => exact .inr (.inl ⟨_, rfl, fun w hw => ⟨items, .inl rfl, mem_repeatList hw⟩⟩)
  case h_4 items =>
    exact .inr (.inr ⟨_, rfl, ⟨items, .inl rfl⟩, fun w hw => ⟨items, .inl rfl, mem_repeatList hw⟩⟩)

theorem recombines_binarySequence (h : binarySequence op left right = .ok v) : Recombines left right v := by
  have hparts : ∀ {a b} {sequence : List Value → Value}, ∀ w ∈ a ++ b,
      ∃ parts, (sequence a = sequence parts ∨ sequence b = sequence parts) ∧ w ∈ parts := fun w hw =>
    (mem_append.mp hw).elim (fun hw => ⟨_, .inl rfl, hw⟩) fun hw => ⟨_, .inr rfl, hw⟩
  unfold binarySequence at h
  split at h
  case h_5 =>
    split at h
    · exact recombines_repeatSequence h
    · exact (recombines_repeatSequence h).symm
    · cases h
  all_goals cases h
  case h_1 | h_2 => exact .inl rfl
  case h_3 => exact .inr (.inl ⟨_, rfl, hparts⟩)
  case h_4 => exact .inr (.inr ⟨_, rfl, ⟨_, .inl rfl⟩, hparts⟩)

theorem recombines_binary (h : binary op left right = .ok v) : Recombines left right v := by
  unfold binary at h
  extract_lets bools at h
  split at h
  · cases h
    exact .inl rfl
  · obtain ⟨n, _, rfl⟩ := map_eq_ok h
    exact .inl (isContainer_toValue n)
  · exact recombines_binarySequence h

theorem isConstant_of_not_container (h : v.isContainer = false) : v.isConstant = true := by
  cases v with
  | tuple | frozenSet | list | set | dict => cases h
  | _ => rfl

theorem isConstant_binary (hl : left.isConstant = true) (hr : right.isConstant = true)
    (h : binary op left right = .ok v) : v.isConstant = true := by
  have hparts : ∀ parts, (left = .tuple parts ∨ right = .tuple parts) → ∀ w ∈ parts, w.isConstant = true := by
    rintro parts (rfl | rfl)
    · rw [isConstant] at hl
      exact allConstant_iff.mp hl
    · rw [isConstant] at hr
      exact allConstant_iff.mp hr
  rcases recombines_binary h with hv | ⟨items, rfl, hitems⟩ | ⟨_, _, ⟨parts, rfl | rfl⟩, _⟩
  · exact isConstant_of_not_container hv
  · rw [isConstant, allConstant_iff]
    intro w hw
    obtain ⟨parts, hfrom, hw⟩ := hitems w hw
    exact hparts parts hfrom w hw
  · cases hl
  · cases hr

theorem isConstant_unary {op operand} (h : unary op operand = .ok v) : v.isConstant = true := by
  unfold unary at h
  split at h <;> cases h
  case h_6 => exact isConstant_of_not_container (isContainer_toValue _)
  all_goals rfl

theorem mem_of_itemAt {α : Type} {items : List α} {index : Int} {a : α} (h : itemAt items index = .ok a) :
    a ∈ items := by
  unfold itemAt at h
  extract_lets position at h
  split at h
  · cases h
  · split at h
    · rename_i hget
      cases h
      exact mem_of_getElem? hget
    · cases h

theorem mem_of_sliceList {α : Type} {items result : List α} (h : sliceList items lower upper step = .ok result) :
    ∀ a ∈ result, a ∈ items := by
  unfold sliceList at h
  obtain ⟨walk, _, rfl⟩ := map_eq_ok h
  intro a ha
  obtain ⟨i, _, hi⟩ := mem_filterMap.mp ha
  rw [getElem?_toArray] at hi
  exact mem_of_getElem? hi

variable {sets : Bool}

theorem regular_binary (hl : left.Regular sets) (hr : right.Regular sets) (h : binary op left right = .ok v) :
    v.Regular sets := by
  rcases recombines_binary h with hv | ⟨items, rfl, hitems⟩ | ⟨items, rfl, _, hitems⟩
  · exact regular_of_isConstant sets v (isConstant_of_not_container hv)
  all_goals
    rw [Regular, allRegular_iff]
    intro w hw
    obtain ⟨parts, rfl | rfl, hw⟩ := hitems w hw
    · rw [Regular] at hl
      exact allRegular_iff.mp hl w hw
    · rw [Regular] at hr
      exact allRegular_iff.mp hr w hw

theorem regular_subscript {container index} (hc : container.Regular sets)
    (h : subscript container index = .ok v) : v.Regular sets := by
  unfold subscript at h
  split at h
  · rename_i pairs
    rw [Regular] at hc
    split at h
    · split at h
      · rename_i p hp
        cases h
        exact (pairsRegular_iff.mp hc.2.1 p (mem_of_find?_eq_some hp)).2
      · cases h
    · cases h
  · split at h
    · cases h
    · split at h
      case h_1 | h_2 =>
        obtain ⟨_, _, rfl⟩ := map_eq_ok h
        simp [Regular]
      case h_3 | h_4 =>
        rw [Regular] at hc
        exact allRegular_iff.mp hc v (mem_of_itemAt h)
      case h_5 => cases h

theorem regular_slice (hs : sequence.Regular sets) (h : slice sequence lower upper step = .ok v) :
    v.Regular sets := by
  unfold slice at h
  split at h
  case h_5 => cases h
  all_goals obtain ⟨r, hr, rfl⟩ := map_eq_ok h
  case h_1 | h_2 => simp [Regular]
  case h_3 | h_4 =>
    rw [Regular, allRegular_iff] at hs ⊢
    exact fun a ha => hs a (mem_of_sliceList hr a ha)

end Value

/-! ### Plain expressions -/

/-- The expressions that are allowed. -/
structure Fragment where
  /-- The names that may be read. -/
  reads : Ident → Prop
  /-- The names that may be called. -/
  calls : Ident → Prop
  /-- Whether there may be displays of sets and dictionaries. -/
  sets : Bool

mutual

def Expr.Plain (fr : Fragment) : Expr → Prop
  | ⟨_, .const v⟩ => v.isConstant = true
  | ⟨_, .name id⟩ => fr.reads id
  | ⟨_, .binOp left _ right⟩ => left.Plain fr ∧ right.Plain fr
  | ⟨_, .unaryOp _ operand⟩ => operand.Plain fr
  | ⟨_, .tuple items⟩ | ⟨_, .list items⟩ | ⟨_, .boolOp _ items⟩ => Expr.AllPlain fr items
  | ⟨_, .ifExp test body orelse⟩ => test.Plain fr ∧ body.Plain fr ∧ orelse.Plain fr
  | ⟨_, .set items⟩ => fr.sets = true ∧ Expr.AllPlain fr items
  | ⟨_, .dict keys values⟩ => fr.sets = true ∧ Expr.AllPlain fr keys ∧ Expr.AllPlain fr values
  | ⟨_, .compare left [_] [right]⟩ => left.Plain fr ∧ right.Plain fr
  | ⟨_, .subscript value index⟩ => value.Plain fr ∧ index.Plain fr
  | ⟨_, .slice lower upper step⟩ =>
    Expr.PlainOption fr lower ∧ Expr.PlainOption fr upper ∧ Expr.PlainOption fr step
  | ⟨_, .call ⟨_, .name id⟩ args []⟩ => fr.calls id ∧ Expr.AllPlain fr args
  | _ => False

def Expr.AllPlain (fr : Fragment) : List Expr → Prop
  | [] => True
  | e :: es => e.Plain fr ∧ Expr.AllPlain fr es

def Expr.PlainOption (fr : Fragment) : Option Expr → Prop
  | none => True
  | some e => e.Plain fr

end

variable {fr : Fragment}

namespace Expr

variable {es : List Expr} {vs : List Value}

attribute [local simp] Plain AllPlain

theorem allPlain_iff : AllPlain fr es ↔ ∀ e ∈ es, e.Plain fr := by
  induction es with
  | nil => simp
  | cons e es ih => simp [ih]

variable {pos : Position} {v : Value}

theorem of_plain_compare {left ops comparators} (hp : (⟨pos, .compare left ops comparators⟩ : Expr).Plain fr) :
    ∃ op right, ops = [op] ∧ comparators = [right] ∧ left.Plain fr ∧ right.Plain fr := by
  match ops, comparators, hp with
  | [op], [right], hp =>
    rw [Plain] at hp
    exact ⟨op, right, rfl, rfl, hp⟩
  | [], _, hp | _ :: _ :: _, _, hp | [_], [], hp | [_], _ :: _ :: _, hp => simp at hp

theorem of_plain_call {func args keywords} (hp : (⟨pos, .call func args keywords⟩ : Expr).Plain fr) :
    ∃ at' id, func = ⟨at', .name id⟩ ∧ keywords = [] ∧ fr.calls id ∧ AllPlain fr args := by
  obtain ⟨at', kind⟩ := func
  cases kind with
  | name id =>
    cases keywords with
    | nil =>
      rw [Plain] at hp
      exact ⟨at', id, rfl, rfl, hp⟩
    | cons => simp at hp
  | _ => simp at hp

theorem plain_displays (pos : Position) : Value.DisplayRules pos fun v e => v.Regular fr.sets → e.Plain fr := by
  have hitems : ∀ {vs : List Value} {es}, Forall₂ (fun v e => v.Regular fr.sets → Plain fr e) vs es →
      (∀ v ∈ vs, v.Regular fr.sets) → AllPlain fr es := fun h hvs => allPlain_iff.mpr fun e he =>
    (exists_of_forall₂ (forall₂_of_mem hvs h) he).choose_spec.2
  refine ⟨fun hv _ => ?_, fun h hv => ?tuple, fun hconstant _ hv => ?_, fun h hv => ?list, fun h hv => ?_,
    fun hkeys hvalues hv => ?_⟩
  case tuple | list =>
    rw [Value.Regular] at hv
    rw [Plain]
    exact hitems h (Value.allRegular_iff.mp hv)
  · rw [Plain]
    exact hv
  · rw [Value.Regular] at hv
    rw [Value.isConstant, hv] at hconstant
    cases hconstant
  · rw [Value.Regular] at hv
    rw [Plain]
    exact ⟨hv.1, hitems h (Value.allRegular_iff.mp hv.2.1)⟩
  · rw [Value.Regular] at hv
    have hpairs := Value.pairsRegular_iff.mp hv.2.1
    rw [Plain]
    exact ⟨hv.1, hitems (forall₂_map_left_iff.mpr hkeys) (forall_mem_map.mpr fun p hp => (hpairs p hp).1),
      hitems (forall₂_map_left_iff.mpr hvalues) (forall_mem_map.mpr fun p hp => (hpairs p hp).2)⟩

theorem plain_toExpr (pos : Position) (v : Value) (hv : v.Regular fr.sets) : (v.toExpr pos).Plain fr :=
  (plain_displays pos).holds v hv

theorem plain_literal? {limits : Limits} {e : Expr} (hv : v.Regular fr.sets) (h : limits.literal? v pos = some e) :
    e.Plain fr := by
  rw [Limits.eq_toExpr_of_literal? h]
  exact plain_toExpr pos v hv

theorem allRegular_of_forall₂ (hp : AllPlain fr es) (h : Forall₂ (fun e v => e.Plain fr → v.Regular fr.sets) es vs) :
    Value.AllRegular fr.sets vs := by
  refine Value.allRegular_iff.mpr fun v hv => ?_
  obtain ⟨e, he, h⟩ := exists_of_forall₂ h hv
  exact h (allPlain_iff.mp hp e he)

theorem regular_literals : LiteralRules fun e v => e.Plain fr → v.Regular fr.sets where
  const _ v hp := by
    rw [Plain] at hp
    exact Value.regular_of_isConstant _ v hp
  minus _ hw _ := Value.regular_of_isConstant _ _ (Value.isConstant_unary hw)
  tuple hitems hp := by
    rw [Plain] at hp
    rw [Value.Regular]
    exact allRegular_of_forall₂ hp hitems
  list hitems hp := by
    rw [Plain] at hp
    rw [Value.Regular]
    exact allRegular_of_forall₂ hp hitems
  set hitems hcollected hp := by
    rw [Plain] at hp
    obtain ⟨hd, hmem⟩ := Value.collectSet_ok hcollected
    have hr := Value.allRegular_iff.mp (allRegular_of_forall₂ hp.2 hitems)
    rw [Value.Regular]
    exact ⟨hp.1, Value.allRegular_iff.mpr fun w hw => hr w (hmem w hw), hd⟩
  dict {_ _ _ ks vs _} hkeys hvalues hentries hp := by
    rw [Plain] at hp
    have hkr := Value.allRegular_iff.mp (allRegular_of_forall₂ hp.2.1 hkeys)
    have hvr := Value.allRegular_iff.mp (allRegular_of_forall₂ hp.2.2 hvalues)
    have hps : Value.PairsRegular fr.sets (ks.zip vs) :=
      Value.pairsRegular_iff.mpr fun p hp => ⟨hkr p.1 (of_mem_zip hp).1, hvr p.2 (of_mem_zip hp).2⟩
    obtain ⟨hd, hr⟩ := Value.collectDict_ok hps hentries
    rw [Value.Regular]
    exact ⟨hp.1, hr, hd⟩

theorem regular_of_literal (e : Expr) (hp : e.Plain fr) (h : e.literal? = some v) : v.Regular fr.sets :=
  regular_literals.holds e h hp

theorem allRegular_of_literals (es : List Expr) (hp : AllPlain fr es) (h : literals? es = some vs) :
    Value.AllRegular fr.sets vs :=
  allRegular_of_forall₂ hp (regular_literals.holds_items es h)

theorem isConstant_constants : ConstantRules fun e v => e.Plain fr → v.isConstant = true where
  const _ v hp := by
    rw [Plain] at hp
    exact hp
  minus _ hw _ := Value.isConstant_unary hw
  tuple hitems hp := by
    rw [Plain] at hp
    rw [Value.isConstant, Value.allConstant_iff]
    intro v hv
    obtain ⟨e, he, h⟩ := exists_of_forall₂ hitems hv
    exact h (allPlain_iff.mp hp e he)

theorem isConstant_of_constant (e : Expr) (hp : e.Plain fr) (h : e.constant? = some v) : v.isConstant = true :=
  isConstant_constants.holds e h hp

end Expr

end Speculator
