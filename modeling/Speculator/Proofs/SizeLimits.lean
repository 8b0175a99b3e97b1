import Mathlib.Data.Nat.Log
import Speculator.Proofs.StraightLine

/-!
# Size limits

An operation on constants is refused before it is evaluated if it would raise an exception or build a large value.  An
operation other than a quotient or a power is folded if and only if it has a value and the value is admitted
(`Folding.leaveExpr_exact`).
-/

namespace Speculator

/-! ### Lengths -/

theorem Number.bitLength_mul_two_pow {n : Int} (hn : n ≠ 0) (k : Nat) :
    bitLength (n * Nat.pow 2 k) = bitLength n + k := by
  have hpow : ∀ k, 0 < Nat.pow 2 k := fun k => Nat.two_pow_pos k
  have hlog : ∀ m : Nat, m ≠ 0 → (m * Nat.pow 2 k).log2 = m.log2 + k := by
    intro m hm
    induction k with
    | zero => simp
    | succ k ih =>
      change (m * (Nat.pow 2 k * 2)).log2 = _
      rw [← Nat.mul_assoc, Nat.log2_eq_log_two, Nat.log_mul_base (by decide) (Nat.mul_ne_zero hm (hpow k).ne'),
        ← Nat.log2_eq_log_two, ih, Nat.add_assoc]
  have habs : (n * Nat.pow 2 k).natAbs = n.natAbs * Nat.pow 2 k := by rw [Int.natAbs_mul]; rfl
  have hshifted : n * Nat.pow 2 k ≠ 0 := Int.mul_ne_zero hn (by exact_mod_cast (hpow k).ne')
  rw [bitLength, bitLength, if_neg hn, if_neg hshifted, habs, hlog _ (Int.natAbs_ne_zero.mpr hn)]
  omega

theorem Value.length_repeatList {α : Type} (count : Nat) (items : List α) :
    (repeatList count items).length = items.length * count := by
  cases items <;> simp [repeatList, Nat.mul_comm]

theorem mul_toNat_le_iff (length limit : Nat) (count : Int) :
    (length : Int) * count ≤ limit ↔ length * count.toNat ≤ limit := by
  rcases Int.le_total 0 count with hcount | hcount
  · obtain ⟨n, rfl⟩ := Int.eq_ofNat_of_zero_le hcount
    rw [Int.toNat_natCast]
    norm_cast
  · have hneg : (length : Int) * count ≤ 0 := Int.mul_nonpos_of_nonneg_of_nonpos (by omega) hcount
    rw [Int.toNat_of_nonpos hcount]
    omega

/-- Whether the number of bits, of characters, of bytes or of items is within its limit. -/
def Limits.spans (l : Limits) : Value → Bool
  | .int n => decide (Number.bitLength n ≤ l.maxIntBits)
  | .bytes b => decide (b.length ≤ l.maxBytesLen)
  | .str s => decide (s.length ≤ l.maxStrLen)
  | .tuple items => decide (items.length ≤ l.maxSeqLen)
  | _ => true

theorem Limits.spans_of_admits {l : Limits} {v : Value} (h : l.admits v = true) : l.spans v = true := by
  cases v with
  | tuple => simp_all [admits, spans, Value.isContainer, Value.length?]
  | int | bytes | str => exact h
  | _ => rfl

variable {limits : Limits} {op : BinaryOp} {a b v : Value}

/-! ### Operations with a value -/

theorem Value.binary_of_not_numbers (h : (a.isNumber && b.isNumber) = false) :
    Value.binary op a b = Value.binarySequence op a b := by
  cases a with
  | bool | int | float | complex =>
    cases b with
    | bool | int | float | complex => cases h
    | _ => rfl
  | _ => rfl

theorem Numeric.binary_cases {x y z} (h : Numeric.binary op x y = .ok z) :
    (∃ m n, x = .int m ∧ y = .int n ∧ Numeric.binaryInts op m n = .ok z) ∨
      op ∈ [BinaryOp.add, .sub, .mult, .div, .pow] ∨
      op ∈ [BinaryOp.floorDiv, .mod] ∧ x.isComplex = false ∧ y.isComplex = false ∧ y.isZero = false := by
  unfold Numeric.binary at h
  split at h
  · exact .inl ⟨_, _, rfl, rfl, h⟩
  right
  split at h
  · left
    split at h
    · obtain ⟨r, hr, rfl⟩ := map_eq_ok h
      cases op with
      | add | sub | mult | div | pow => simp
      | _ => cases hr
    · cases h
  · rename_i hcomplex
    obtain ⟨hx, hy⟩ := Bool.or_eq_false_iff.mp (Bool.eq_false_iff.mpr hcomplex)
    split at h
    · split at h
      · cases h
      · rename_i hzero
        obtain ⟨r, hr, rfl⟩ := map_eq_ok h
        cases op with
        | add | sub | mult | div | pow => simp
        | floorDiv | mod => exact .inr ⟨by simp, hx, hy, Bool.eq_false_iff.mpr hzero⟩
        | _ => cases hr
    · cases h

theorem Value.asNumeric_of_isNumber (h : a.isNumber = true) : ∃ x, a.asNumeric? = some x ∧ a.truthy = !x.isZero ∧
    Folding.isReal a = !x.isComplex ∧ a.isInt = a.asInt?.isSome ∧ ∀ n, x = .int n → a.asInt? = some n := by
  cases a with
  | bool b => cases b <;> exact ⟨_, rfl, rfl, rfl, rfl, fun n hn => by cases hn; rfl⟩
  | int m => exact ⟨_, rfl, rfl, rfl, rfl, fun n hn => by cases hn; rfl⟩
  | float | complex => exact ⟨_, rfl, by rfl, rfl, rfl, fun n hn => by cases hn⟩
  | _ => cases h

theorem Value.binary_numbers {x y} (ha : a.asNumeric? = some x) (hb : b.asNumeric? = some y)
    (h : Value.binary op a b = .ok v) : (op ∈ [BinaryOp.bitOr, .bitXor, .bitAnd] ∧ a.isInt = true ∧ b.isInt = true) ∨
      ∃ z, Numeric.binary op x y = .ok z ∧ v = z.toValue := by
  unfold Value.binary at h
  extract_lets bools at h
  rw [ha, hb] at h
  cases hbools : bools with
  | none =>
    rw [hbools] at h
    exact .inr (map_eq_ok h)
  | some r =>
    left
    cases a with
    | bool =>
      cases b with
      | bool =>
        refine ⟨?_, rfl, rfl⟩
        cases op with
        | bitOr | bitXor | bitAnd => simp
        | _ => simp [bools, Value.binaryBools?] at hbools
      | _ => simp [bools] at hbools
    | _ => simp [bools] at hbools

namespace Folding

/-! ### Predictions -/

theorem repeatFits_eq_spans {sequence count} {n : Int} (hn : count.asInt? = some n)
    (hlist : ∀ items, sequence ≠ .list items) (h : Value.repeatSequence sequence n = .ok v) :
    repeatFits? limits sequence count = some (limits.spans v) := by
  unfold Value.repeatSequence at h
  split at h
  · cases h
  cases sequence with
  | str | bytes | tuple =>
    cases h
    simp [repeatFits?, hn, Limits.spans, mul_toNat_le_iff, Value.length_repeatList, String.length_toList]
  | list items => exact absurd rfl (hlist items)
  | _ => cases h

theorem sequenceAllowed_eq_spans (hnumbers : (a.isNumber && b.isNumber) = false) (ha : ∀ items, a ≠ .list items)
    (hb : ∀ items, b ≠ .list items) (h : Value.binary op a b = .ok v) :
    binaryAllowed limits op a b = limits.spans v := by
  rw [Value.binary_of_not_numbers hnumbers] at h
  unfold binaryAllowed
  rw [hnumbers, if_neg Bool.false_ne_true]
  unfold Value.binarySequence at h
  split at h
  case h_1 | h_2 | h_3 =>
    cases h
    simp [Limits.spans]
  · exact absurd rfl (ha _)
  · dsimp only
    split at h
    · rename_i n hn
      rw [repeatFits_eq_spans hn ha h]
      rfl
    · rename_i n hright hn
      have hnone : repeatFits? limits a b = none := by
        unfold repeatFits?
        rw [hright]
      rw [hnone, repeatFits_eq_spans hn hb h]
      rfl
    · cases h
  · cases h

theorem isNegative_of_asInt {n : Int} (h : a.asInt? = some n) : isNegative a = decide (n < 0) := by
  cases a with
  | bool | int =>
    cases h
    rfl
  | _ => cases h

theorem shiftAllowed_eq_spans (ha : a.isNumber = true) (hb : b.isNumber = true)
    (h : Value.binary .lShift a b = .ok v) : numbersAllowed limits.maxIntBits .lShift a b = limits.spans v := by
  obtain ⟨x, hx, _, _, haint, hxint⟩ := Value.asNumeric_of_isNumber ha
  obtain ⟨y, hy, _, _, hbint, hyint⟩ := Value.asNumeric_of_isNumber hb
  rcases Value.binary_numbers hx hy h with ⟨hop, _⟩ | ⟨z, hz, rfl⟩
  · simp at hop
  rcases Numeric.binary_cases hz with ⟨m, n, rfl, rfl, hz⟩ | hop | hop
  · have hm := hxint m rfl
    have hn := hyint n rfl
    simp only [numbersAllowed, haint, hbint, hm, hn, shiftFits, isNegative_of_asInt hn, Option.isSome_some,
      Bool.and_self, Bool.true_and]
    change Numeric.shiftLeft m n = .ok z at hz
    unfold Numeric.shiftLeft at hz
    split at hz
    · cases hz
    rename_i hnonneg
    obtain ⟨k, rfl⟩ := Int.eq_ofNat_of_zero_le (Int.not_lt.mp hnonneg)
    split at hz
    · rename_i hzero
      cases hz
      simp [hzero, Numeric.toValue, Limits.spans, Number.bitLength]
    rename_i hzero
    split at hz
    · cases hz
    cases hz
    have hfalse : (m == 0) = false := beq_eq_false_iff_ne.mpr hzero
    simp only [Int.toNat_natCast, Numeric.toValue, Limits.spans, Number.bitLength_mul_two_pow hzero, hfalse]
    simp [hnonneg]
    norm_cast
  · simp at hop
  · simp at hop

theorem numbersAllowed_of_binary (ha : a.isNumber = true) (hb : b.isNumber = true)
    (hop : op ∉ [BinaryOp.lShift, .div, .pow]) (h : Value.binary op a b = .ok v) :
    numbersAllowed limits.maxIntBits op a b = true ∧ op ≠ .matMult := by
  obtain ⟨x, hx, _, hareal, haint, hxint⟩ := Value.asNumeric_of_isNumber ha
  obtain ⟨y, hy, htruthy, hbreal, hbint, hyint⟩ := Value.asNumeric_of_isNumber hb
  rcases Value.binary_numbers hx hy h with ⟨hbits, hints⟩ | ⟨z, hz, rfl⟩
  · cases op with
    | bitOr | bitXor | bitAnd => simp [numbersAllowed, hints]
    | _ => simp at hbits
  rcases Numeric.binary_cases hz with ⟨m, n, rfl, rfl, hz⟩ | harith | ⟨hdivides, hxc, hyc, hzero⟩
  · rw [hxint m rfl] at haint
    rw [hyint n rfl] at hbint
    cases op with
    | add | sub | mult => exact ⟨rfl, by decide⟩
    | bitOr | bitXor | bitAnd => simp [numbersAllowed, haint, hbint]
    | rShift =>
      have hnonneg : ¬ n < 0 := by
        intro hneg
        change Numeric.shiftRight m n = .ok z at hz
        rw [Numeric.shiftRight, if_pos hneg] at hz
        cases hz
      simp [numbersAllowed, haint, hbint, isNegative_of_asInt (hyint n rfl), hnonneg]
    | floorDiv | mod =>
      have hzero : n ≠ 0 := by
        rintro rfl
        cases hz
      simp [numbersAllowed, hareal, hbreal, htruthy, Numeric.isComplex, Numeric.isZero, hzero]
    | matMult => cases hz
    | lShift | div | pow => simp at hop
  · cases op with
    | add | sub | mult => exact ⟨rfl, by decide⟩
    | lShift | div | pow => simp at hop
    | _ => simp at harith
  · cases op with
    | floorDiv | mod => simp [numbersAllowed, hareal, hbreal, htruthy, hxc, hyc, hzero]
    | _ => simp at hdivides

/-- Whether the length of the result is predicted: that of a shift, a concatenation or a repetition. -/
def predicts (op : BinaryOp) (a b : Value) : Bool := op == .lShift || !(a.isNumber && b.isNumber)

section

variable (hdiv : op ≠ .div) (hpow : op ≠ .pow) (ha : ∀ items, a ≠ .list items) (hb : ∀ items, b ≠ .list items)
include hdiv hpow ha hb

/-- What is predicted of shifts, concatenations and repetitions is what holds of their results. -/
theorem binaryAllowed_eq (h : Value.binary op a b = .ok v) :
    binaryAllowed limits op a b = (!predicts op a b || limits.spans v) := by
  cases hnumbers : a.isNumber && b.isNumber with
  | false => simp [predicts, hnumbers, sequenceAllowed_eq_spans hnumbers ha hb h]
  | true =>
    obtain ⟨hleft, hright⟩ := Bool.and_eq_true_iff.mp hnumbers
    unfold binaryAllowed
    rw [hnumbers, if_pos rfl]
    by_cases hshift : op = .lShift
    · subst hshift
      simp [predicts, shiftAllowed_eq_spans hleft hright h]
    · have hop : op ∉ [BinaryOp.lShift, .div, .pow] := by simp [hshift, hdiv, hpow]
      simp [predicts, hshift, hnumbers, (numbersAllowed_of_binary hleft hright hop h).1]

theorem binary_eq_some (h : Value.binary op a b = .ok v) (hv : limits.admits v = true) :
    binary? limits op a b = some v := by
  have hallowed : binaryAllowed limits op a b = true := by
    rw [binaryAllowed_eq hdiv hpow ha hb h, Limits.spans_of_admits hv, Bool.or_true]
  have hevaluated : op ≠ .matMult ∧ (op = .mod → a.isNumber = true) := by
    cases hnumbers : a.isNumber && b.isNumber with
    | false =>
      rw [Value.binary_of_not_numbers hnumbers] at h
      constructor <;> rintro rfl <;> cases h
    | true =>
      obtain ⟨hleft, hright⟩ := Bool.and_eq_true_iff.mp hnumbers
      refine ⟨?_, fun _ => hleft⟩
      rintro rfl
      exact (@numbersAllowed_of_binary limits _ _ _ _ hleft hright (by decide) h).2 rfl
  unfold binary?
  rw [hallowed, h]
  simpa [Except.toOption] using hevaluated

theorem binary_bind_literal (limits : Limits) (pos : Position) :
    (binary? limits op a b).bind (limits.literal? · pos) =
      (Value.binary op a b).toOption.bind (limits.literal? · pos) := by
  cases h : Value.binary op a b with
  | error fault =>
    unfold binary?
    rw [h]
    split <;> rfl
  | ok v =>
    cases hv : limits.admits v with
    | true =>
      rw [binary_eq_some hdiv hpow ha hb h hv]
      rfl
    | false =>
      have hnone : limits.literal? v pos = none := by simp [Limits.literal?, hv]
      unfold binary?
      rw [h]
      split <;> simp [hnone, Except.toOption]

end

/-- An operation on constants other than a quotient or a power is folded if and only if it has a value and the value
is admitted.  The operation is then replaced by the literal of the value.  An operation with a value is refused before
it is evaluated only if it is a shift, a concatenation or a repetition and its length is beyond the limit.  It is
noted if the evaluation leaves the range of the machine. -/
theorem leaveExpr_exact {ctx : Context} (hfolding : ctx.config.constantFolding = true) (hdiv : op ≠ .div)
    (hpow : op ≠ .pow) (ha : ∀ items, a ≠ .list items) (hb : ∀ items, b ≠ .list items) (s : State)
    (pos lpos rpos : Position) :
    let e : Expr := ⟨pos, .binOp ⟨lpos, .const a⟩ op ⟨rpos, .const b⟩⟩
    let limits := ctx.config.limits
    (∃ step s', Pass.folding.leaveExpr e ctx s = .ok step s' ∧ (step = .keep ∨ ∃ new, step = .replace new) ∧
      (∀ new, step = .replace new ↔ ∃ v, Value.binary op a b = .ok v ∧ limits.admits v = true ∧ v.toExpr pos = new) ∧
      (.overrun ∈ s'.log ↔ .overrun ∈ s.log ∨
        binaryAllowed limits op a b = true ∧ Value.binaryOverruns op a b = true)) ∧
    ∀ v, Value.binary op a b = .ok v →
      (a.Regular true → b.Regular true → (v.toExpr pos).literal? = some v) ∧
      (binaryAllowed limits op a b = false ↔ predicts op a b = true ∧ limits.spans v = false) := by
  intro e limits
  constructor
  · obtain ⟨texts, hrun⟩ := @run_leaveExpr_operation e ctx s rfl
    have hfold : fold? limits e = (Value.binary op a b).toOption.bind (limits.literal? · pos) :=
      binary_bind_literal hdiv hpow ha hb limits pos
    rw [hfolding, if_pos rfl, hfold, Bool.true_and] at hrun
    refine ⟨_, _, hrun, ?_, fun new => ?_, ?_⟩
    · cases (Value.binary op a b).toOption.bind (limits.literal? · pos) with
      | none => exact .inl rfl
      | some new => exact .inr ⟨new, rfl⟩
    · cases Value.binary op a b with
      | error => simp [Except.toOption, ExprStep.ofOption]
      | ok v => cases hv : limits.admits v <;> simp [Except.toOption, Limits.literal?, hv, ExprStep.ofOption]
    · change _ ∈ _ ++ noted (binaryAllowed limits op a b && Value.binaryOverruns op a b) s.log ↔ _
      rw [← Bool.and_eq_true]
      by_cases hoverruns : (binaryAllowed limits op a b && Value.binaryOverruns op a b) = true
      · simp [noted, hoverruns]
      · simp [noted, hoverruns]
  · intro v h
    refine ⟨fun hl hr => v.literal?_toExpr true pos (Value.regular_binary hl hr h), ?_⟩
    rw [binaryAllowed_eq hdiv hpow ha hb h]
    simp

/-- One shifted by 255 bits has 256 bits, which are as many as the default limits admit.  One shifted by 256 bits is
not even evaluated. -/
theorem leaveExpr_exact_shift :
    let ctx : Context := ⟨{}, "m.py", [], .generic, false, []⟩
    let s : State := ⟨{ kind := .module, vars := {} }, {}, [], [], false⟩
    (∃ s', Pass.folding.leaveExpr ⟨{}, .binOp ⟨{}, .const (.int 1)⟩ .lShift ⟨{}, .const (.int 255)⟩⟩ ctx s =
      .ok (.replace ⟨{}, .const (.int (Nat.pow 2 255))⟩) s') ∧
    binaryAllowed {} .lShift (.int 1) (.int 256) = false := by
  intro ctx s
  have hwithin := @leaveExpr_exact .lShift (.int 1) (.int 255) ctx rfl (by decide) (by decide) (by simp) (by simp) s
    {} {} {}
  have hbeyond := @leaveExpr_exact .lShift (.int 1) (.int 256) ctx rfl (by decide) (by decide) (by simp) (by simp) s
    {} {} {}
  obtain ⟨step, s', hrun, _, hstep, _⟩ := hwithin.1
  constructor
  · have hreplace := (hstep ⟨{}, .const (.int (Nat.pow 2 255))⟩).mpr ⟨.int (Nat.pow 2 255), rfl, by decide, rfl⟩
    exact ⟨s', hreplace ▸ hrun⟩
  · exact (hbeyond.2 (.int (Nat.pow 2 256)) rfl).2.mpr ⟨rfl, by decide⟩

end Folding

end Speculator
