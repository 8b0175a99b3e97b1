import Mathlib
import Speculator.Value.Equality

/-!
# Exact values of numbers

The number that an integer, a float or a complex number denotes.  Every finite float is a multiple of `2 ^ -1074`, so
that its value is an integer in this unit, and the parts of all numbers are compared in it.
-/

namespace Speculator

variable {α : Type} {s t : Scaled} {a b : Numeric}

def Agree {α : Type} (a b : Option α) : Prop := ∃ v, a = some v ∧ b = some v

theorem Agree.symm {a b : Option α} : Agree a b → Agree b a := fun ⟨v, ha, hb⟩ => ⟨v, hb, ha⟩

theorem Agree.trans {a b c : Option α} : Agree a b → Agree b c → Agree a c := by
  rintro ⟨v, ha, hb⟩ ⟨w, hb', hc⟩
  cases hb.symm.trans hb'
  exact ⟨v, ha, hc⟩

theorem agree_comm {a b : Option α} : Agree a b ↔ Agree b a := ⟨.symm, .symm⟩

@[simp]
theorem agree_some {a : Option α} {v : α} : Agree a (some v) ↔ a = some v := by simp [Agree]

@[simp]
theorem some_agree {a : Option α} {v : α} : Agree (some v) a ↔ some v = a := by simp [Agree, eq_comm]

@[simp]
theorem not_none_agree {a : Option α} : ¬Agree none a := by simp [Agree]

namespace Number

open Float.Model (UnpackedFloat)

/-! ### Finite floats -/

attribute [local simp] UnpackedFloat.compare

namespace Scaled

/-- The value in units of `2 ^ -1074`, for an exponent of at least `-1074`. -/
def units (s : Scaled) : Int := s.signed * 2 ^ (s.exp + 1074).toNat

/-- The forms of floats: the mantissa has 53 bits, unless the exponent is the least one. -/
structure Canonical (s : Scaled) : Prop where
  least : -1074 ≤ s.exp
  bounded : s.mant < 2 ^ 53
  normal : s.exp = -1074 ∨ 2 ^ 52 ≤ s.mant

theorem canonical_ofFloat (x : Float) : (ofFloat x).Canonical := by
  have hfraction : x.toBits.toNat % Nat.pow 2 52 < 2 ^ 52 := Nat.mod_lt _ (by decide)
  have hpow : Nat.pow 2 52 = 2 ^ 52 := rfl
  unfold ofFloat
  constructor
  · simp only
    omega
  · simp only [hpow] at hfraction ⊢
    split <;> omega
  · simp only
    split
    · left
      omega
    · right
      omega

theorem natAbs_units (s : Scaled) : s.units.natAbs = s.mant * 2 ^ (s.exp + 1074).toNat := by
  have hsigned : s.signed.natAbs = s.mant := by
    unfold signed
    split <;> simp
  rw [units, Int.natAbs_mul, hsigned, Int.natAbs_pow]
  rfl

theorem natAbs_units_lt (hs : s.Canonical) (ht : t.Canonical) (h : s.exp < t.exp) :
    s.units.natAbs < t.units.natAbs := by
  have hleast := hs.least
  have hnormal : 2 ^ 52 ≤ t.mant := by
    rcases ht.normal with hexp | hmant
    · omega
    · exact hmant
  obtain ⟨k, hk⟩ : ∃ k, (t.exp + 1074).toNat = (s.exp + 1074).toNat + 1 + k :=
    ⟨(t.exp + 1074).toNat - (s.exp + 1074).toNat - 1, by omega⟩
  rw [natAbs_units, natAbs_units, hk]
  calc s.mant * 2 ^ (s.exp + 1074).toNat
      < 2 ^ 53 * 2 ^ (s.exp + 1074).toNat := Nat.mul_lt_mul_of_pos_right hs.bounded (by positivity)
    _ = 2 ^ 52 * 2 ^ ((s.exp + 1074).toNat + 1) := by ring
    _ ≤ t.mant * 2 ^ ((s.exp + 1074).toNat + 1 + k) :=
        Nat.mul_le_mul hnormal (Nat.pow_le_pow_right (by decide) (by omega))

theorem units_inj (hs : s.Canonical) (ht : t.Canonical) :
    s.units = t.units ↔ s.mant = 0 ∧ t.mant = 0 ∨ s = t := by
  constructor
  · intro h
    have hexp : s.exp = t.exp := by
      rcases lt_trichotomy s.exp t.exp with hlt | heq | hgt
      · have := natAbs_units_lt hs ht hlt
        omega
      · exact heq
      · have := natAbs_units_lt ht hs hgt
        omega
    have hsigned : s.signed = t.signed := by
      rw [units, units, hexp] at h
      exact mul_right_cancel₀ (by positivity) h
    obtain ⟨negative, mant, exp⟩ := s
    obtain ⟨negative', mant', exp'⟩ := t
    simp only at hexp
    subst hexp
    cases negative <;> cases negative' <;> simp [signed] at hsigned ⊢ <;> omega
  · rintro (⟨hs, ht⟩ | rfl)
    · simp [units, signed, hs, ht]
    · rfl

def sign (s : Scaled) : UnpackedFloat.Sign := if s.negative then .negative else .positive

theorem eq_iff_fields : s = t ↔ s.sign = t.sign ∧ s.mant = t.mant ∧ s.exp = t.exp := by
  obtain ⟨negative, mant, exp⟩ := s
  obtain ⟨negative', mant', exp'⟩ := t
  cases negative <;> cases negative' <;> simp [sign]

/-- How a float is read: as a NaN, an infinity or a zero, or by its mantissa and its exponent. -/
inductive Form (s : Scaled) : UnpackedFloat → Prop
  | notANumber : s.Form .notANumber
  | infinity (sign : UnpackedFloat.Sign) : s.Form (.infinity sign)
  | zero (sign : UnpackedFloat.Sign) (hmant : s.mant = 0) : s.Form (.zero sign)
  | finite {m : Nat} {e : Int} (h : 0 < m) (hmant : s.mant = m) (hexp : s.exp = e) : s.Form (.finite s.sign m e h)

/-- The value in units of `2 ^ -1074`, or the sign of an infinity; a NaN has none. -/
def denoted? (s : Scaled) : UnpackedFloat → Option (UnpackedFloat.Sign ⊕ Int)
  | .notANumber => none
  | .infinity sign => some (.inl sign)
  | _ => some (.inr s.units)

theorem compare_forms {u w} (hs : s.Canonical) (ht : t.Canonical) (hu : s.Form u) (hw : t.Form w) :
    u.compare w = some .eq ↔ Agree (s.denoted? u) (t.denoted? w) := by
  have hunits := units_inj hs ht
  rw [eq_iff_fields] at hunits
  cases hu with
  | notANumber => simp [denoted?]
  | infinity sign =>
    cases hw with
    | infinity sign' => cases sign <;> cases sign' <;> simp [denoted?] <;> decide
    | _ => cases sign <;> simp [denoted?]
  | zero sign hs =>
    cases hw with
    | infinity sign' => cases sign' <;> simp [denoted?]
    | finite h ht _ => cases t.sign <;> simp [denoted?, hunits, hs, ht, h.ne, h.ne']
    | _ => simp_all [UnpackedFloat.compare, denoted?]
  | finite h hs hexp =>
    cases hw with
    | notANumber => simp [denoted?]
    | infinity sign' => cases s.sign <;> cases sign' <;> simp [denoted?]
    | zero sign' ht => cases s.sign <;> simp [denoted?, hunits, hs, ht, h.ne']
    | finite h' ht hexp' =>
      simp only [denoted?, some_agree, Option.some.injEq, Sum.inr.injEq, hunits]
      cases s.sign <;> cases t.sign <;>
        simp [Ordering.then_eq_eq, hs, ht, hexp, hexp', h.ne', and_comm]

end Scaled

/-! ### Floats -/

open Float.Model.UnpackedFloat in
theorem unpack_fields (x : Float) :
    (@unpackMantissa .binary64 x.toBits.toBitVec).toNat = x.toBits.toNat % Nat.pow 2 52 ∧
      (@unpackExponent .binary64 x.toBits.toBitVec).toNat = x.toBits.toNat / Nat.pow 2 52 % Nat.pow 2 11 ∧
      Sign.ofBitVec (@unpackSign .binary64 x.toBits.toBitVec) = (Scaled.ofFloat x).sign := by
  have hlt : x.toBits.toNat < 2 ^ 64 := x.toBits.toNat_lt
  refine ⟨?_, ?_, ?_⟩
  · simp [unpackMantissa, BitVec.extractLsb, BitVec.extractLsb']
  · simp [unpackExponent, BitVec.extractLsb, BitVec.extractLsb', Nat.shiftRight_eq_div_pow]
  · have hbit : @unpackSign .binary64 x.toBits.toBitVec = 0#1 ↔ x.toBits.toNat < 2 ^ 63 := by
      rw [← BitVec.toNat_inj]
      simp [unpackSign, BitVec.extractLsb, BitVec.extractLsb', Nat.shiftRight_eq_div_pow]
      omega
    have hpow : Nat.pow 2 63 = 2 ^ 63 := rfl
    simp only [Sign.ofBitVec, hbit, Scaled.sign, Scaled.ofFloat, signBit, hpow, decide_eq_true_eq]
    split <;> split <;> first | rfl | omega

theorem form_unpack (x : Float) : (Scaled.ofFloat x).Form x.toModel.unpack := by
  obtain ⟨hmant, hexp, hsign⟩ := unpack_fields x
  have hunpack : x.toModel.unpack = UnpackedFloat.unpack .binary64 x.toBits.toBitVec := rfl
  rw [hunpack, UnpackedFloat.unpack]
  simp only [hsign]
  split
  · split
    · exact .infinity _
    · exact .notANumber
  · split
    · rename_i hzero
      have hbiased : x.toBits.toNat / Nat.pow 2 52 % Nat.pow 2 11 = 0 := by
        rw [← hexp, hzero]
        rfl
      split
      · rename_i hfraction
        refine .zero _ ?_
        simp only [Scaled.ofFloat, hbiased, if_true]
        rw [← hmant, hfraction]
        rfl
      · have hm : (Scaled.ofFloat x).mant = (@UnpackedFloat.unpackMantissa .binary64 x.toBits.toBitVec).toNat := by
          simp only [Scaled.ofFloat, hbiased, if_true, hmant]
        have he : (Scaled.ofFloat x).exp = -1074 := by
          simp only [Scaled.ofFloat, hbiased]
          rfl
        refine .finite _ hm ?_
        rw [he, hexp, hbiased]
        rfl
    · rename_i hnonzero
      have hbiased : x.toBits.toNat / Nat.pow 2 52 % Nat.pow 2 11 ≠ 0 := by
        rw [← hexp]
        exact fun hzero => hnonzero (BitVec.eq_of_toNat_eq hzero)
      have hm : (Scaled.ofFloat x).mant =
          (1#1 ++ @UnpackedFloat.unpackMantissa .binary64 x.toBits.toBitVec).toNat := by
        rw [BitVec.toNat_append, ← Nat.shiftLeft_add_eq_or_of_lt (BitVec.isLt _), hmant]
        simp only [Scaled.ofFloat, hbiased, if_false]
        rfl
      have he : (Scaled.ofFloat x).exp =
          (@UnpackedFloat.unpackExponent .binary64 x.toBits.toBitVec).toNat - 1075 := by
        simp only [Scaled.ofFloat, hexp]
        omega
      exact .finite _ hm he

def denoted? (x : Float) : Option (UnpackedFloat.Sign ⊕ Int) := (Scaled.ofFloat x).denoted? x.toModel.unpack

theorem beq_iff (x y : Float) : (x == y) = true ↔ Agree (denoted? x) (denoted? y) := by
  have hbeq : (x == y) = (x.toModel.unpack.compare y.toModel.unpack == some .eq) := rfl
  rw [hbeq, beq_iff_eq]
  exact Scaled.compare_forms (Scaled.canonical_ofFloat x) (Scaled.canonical_ofFloat y) (form_unpack x) (form_unpack y)

theorem denoted?_zero : denoted? 0.0 = some (.inr 0) := by rfl

def one : Int := 2 ^ 1074

theorem one_ne_zero : one ≠ 0 := pow_ne_zero 1074 two_ne_zero

namespace Scaled

theorem num_mul (hs : s.Canonical) : s.num * one = s.units * s.den := by
  have hleast := hs.least
  have hexp : s.exp.toNat + 1074 = (s.exp + 1074).toNat + (-s.exp).toNat := by omega
  have hden : (s.den : Int) = 2 ^ (-s.exp).toNat := by simp [den]
  have hnum : s.num = s.signed * 2 ^ s.exp.toNat := by simp [num]
  rw [hnum, hden, units, one, mul_assoc, mul_assoc, ← pow_add, ← pow_add, hexp]

theorem floor_eq_iff (hs : s.Canonical) (n : Int) :
    n = s.floor ∧ s.isInteger = true ↔ s.units = n * one := by
  have hden : (0 : Int) < s.den := by simp [den]
  have hfraction : s.units = n * one ↔ s.num = n * s.den := by
    have hmul := num_mul hs
    constructor
    · intro h
      refine mul_right_cancel₀ one_ne_zero ?_
      rw [hmul, h, mul_right_comm]
    · intro h
      refine mul_right_cancel₀ hden.ne' ?_
      rw [← hmul, h, mul_right_comm]
  rw [hfraction, floor, isInteger, beq_iff_eq, Int.fdiv_eq_ediv_of_nonneg _ hden.le]
  constructor
  · rintro ⟨rfl, hmod⟩
    exact (Int.ediv_mul_cancel (Int.dvd_of_emod_eq_zero hmod)).symm
  · intro h
    rw [h]
    exact ⟨(Int.mul_ediv_cancel n hden.ne').symm, Int.mul_emod_left n s.den⟩

end Scaled

end Number

/-! ### Numbers -/

namespace Numeric

open Float.Model (UnpackedFloat)
open Number (one)

def re? : Numeric → Option (UnpackedFloat.Sign ⊕ Int)
  | .int n => some (.inr (n * one))
  | .float x => Number.denoted? x
  | .complex c => Number.denoted? c.re

def im? : Numeric → Option (UnpackedFloat.Sign ⊕ Int)
  | .complex c => Number.denoted? c.im
  | _ => some (.inr 0)

theorem compareIntFloat_eq_iff (n : Int) (x : Float) :
    compareIntFloat n x = some .eq ↔ Number.denoted? x = some (.inr (n * one)) := by
  have hnan : x.isNaN = x.toModel.unpack.isNaN := rfl
  have hinf : x.isInf = x.toModel.unpack.isInf := rfl
  have hfloor := Number.Scaled.floor_eq_iff (Number.Scaled.canonical_ofFloat x) n
  have hform := Number.form_unpack x
  unfold compareIntFloat Number.denoted?
  rw [hnan, hinf]
  generalize x.toModel.unpack = u at hform ⊢
  cases hform with
  | notANumber => simp [Number.Scaled.denoted?, UnpackedFloat.isNaN]
  | infinity sign =>
    simp only [Number.Scaled.denoted?, UnpackedFloat.isNaN, UnpackedFloat.isInf]
    split <;> simp
  | zero | finite =>
    simp only [Number.Scaled.denoted?, UnpackedFloat.isNaN, UnpackedFloat.isInf, Option.some.injEq,
      Sum.inr.injEq, ← hfloor]
    cases hcompare : compare n (Number.Scaled.ofFloat x).floor with
    | eq => simp [compare_eq_iff_eq.mp hcompare]
    | lt | gt =>
      have hne : n ≠ (Number.Scaled.ofFloat x).floor := fun heq => by simp [heq] at hcompare
      simp [hne]

theorem compareFloats_eq_iff (x y : Float) :
    compare? (.float x) (.float y) = some .eq ↔ Agree (Number.denoted? x) (Number.denoted? y) := by
  have hbeq : (x == y) = (x.toModel.unpack.compare y.toModel.unpack == some .eq) := rfl
  have hlt : x < y ↔ x.toModel.unpack.compare y.toModel.unpack = some .lt := by
    change decide (x.toModel.unpack.lt y.toModel.unpack) = true ↔ _
    simp [UnpackedFloat.lt]
  rw [← Number.beq_iff]
  simp only [compare?, hlt, hbeq, beq_iff_eq]
  cases x.toModel.unpack.compare y.toModel.unpack with
  | none => simp
  | some order => cases order <;> simp

/-- Two numbers are equal for a program if and only if they denote the same number. -/
theorem equals_iff : a.equals b = true ↔ Agree a.re? b.re? ∧ Agree a.im? b.im? := by
  have hints (m n : Int) : compare? (.int m) (.int n) = some .eq ↔ m * one = n * one := by
    rw [mul_left_inj' Number.one_ne_zero]
    simp [compare?]
  have hintFloat (n : Int) (x : Float) :
      compare? (.int n) (.float x) = some .eq ↔ Number.denoted? x = some (.inr (n * one)) :=
        compareIntFloat_eq_iff n x
  have hfloatInt (n : Int) (x : Float) :
      compare? (.float x) (.int n) = some .eq ↔ Number.denoted? x = some (.inr (n * one)) := by
    simp [compare?, ← compareIntFloat_eq_iff]
  cases a with
  | int m =>
    cases b with
    | int n => simp [equals, re?, im?, hints]
    | float y => simp [equals, re?, im?, hintFloat, @eq_comm _ (some _)]
    | complex d =>
      simp [equals, re?, im?, hfloatInt, Number.beq_iff, Number.denoted?_zero, and_comm, @eq_comm _ (some _)]
  | float x =>
    cases b with
    | int n => simp [equals, re?, im?, hfloatInt]
    | float y => simp [equals, re?, im?, compareFloats_eq_iff]
    | complex d =>
      simp [equals, re?, im?, compareFloats_eq_iff, Number.beq_iff, Number.denoted?_zero, and_comm, agree_comm]
  | complex c =>
    cases b with
    | int n => simp [equals, re?, im?, hfloatInt, Number.beq_iff, Number.denoted?_zero, and_comm]
    | float y => simp [equals, re?, im?, compareFloats_eq_iff, Number.beq_iff, Number.denoted?_zero, and_comm]
    | complex d => simp [equals, re?, im?, Number.ComplexFloat.equals, Number.beq_iff]

theorem equals_symm (h : a.equals b = true) : b.equals a = true := by
  rw [equals_iff] at h ⊢
  exact ⟨h.1.symm, h.2.symm⟩

theorem equals_trans {c} (h : a.equals b = true) (h' : b.equals c = true) : a.equals c = true := by
  rw [equals_iff] at h h' ⊢
  exact ⟨h.1.trans h'.1, h.2.trans h'.2⟩

end Numeric

end Speculator
