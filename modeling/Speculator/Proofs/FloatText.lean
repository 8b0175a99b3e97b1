import Mathlib
import Speculator.Number.Text
import Speculator.Proofs.Numerals

/-!
# The text of floats

A decimal is written as a numeral that denotes it, with the same digits and the given sign; and so the text of a
finite float is a numeral for the shortest decimal of the float (`floatText_denotes`).  The digits are cut around the
point in one of four ways, by the exponent and by their number, and zeros fill the places that are left between them
and the point (`Decimal.LaidOut`).
-/

namespace Speculator.Number

open List

/-! ### Decimal numerals -/

/-- A decimal numeral taken apart.  The exponent is written from its `e` on, and there is no point if the fraction is
empty. -/
structure DecimalParts where
  negative : Bool
  whole : List Char
  fraction : List Char
  exponent : List Char

namespace DecimalParts

def chars (p : DecimalParts) : List Char :=
  (if p.negative then ['-'] else []) ++ p.whole ++ (if p.fraction = [] then [] else '.' :: p.fraction) ++ p.exponent

/-- The number that is denoted, without its sign. -/
def Denotes (p : DecimalParts) (q : ℚ) : Prop :=
  ∃ e, readExponent p.exponent = some e ∧ q = decimalValue (p.whole ++ p.fraction) * 10 ^ (e - p.fraction.length)

end DecimalParts

private theorem decimalValue_append (front back : List Char) :
    decimalValue (front ++ back) = decimalValue front * 10 ^ back.length + decimalValue back := by
  unfold decimalValue
  rw [reverse_append, map_append, Nat.ofDigits_append, length_map, length_reverse]
  ring

private theorem decimalValue_zeros (k : Nat) : decimalValue (replicate k '0') = 0 := by
  induction k with
  | zero => rfl
  | succ k ih =>
    rw [replicate_succ', decimalValue_append, ih]
    rfl

private theorem head?_toDigits {n : Nat} (h : 0 < n) : (Nat.toDigits 10 n).head? ≠ some '0' := by
  induction n using Nat.strongRecOn with
  | ind n ih =>
    by_cases hn : n < 10
    · rw [Nat.toDigits_of_lt_base hn]
      interval_cases n <;> decide
    · rw [Nat.toDigits_of_base_le (by decide) (by omega), head?_append_of_ne_nil _ Nat.toDigits_ne_nil]
      exact ih (n / 10) (by omega) (by omega)

/-! ### Decimals as they are laid out -/

namespace Decimal

/-- The digits have no zero at either end, unless they stand for zero. -/
structure Canonical (d : Decimal) : Prop where
  nonempty : d.digits ≠ []
  digits : ∀ c ∈ d.digits, isDigit c = true
  ends : d = ⟨['0'], 0⟩ ∨ d.digits.head? ≠ some '0' ∧ d.digits.getLast? ≠ some '0'

/-- The number `d₁.d₂d₃… * 10 ^ exponent`. -/
def value (d : Decimal) : ℚ := decimalValue d.digits / 10 ^ (d.digits.length - 1) * 10 ^ d.exponent

/-- The exponent with its sign and at least two digits. -/
def exponentChars (e : Int) : List Char :=
  let digits := Nat.toDigits 10 e.natAbs
  'e' :: (if e < 0 then '-' else '+') :: (replicate (2 - digits.length) '0' ++ digits)

/-- The digits of the decimal stand in the numeral with zeros before and after them.  The zeros reach to the point,
where a single one stands on the other side; and there are none if the exponent is written. -/
structure LaidOut (d : Decimal) (p : DecimalParts) (before after : Nat) : Prop where
  digits : p.whole ++ p.fraction = replicate before '0' ++ d.digits ++ replicate after '0'
  zerosBefore : before = 0 ∨ p.whole = ['0']
  zerosAfter : after = 0 ∨ p.fraction = ['0']
  positional : p.exponent = [] ↔ -4 ≤ d.exponent ∧ d.exponent < 16
  point : p.exponent = [] → p.whole ≠ [] ∧ p.fraction ≠ []
  scientific : p.exponent ≠ [] → p.exponent = exponentChars d.exponent ∧ p.whole.length = 1 ∧ before = 0 ∧ after = 0

/-- The decimal is written so, and the point has its place. -/
structure Written (d : Decimal) (p : DecimalParts) (before after : Nat) : Prop extends d.LaidOut p before after where
  text : (layout true p.negative d).toList = p.chars
  place : ∃ e, readExponent p.exponent = some e ∧ e + after + d.digits.length = d.exponent + 1 + p.fraction.length

section Layout

attribute [local simp] DecimalParts.chars

variable {d : Decimal} (h : d.digits ≠ []) (negative : Bool)

private theorem readExponent_exponentChars (e : Int) : readExponent (exponentChars e) = some e := by
  have hdigits := all_eq_true.mp (numeral_toDigits e.natAbs).isDigits.2
  unfold exponentChars
  extract_lets digits
  have hall : (replicate (2 - digits.length) '0' ++ digits).all isDigit = true := by
    rw [all_append, Bool.and_eq_true, all_eq_true, all_eq_true]
    exact ⟨fun c hc => (mem_replicate.mp hc).2 ▸ rfl, hdigits⟩
  have hvalue : digitsValue (replicate (2 - digits.length) '0' ++ digits) = e.natAbs := by
    rw [digitsValue_eq, decimalValue_append, decimalValue_zeros, decimalValue_toDigits, zero_mul, zero_add]
  have hne : digits ≠ [] := Nat.toDigits_ne_nil
  split
  case isTrue hneg => simp [readExponent, splitSign, hall, hvalue, hne, abs_of_neg hneg]
  case isFalse hpos => simpa [readExponent, splitSign, hall, hvalue, hne] using hpos

include h

/-- The digits end before the point, and zeros fill the places up to it. -/
private theorem written_integer (hmin : 0 ≤ d.exponent) (hmax : d.exponent < 16)
    (hlength : d.digits.length ≤ d.exponent.toNat + 1) : d.Written
      ⟨negative, d.digits ++ replicate (d.exponent.toNat + 1 - d.digits.length) '0', ['0'], []⟩
      0 (d.exponent.toNat + 1 - d.digits.length + 1) where
  digits := by simp [replicate_succ']
  zerosBefore := .inl rfl
  zerosAfter := .inr rfl
  positional := iff_of_true rfl ⟨by omega, hmax⟩
  point := by simp [h]
  scientific := by simp
  text := by
    rw [layout, String.toList_ofList]
    cases negative <;>
      simp [hmin, hmax, show (-4 : Int) ≤ d.exponent by omega, take_of_length_le hlength, drop_of_length_le hlength]
  place := ⟨0, rfl, by rw [length_singleton]; omega⟩

/-- The point stands between two digits. -/
private theorem written_mixed (hmin : 0 ≤ d.exponent) (hmax : d.exponent < 16)
    (hlength : d.exponent.toNat + 1 < d.digits.length) : d.Written
      ⟨negative, d.digits.take (d.exponent.toNat + 1), d.digits.drop (d.exponent.toNat + 1), []⟩ 0 0 where
  digits := by simp
  zerosBefore := .inl rfl
  zerosAfter := .inl rfl
  positional := iff_of_true rfl ⟨by omega, hmax⟩
  point := by simp [h, hlength]
  scientific := by simp
  text := by
    rw [layout, String.toList_ofList]
    cases negative <;>
      simp [hmin, hmax, show (-4 : Int) ≤ d.exponent by omega, Nat.sub_eq_zero_of_le hlength.le, hlength.not_ge]
  place := ⟨0, rfl, by rw [length_drop]; omega⟩

/-- The digits begin after the point, and zeros fill the places from it. -/
private theorem written_fraction (hmin : -4 ≤ d.exponent) (hmax : d.exponent < 0) : d.Written
    ⟨negative, ['0'], replicate (-d.exponent - 1).toNat '0' ++ d.digits, []⟩ ((-d.exponent - 1).toNat + 1) 0 where
  digits := by simp [replicate_succ]
  zerosBefore := .inr rfl
  zerosAfter := .inl rfl
  positional := iff_of_true rfl ⟨hmin, by omega⟩
  point := by simp [h]
  scientific := by simp
  text := by
    rw [layout, String.toList_ofList]
    cases negative <;> simp [hmin, show d.exponent < 16 by omega, show ¬0 ≤ d.exponent by omega, h]
  place := ⟨0, rfl, by rw [length_append, length_replicate]; omega⟩

/-- One digit stands before the point, and the exponent is written. -/
private theorem written_scientific (hexp : ¬(-4 ≤ d.exponent ∧ d.exponent < 16)) :
    d.Written ⟨negative, d.digits.take 1, d.digits.tail, exponentChars d.exponent⟩ 0 0 where
  digits := by simp [← drop_one]
  zerosBefore := .inl rfl
  zerosAfter := .inl rfl
  positional := iff_of_false (by simp [exponentChars]) hexp
  point := by simp [exponentChars]
  scientific _ := ⟨rfl, by simp [Nat.succ_le_of_lt (length_pos_of_ne_nil h)], rfl, rfl⟩
  text := by
    rw [layout, String.toList_ofList]
    cases negative <;> simp [hexp, exponentChars]
  place := by
    have hlength := length_pos_of_ne_nil h
    exact ⟨d.exponent, readExponent_exponentChars _, by rw [length_tail]; omega⟩

private theorem exists_written : ∃ p before after, p.negative = negative ∧ d.Written p before after := by
  by_cases hexp : -4 ≤ d.exponent ∧ d.exponent < 16
  case neg => exact ⟨_, _, _, rfl, written_scientific h negative hexp⟩
  case pos =>
    by_cases hmin : 0 ≤ d.exponent
    case neg => exact ⟨_, _, _, rfl, written_fraction h negative hexp.1 (by omega)⟩
    case pos =>
      rcases le_or_gt d.digits.length (d.exponent.toNat + 1) with hlength | hlength
      · exact ⟨_, _, _, rfl, written_integer h negative hmin hexp.2 hlength⟩
      · exact ⟨_, _, _, rfl, written_mixed h negative hmin hexp.2 hlength⟩

omit h

theorem LaidOut.marked {p before after} (h : d.LaidOut p before after) : '.' ∈ p.chars ∨ 'e' ∈ p.chars := by
  by_cases hexp : p.exponent = []
  · simp [(h.point hexp).2]
  · simp [(h.scientific hexp).1, exponentChars]

private theorem Written.denotes {p before after} (hp : d.Written p before after) (h : d.digits ≠ []) :
    p.Denotes d.value := by
  obtain ⟨e, he, hplace⟩ := hp.place
  have hlength := length_pos_of_ne_nil h
  have hten : (10 : ℚ) ≠ 0 := by norm_num
  have hdigits : decimalValue (p.whole ++ p.fraction) = decimalValue d.digits * 10 ^ after := by
    rw [hp.digits, decimalValue_append, decimalValue_append, decimalValue_zeros, decimalValue_zeros, length_replicate,
      zero_mul, zero_add, add_zero]
  refine ⟨e, he, ?_⟩
  rw [value, hdigits, Nat.cast_mul, mul_assoc, div_mul_eq_mul_div, mul_div_assoc, Nat.cast_pow, Nat.cast_ofNat,
    ← zpow_natCast, ← zpow_natCast, ← zpow_add₀ hten, ← zpow_sub₀ hten]
  congr 2
  omega

end Layout

end Decimal

/-! ### Shortest decimals -/

namespace Interval

variable {i : Interval}

private theorem width_bounds {n : Nat} (h : 0 < n) : 10 ^ (width n - 1) ≤ n ∧ n < 10 ^ width n := by
  have hpos : 0 < width n := Nat.length_toDigits_pos
  refine ⟨?_, (Nat.length_toDigits_le_iff (by decide) hpos).mp le_rfl⟩
  by_contra hlt
  rcases Nat.eq_zero_or_pos (width n - 1) with hzero | hless
  · rw [hzero] at hlt
    omega
  · have := (Nat.length_toDigits_le_iff (by decide) hless).mpr (not_le.mp hlt)
    unfold width at *
    omega

/-- A unit that is not above the value. -/
def Reaches (i : Interval) (unit : Int) : Prop := (i.shift unit).den ≤ (i.shift unit).value

private theorem reaches_magnitude (hvalue : 0 < i.value) (hden : 0 < i.den) : i.Reaches i.magnitude := by
  unfold magnitude
  extract_lets guess
  split
  case isTrue h => exact h
  case isFalse =>
    obtain ⟨hlow, -⟩ := width_bounds hvalue
    obtain ⟨-, hhigh⟩ := width_bounds hden
    have hwidth : 0 < width i.value := Nat.length_toDigits_pos
    have hplaces : width i.den + (guess - 1).toNat = width i.value - 1 + (-(guess - 1)).toNat := by omega
    calc i.den * 10 ^ (guess - 1).toNat
        ≤ 10 ^ width i.den * 10 ^ (guess - 1).toNat := Nat.mul_le_mul_right _ hhigh.le
      _ = 10 ^ (width i.value - 1) * 10 ^ (-(guess - 1)).toNat := by rw [← pow_add, hplaces, pow_add]
      _ ≤ i.value * 10 ^ (-(guess - 1)).toNat := Nat.mul_le_mul_right _ hlow

private theorem Reaches.pred {unit : Int} (h : i.Reaches unit) : i.Reaches (unit - 1) :=
  calc i.den * 10 ^ (unit - 1).toNat
      ≤ i.den * 10 ^ unit.toNat := Nat.mul_le_mul_left _ (Nat.pow_le_pow_right (by decide) (by omega))
    _ ≤ i.value * 10 ^ (-unit).toNat := h
    _ ≤ i.value * 10 ^ (-(unit - 1)).toNat := Nat.mul_le_mul_left _ (Nat.pow_le_pow_right (by decide) (by omega))

private theorem integer?_pos (hden : 0 < i.den) (hle : i.den ≤ i.value) {n : Nat}
    (h : i.integer? = some n) : 0 < n := by
  have hdown : 0 < i.value / i.den := Nat.div_pos hle hden
  unfold integer? at h
  extract_lets down hitDown hitUp at h
  split at h
  · rw [← Option.some.inj h]
    split <;> omega
  · split at h
    · exact Option.some.inj h ▸ hdown
    · split at h
      · rw [← Option.some.inj h]
        omega
      · cases h

private theorem search_pos (hden : 0 < i.den) {unit : Int} (h : i.Reaches unit) (more : Nat) :
    0 < (i.search unit more).1 := by
  have hshift : ∀ unit, 0 < (i.shift unit).den := fun unit => Nat.mul_pos hden (Nat.pow_pos (by decide))
  induction more generalizing unit with
  | zero => exact Nat.div_pos h (hshift unit)
  | succ more ih =>
    rw [search]
    cases hn : (i.shift unit).integer? with
    | some n => exact integer?_pos (hshift unit) h hn
    | none => exact ih h.pred

end Interval

private theorem canonical_dropZeroEnd {n : Nat} (hn : 0 < n) (exponent : Int) :
    (Decimal.mk (dropZeroEnd (Nat.toDigits 10 n)) exponent).Canonical := by
  have hdigits := all_eq_true.mp (numeral_toDigits n).isDigits.2
  have hhead := head?_toDigits hn
  -- the first digit is not a zero, so it is kept
  have hkept : rdropWhile (· == '0') (Nat.toDigits 10 n) ≠ [] := by
    obtain ⟨c, digits, heq⟩ := exists_cons_of_ne_nil (Nat.toDigits_ne_nil (b := 10) (n := n))
    rw [Ne, rdropWhile_eq_nil_iff, heq]
    intro hzeros
    rw [heq, head?_cons, beq_iff_eq.mp (hzeros c mem_cons_self)] at hhead
    exact hhead rfl
  have hdrop : dropZeroEnd (Nat.toDigits 10 n) = rdropWhile (· == '0') (Nat.toDigits 10 n) := by
    unfold dropZeroEnd
    split
    · contradiction
    · rfl
  obtain ⟨zeros, hzeros⟩ := rdropWhile_prefix (· == '0') (Nat.toDigits 10 n)
  rw [hdrop]
  refine ⟨hkept, fun c hc => hdigits c ?_, .inr ⟨?_, fun hlast => ?_⟩⟩
  · rw [← hzeros]
    exact mem_append_left zeros hc
  · rwa [← head?_append_of_ne_nil _ hkept, hzeros]
  · rw [getLast?_eq_some_getLast hkept] at hlast
    exact rdropWhile_last_not _ _ hkept (by simp [Option.some.inj hlast])

private theorem canonical_shortest (x : Float) : (shortest x).Canonical := by
  unfold shortest
  extract_lets s
  split
  case isTrue => exact ⟨by simp, forall_mem_singleton.mpr rfl, .inl rfl⟩
  case isFalse hmant =>
    have hvalue : 0 < (Interval.around s).value :=
      Nat.mul_pos (Nat.mul_pos (by decide) (Nat.pos_of_ne_zero hmant)) (Nat.pow_pos (by decide))
    have hden : 0 < (Interval.around s).den := Nat.pow_pos (by decide)
    exact canonical_dropZeroEnd (Interval.search_pos hden (Interval.reaches_magnitude hvalue hden) 17) _

/-! ### Texts of finite floats -/

private theorem floatText_of_isFinite {x : Float} (h : x.isFinite = true) (point : Bool) :
    floatText point x = layout point (signBit x) (shortest x) := by
  have hread : x.isNaN = false ∧ x.isInf = false := by
    change x.toModel.unpack.isNaN = false ∧ x.toModel.unpack.isInf = false
    change x.toModel.unpack.isFinite = true at h
    cases hx : x.toModel.unpack with
    | notANumber | infinity =>
      rw [hx] at h
      cases h
    | zero | finite => exact ⟨rfl, rfl⟩
  rw [floatText, hread.1, hread.2]
  rfl

/-- Whatever the digits and the exponent of a decimal are, it is written as a numeral that denotes it, with the sign.
The numeral has no exponent if and only if that of the decimal is from -4 to 15; it has a point or an exponent; and it
has no digits but those of the decimal and the zeros that are needed.  The text of a finite float is the numeral of
its shortest decimal. -/
theorem floatText_denotes :
    (∀ d : Decimal, d.Canonical → ∀ negative, ∃ (p : DecimalParts) (before after : Nat),
      (layout true negative d).toList = p.chars ∧ p.negative = negative ∧ p.Denotes d.value ∧
        ('.' ∈ p.chars ∨ 'e' ∈ p.chars) ∧ d.LaidOut p before after) ∧
    ∀ x : Float, x.isFinite = true →
      (shortest x).Canonical ∧ floatText true x = layout true (signBit x) (shortest x) := by
  refine ⟨fun d hd negative => ?_, fun x hx => ⟨canonical_shortest x, floatText_of_isFinite hx true⟩⟩
  obtain ⟨p, before, after, rfl, hp⟩ := Decimal.exists_written hd.nonempty negative
  exact ⟨p, before, after, hp.text, rfl, hp.denotes hd.nonempty, hp.toLaidOut.marked, hp.toLaidOut⟩

/-- Here the digits `15` are written with an exponent. -/
theorem floatText_denotes_small : let x : Float := -1.5e-5
    x.isFinite = true ∧ (shortest x).Canonical ∧
      ∃ (p : DecimalParts) (before after : Nat), (floatText true x).toList = p.chars ∧ p.negative = signBit x ∧
        p.Denotes (shortest x).value ∧ ('.' ∈ p.chars ∨ 'e' ∈ p.chars) ∧ (shortest x).LaidOut p before after := by
  intro x
  have hx : x.isFinite = true := by decide +kernel
  obtain ⟨hcanonical, htext⟩ := floatText_denotes.2 x hx
  rw [htext]
  exact ⟨hx, hcanonical, floatText_denotes.1 (shortest x) hcanonical (signBit x)⟩

/-- Two decimals with 17 digits are equally near, and the greater one is written. -/
example : floatText true 1125899906842624.25 = "1125899906842624.3" := by decide +kernel

end Speculator.Number
