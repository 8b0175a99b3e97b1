import Mathlib
import Speculator.Proofs.Catalog

/-!
# Rounding integers

An integer is rounded to the nearest multiple of a power of ten, and to the even multiple when two are equally near
(`Number.NearestMultiple`).  A multiple within half a unit of the integer is a nearest one, so it is enough to bound
the error: by the remainder of the division, or by the integer itself where the power is so large that the result is
zero.
-/

namespace Speculator

namespace Number

/-- The multiple of `unit` nearest to `n`; when another one is as near, it is an even multiple. -/
def NearestMultiple (n unit m : Int) : Prop :=
  ∃ k, m = k * unit ∧ (∀ j, |n - k * unit| ≤ |n - j * unit|) ∧
    ∀ j, j ≠ k → |n - j * unit| = |n - k * unit| → Even k

variable {n k unit : Int}

private theorem unit_le_of_ne (hunit : 0 < unit) {j : Int} (hj : j ≠ k) : unit ≤ |n - k * unit| + |n - j * unit| := by
  have hapart : 1 ≤ |j - k| := Int.one_le_abs (sub_ne_zero.mpr hj)
  calc unit ≤ |j - k| * unit := le_mul_of_one_le_left hunit.le hapart
    _ = |(n - k * unit) - (n - j * unit)| := by
        rw [← abs_of_pos hunit, ← abs_mul, abs_of_pos hunit]
        congr 1
        ring
    _ ≤ |n - k * unit| + |n - j * unit| := abs_sub _ _

private theorem nearestMultiple_of_error (hunit : 0 < unit) (herror : 2 * |n - k * unit| ≤ unit)
    (htie : 2 * |n - k * unit| = unit → Even k) : NearestMultiple n unit (k * unit) := by
  refine ⟨k, rfl, fun j => ?_, fun j hj heq => htie ?_⟩
  · by_cases hj : j = k
    · rw [hj]
    · have := unit_le_of_ne (n := n) hunit hj
      omega
  · have := unit_le_of_ne (n := n) hunit hj
    omega

private theorem nearestMultiple_roundDiv (n : Int) {d : Nat} (hd : 0 < d) :
    NearestMultiple n d (roundDiv n d * d) := by
  have hunit : (0 : Int) < d := Int.natCast_pos.mpr hd
  have hdiv : n = Int.fdiv n d * d + Int.fmod n d := by
    rw [mul_comm]
    exact (Int.mul_fdiv_add_fmod n d).symm
  have hnonneg := Int.fmod_nonneg_of_pos n hunit
  have hlt := Int.fmod_lt_of_pos n hunit
  -- the error is the remainder, or what it lacks of a whole unit
  have hdown : n - Int.fdiv n d * d = Int.fmod n d := by omega
  have hup : n - (Int.fdiv n d + 1) * d = Int.fmod n d - d := by
    rw [add_mul]
    omega
  unfold roundDiv
  simp only [Bool.or_eq_true, decide_eq_true_eq, Bool.and_eq_true, beq_iff_eq, bne_iff_ne]
  split
  case isTrue h =>
    refine nearestMultiple_of_error hunit ?_ fun htie => ?_
    · rw [hup, abs_of_neg (by omega)]
      omega
    · rw [hup, abs_of_neg (by omega)] at htie
      rw [Int.even_iff]
      omega
  case isFalse h =>
    refine nearestMultiple_of_error hunit ?_ fun htie => ?_
    · rw [hdown, abs_of_nonneg hnonneg]
      omega
    · rw [hdown, abs_of_nonneg hnonneg] at htie
      rw [Int.even_iff]
      omega

private theorem nearestMultiple_zero (h : 2 * |n| < unit) : NearestMultiple n unit 0 := by
  have herror : 2 * |n - 0 * unit| < unit := by simpa using h
  have hunit : 0 < unit := by
    have := abs_nonneg n
    omega
  simpa using nearestMultiple_of_error hunit herror.le fun htie => absurd htie herror.ne

private theorem natAbs_lt_two_pow (n : Int) : n.natAbs < 2 ^ bitLength n := by
  unfold bitLength
  split
  case isTrue h => simp [h]
  case isFalse h => exact Nat.lt_log2_self

end Number

namespace Builtin

open Number

/-- Both ways to see that a power is too large, by the estimate and by the bound on the places, leave a factor of at
least two between the integer and the power. -/
private theorem nearestMultiple_roundInt {n : Int} {places : Nat} (hbits : bitLength n < 2 ^ 32)
    (hestimate : n.natAbs < 10 ^ digitEstimate n) : NearestMultiple n (10 ^ places) (roundInt n places) := by
  unfold roundInt
  split
  case isTrue => simpa using nearestMultiple_roundDiv n (Nat.pos_of_ne_zero (pow_ne_zero places (by decide : 10 ≠ 0)))
  case isFalse h =>
    have hlarge : 2 * n.natAbs < 10 ^ places := by
      by_cases hplaces : places < 2 ^ 32
      · have hdigits : digitEstimate n < places := by
          by_contra hle
          exact h (by simp [show places < Nat.pow 2 32 from hplaces, not_lt.mp hle])
        calc 2 * n.natAbs < 10 * 10 ^ digitEstimate n := by omega
          _ = 10 ^ (digitEstimate n + 1) := by ring
          _ ≤ 10 ^ places := Nat.pow_le_pow_right (by decide) hdigits
      · calc 2 * n.natAbs < 2 * 2 ^ bitLength n := by
              have := natAbs_lt_two_pow n
              omega
          _ = 2 ^ (bitLength n + 1) := by ring
          _ ≤ 2 ^ places := Nat.pow_le_pow_right (by decide) (by omega)
          _ ≤ 10 ^ places := Nat.pow_le_pow_left (by decide) places
    apply nearestMultiple_zero
    rw [Int.abs_eq_natAbs]
    exact_mod_cast hlarge

private theorem evaluate_round_int (limits : Limits) (n places : Int) : ∃ contract,
    Catalog.standard.builtin? "round" = some contract ∧ contract.evaluate limits none [.int n, .int places] =
      .ok (some (.int (if 0 ≤ places then n else roundInt n (-places).toNat))) :=
  ⟨_, rfl, rfl⟩

/-- Rounding an integer never fails.  It keeps the integer for a number of places that is not negative, and gives the
nearest multiple of a power of ten otherwise. -/
theorem round_int (n places : Int) (hbits : bitLength n < 2 ^ 32) (hestimate : n.natAbs < 10 ^ digitEstimate n) :
    ∃ m, (∀ limits, ∃ contract, Catalog.standard.builtin? "round" = some contract ∧
        contract.evaluate limits none [.int n, .int places] = .ok (some (.int m))) ∧
      (0 ≤ places → m = n) ∧ (places < 0 → NearestMultiple n (10 ^ (-places).toNat) m) := by
  refine ⟨_, fun limits => evaluate_round_int limits n places, fun h => if_pos h, fun h => ?_⟩
  rw [if_neg (by omega)]
  exact nearestMultiple_roundInt hbits hestimate

/-- A tie between an even and an odd number of thousands, for a negative integer. -/
theorem round_int_tie : bitLength (-4500) < 2 ^ 32 ∧ (-4500 : Int).natAbs < 10 ^ digitEstimate (-4500) ∧
    ∃ m, (∀ limits, ∃ contract, Catalog.standard.builtin? "round" = some contract ∧
        contract.evaluate limits none [.int (-4500), .int (-3)] = .ok (some (.int m))) ∧
      (0 ≤ (-3 : Int) → m = -4500) ∧ ((-3 : Int) < 0 → NearestMultiple (-4500) (10 ^ (3 : Int).toNat) m) :=
  have hestimate : (-4500 : Int).natAbs < 10 ^ digitEstimate (-4500) := by decide +kernel
  ⟨by decide, hestimate, round_int (-4500) (-3) (by decide) hestimate⟩

end Builtin

end Speculator
