import Speculator.Proofs.Slices

/-!
# Ranges

The items of a range are computed from their number, which is a quotient.  Here they are what counting meets: from the
start on, add the step as long as the stop lies ahead (`Counts`).  A range is given up exactly when counting would
take too long (`rangeItems?_counts`).
-/

namespace Speculator.Iterable

open Number (termCount terms successors)

open Value (Before)

variable {start stop step : Int} {items : List Int}

/-- Counting by the step meets the items before it comes to the stop. -/
inductive Counts (stop step : Int) : Int → List Int → Prop
  | stop {item : Int} (h : ¬Before step stop item) : Counts stop step item []
  | next {item : Int} {items : List Int} (h : Before step stop item) (rest : Counts stop step (item + step) items) :
    Counts stop step item (item :: items)

private theorem Counts.unique {others : List Int} (h : Counts stop step start items)
    (h' : Counts stop step start others) : items = others := by
  induction h generalizing others with
  | stop hstop =>
    cases h' with
    | stop => rfl
    | next hbefore => exact absurd hbefore hstop
  | next hbefore _ ih =>
    cases h' with
    | stop hstop => exact absurd hbefore hstop
    | next _ rest => rw [ih rest]

/-! ### The number of items -/

private theorem steps_succ {gap rest width : Int} (hgap : 0 < gap) (hwidth : 0 < width) (hrest : rest = gap - width) :
    ((gap - 1).tdiv width + 1).toNat = (if 0 < rest then ((rest - 1).tdiv width + 1).toNat else 0) + 1 := by
  rw [Int.tdiv_eq_ediv_of_nonneg (by omega)]
  split
  case isTrue hmore =>
    have hsplit : gap - 1 = rest - 1 + width := by omega
    have hleft : 0 ≤ (rest - 1) / width := Int.ediv_nonneg (by omega) (by omega)
    rw [Int.tdiv_eq_ediv_of_nonneg (by omega), hsplit, Int.add_ediv_of_dvd_right (Int.dvd_refl width),
      Int.ediv_self (by omega)]
    omega
  case isFalse => rw [Int.ediv_eq_zero_of_lt (by omega) (by omega)]; rfl

private theorem termCount_of_before (h : Before step stop start) :
    termCount start stop step = termCount (start + step) stop step + 1 := by
  unfold termCount
  rcases h with ⟨hstep, hlt⟩ | ⟨hstep, hlt⟩
  · have hwidth : (step.natAbs : Int) = step := by omega
    have hsteps := steps_succ (Int.sub_pos.mpr hlt) hstep (Int.sub_sub stop start step).symm
    simpa only [hstep, if_true, hstep.ne', ne_eq, not_false_eq_true, true_and, hlt, hwidth, Int.sub_pos] using hsteps
  · have hwidth : (step.natAbs : Int) = -step := by omega
    have hneg : ¬0 < step := by omega
    have hsteps := @steps_succ (start - stop) (start + step - stop) (-step) (by omega) (by omega) (by omega)
    simpa only [hneg, if_false, hstep.ne, ne_eq, not_false_eq_true, true_and, hlt, hwidth, if_true, Int.sub_pos]
      using hsteps

private theorem termCount_of_not_before (h : ¬Before step stop start) : termCount start stop step = 0 := by
  unfold termCount
  unfold Before at h
  split
  rename_i low high hends
  rw [if_neg]
  split at hends <;> cases hends <;> omega

private theorem terms_of_before (h : Before step stop start) :
    terms start stop step = start :: terms (start + step) stop step := by
  rw [terms, terms, termCount_of_before h, successors]

private theorem length_terms (start stop step : Int) :
    (terms start stop step).length = termCount start stop step := by
  unfold terms
  induction termCount start stop step generalizing start with
  | zero => rfl
  | succ count ih => rw [successors, List.length_cons, ih]

/-- Counting ends after just as many items as the quotient tells. -/
private theorem counts_terms (start stop step : Int) : Counts stop step start (terms start stop step) := by
  induction hn : termCount start stop step generalizing start with
  | zero =>
    have hstop : ¬Before step stop start := by
      intro h
      rw [termCount_of_before h] at hn
      cases hn
    rw [List.length_eq_zero_iff.mp ((length_terms start stop step).trans hn)]
    exact .stop hstop
  | succ n ih =>
    have hbefore : Before step stop start := by
      by_contra h
      rw [termCount_of_not_before h] at hn
      cases hn
    rw [termCount_of_before hbefore, Nat.succ_inj] at hn
    rw [terms_of_before hbefore]
    exact .next hbefore (ih (start + step) hn)

private theorem counts_iff : Counts stop step start items ↔ items = terms start stop step :=
  ⟨fun h => h.unique (counts_terms start stop step), fun h => h ▸ counts_terms start stop step⟩

/-! ### The items of a range -/

/-- The start, the stop and the step that the arguments of a range stand for. -/
inductive RangeArgs : List Int → Int → Int → Int → Prop
  | stop (stop : Int) : RangeArgs [stop] 0 stop 1
  | startStop (start stop : Int) : RangeArgs [start, stop] start stop 1
  | startStopStep (start stop step : Int) : RangeArgs [start, stop, step] start stop step

variable {args : List Int}

private theorem rangeItems?_of_args (most : Nat) (h : RangeArgs args start stop step) :
    rangeItems? most args = rangeItems?.within most start stop step := by
  cases h <;> rfl

private theorem RangeArgs.unique {start' stop' step' : Int} (h : RangeArgs args start stop step)
    (h' : RangeArgs args start' stop' step') : start = start' ∧ stop = stop' ∧ step = step' := by
  cases h <;> cases h' <;> exact ⟨rfl, rfl, rfl⟩

private theorem exists_rangeArgs (hmin : 1 ≤ args.length) (hmax : args.length ≤ 3) :
    ∃ start stop step, RangeArgs args start stop step := by
  rcases args with _ | ⟨a, _ | ⟨b, _ | ⟨c, _ | ⟨d, args⟩⟩⟩⟩
  · cases hmin
  · exact ⟨_, _, _, .stop a⟩
  · exact ⟨_, _, _, .startStop a b⟩
  · exact ⟨_, _, _, .startStopStep a b c⟩
  · simp only [List.length_cons] at hmax
    omega

private theorem RangeArgs.length_le (h : RangeArgs args start stop step) : 1 ≤ args.length ∧ args.length ≤ 3 := by
  cases h <;> simp

private theorem within_eq_none_iff {most : Nat} : rangeItems?.within most start stop step = none ↔
    step = 0 ∨ ∃ items, Counts stop step start items ∧ most < items.length := by
  simp only [rangeItems?.within, counts_iff, exists_eq_left, length_terms]
  split <;> simp_all

private theorem within_eq_some_iff {most : Nat} : rangeItems?.within most start stop step = some items ↔
    step ≠ 0 ∧ Counts stop step start items ∧ items.length ≤ most := by
  rw [rangeItems?.within, counts_iff]
  split
  case isTrue h =>
    simp only [Bool.or_eq_true, beq_iff_eq, decide_eq_true_eq] at h
    refine iff_of_false (by simp) ?_
    rintro ⟨hstep, rfl, hlength⟩
    rw [length_terms] at hlength
    omega
  case isFalse h =>
    simp only [Bool.or_eq_true, beq_iff_eq, decide_eq_true_eq, not_or, not_lt] at h
    rw [Option.some.injEq]
    constructor
    · rintro rfl
      rw [length_terms]
      exact ⟨h.1, rfl, h.2⟩
    · rintro ⟨-, rfl, -⟩
      rfl

/-- A range is given up when its arguments are not one to three, the step is zero or counting meets too many items;
otherwise its items are the ones that counting meets. -/
theorem rangeItems?_counts (most : Nat) (args : List Int) :
    (rangeItems? most args = none ↔ ¬(1 ≤ args.length ∧ args.length ≤ 3) ∨
      ∃ start stop step, RangeArgs args start stop step ∧
        (step = 0 ∨ ∃ items, Counts stop step start items ∧ most < items.length)) ∧
      ∀ items, rangeItems? most args = some items ↔ ∃ start stop step, RangeArgs args start stop step ∧
        step ≠ 0 ∧ Counts stop step start items ∧ items.length ≤ most := by
  by_cases hcount : 1 ≤ args.length ∧ args.length ≤ 3
  case pos =>
    obtain ⟨start, stop, step, hargs⟩ := exists_rangeArgs hcount.1 hcount.2
    have hunique : ∀ P : Int → Int → Int → Prop,
        (∃ start stop step, RangeArgs args start stop step ∧ P start stop step) ↔ P start stop step := by
      refine fun P => ⟨?_, fun h => ⟨start, stop, step, hargs, h⟩⟩
      rintro ⟨start', stop', step', hargs', h⟩
      obtain ⟨rfl, rfl, rfl⟩ := hargs.unique hargs'
      exact h
    simp only [rangeItems?_of_args most hargs, hunique, within_eq_none_iff, within_eq_some_iff, hcount, and_self,
      not_true_eq_false, false_or, implies_true]
  case neg =>
    have hnone : rangeItems? most args = none := by
      unfold rangeItems?
      split
      case h_4 => rfl
      all_goals simp at hcount
    have hargs : ∀ start stop step, ¬RangeArgs args start stop step := fun _ _ _ h => hcount h.length_le
    simp [hnone, hargs, hcount]

end Speculator.Iterable
