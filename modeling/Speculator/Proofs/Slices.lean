import Mathlib
import Speculator.Optimize
import Speculator.Proofs.Fragment

/-!
# Slices

The positions of a slice are a walk `start, start + step, …` of machine integers, and its bounds are integers of any
size.  Over all integers the slice would be

* (bounds) from `sliceStart` to `sliceStop`: a negative bound counts from the end, and the bounds are moved into the
  positions from `0` to the length, or from `-1` to one less than the length when the step is negative;
* (items) the items at those of the positions `start + k * step` that are strictly before the stop.

A walk along a sequence of fewer than `2 ^ 63` items comes through these positions, also when the bounds do not fit
the machine.  But the position after the last one need not fit: a positive step can be so long that adding it to a
start other than `0` leaves the range (`overrun_walk_iff`).
-/

namespace Speculator.Value

/-! ### Slices over all integers -/

def isSequence : Value → Bool
  | .str _ | .bytes _ | .tuple _ | .list _ => true
  | _ => false

/-- A bound of a slice, counted from the end if it is negative and moved into the range. -/
def resolveBound (length : Nat) (step missing : Int) : Option Int → Int
  | Option.none => missing
  | some bound =>
    let position := if bound < 0 then bound + length else bound
    if 0 < step then max 0 (min length position) else max (-1) (min (length - 1) position)

def sliceStart (length : Nat) (step : Int) (lower : Option Int) : Int :=
  resolveBound length step (if 0 < step then 0 else length - 1) lower

def sliceStop (length : Nat) (step : Int) (upper : Option Int) : Int :=
  resolveBound length step (if 0 < step then length else -1) upper

def Before (step stop position : Int) : Prop := (0 < step ∧ position < stop) ∨ (step < 0 ∧ stop < position)

instance (step stop position : Int) : Decidable (Before step stop position) := inferInstanceAs (Decidable (_ ∨ _))

/-- The position with an index among those of a slice. -/
def slicePosition? (start stop step : Int) (k : Nat) : Option Int :=
  if Before step stop (start + k * step) then some (start + k * step) else Option.none

def InRange (length : Nat) (step position : Int) : Prop :=
  if 0 < step then 0 ≤ position ∧ position ≤ length else -1 ≤ position ∧ position < length

section

variable {length : Nat} {step start stop position : Int} {α : Type} {items : List α}

private theorem inRange_resolveBound {missing : Int} (h : InRange length step missing) (bound : Option Int) :
    InRange length step (resolveBound length step missing bound) := by
  cases bound with
  | none => exact h
  | some bound =>
    simp only [InRange, resolveBound]
    split <;> omega

private theorem inRange_sliceStart (length : Nat) (step : Int) (lower : Option Int) :
    InRange length step (sliceStart length step lower) := by
  apply inRange_resolveBound
  unfold InRange
  split <;> omega

private theorem inRange_sliceStop (length : Nat) (step : Int) (upper : Option Int) :
    InRange length step (sliceStop length step upper) := by
  apply inRange_resolveBound
  unfold InRange
  split <;> omega

private theorem Before.lt_length (h : Before step stop position) (hstart : InRange length step start)
    (hstop : InRange length step stop) {k : Nat} (hposition : position = start + k * step) :
    0 ≤ position ∧ position < length := by
  unfold InRange at hstart hstop
  rcases h with ⟨hstep, hlt⟩ | ⟨hstep, hlt⟩
  · rw [if_pos hstep] at hstart hstop
    have hk : 0 ≤ k * step := Int.mul_nonneg (by omega) (by omega)
    omega
  · have hneg : ¬0 < step := by omega
    rw [if_neg hneg] at hstart hstop
    have hk : k * step ≤ 0 := Int.mul_nonpos_of_nonneg_of_nonpos (by omega) (by omega)
    omega

private theorem Before.of_add {k : Nat} (h : Before step stop (position + k * step)) : Before step stop position := by
  rcases h with ⟨hstep, hlt⟩ | ⟨hstep, hlt⟩
  · have hk : 0 ≤ k * step := Int.mul_nonneg (by omega) (by omega)
    exact .inl ⟨hstep, by omega⟩
  · have hk : k * step ≤ 0 := Int.mul_nonpos_of_nonneg_of_nonpos (by omega) (by omega)
    exact .inr ⟨hstep, by omega⟩

private theorem slicePosition?_zero (start stop step : Int) :
    slicePosition? start stop step 0 = if Before step stop start then some start else Option.none := by
  simp [slicePosition?]

private theorem slicePosition?_succ (start stop step : Int) (k : Nat) :
    slicePosition? start stop step (k + 1) = slicePosition? (start + step) stop step k := by
  have hadd : start + (k + 1 : Nat) * step = start + step + k * step := by
    rw [Int.natCast_succ, Int.add_mul, Int.one_mul]
    omega
  rw [slicePosition?, slicePosition?, hadd]

private theorem slicePosition?_eq_none (h : ¬Before step stop start) (k : Nat) :
    slicePosition? start stop step k = Option.none :=
  if_neg fun hk => h hk.of_add

/-! ### Walks -/

private theorem fitsMachine_iff {n : Int} : fitsMachine n = true ↔ -2 ^ 127 ≤ n ∧ n < 2 ^ 127 := by
  simp [fitsMachine]

private theorem InRange.fitsMachine (h : InRange length step position) (hlength : length < 2 ^ 63) :
    fitsMachine position = true := by
  unfold InRange at h
  rw [fitsMachine_iff]
  split at h <;> omega

/-- A walk comes through the positions of the slice. -/
private theorem getElem?_walk (hlength : length < 2 ^ 63) (hstop : InRange length step stop)
    (hposition : fitsMachine position = true) (k : Nat) :
    (walk stop step position).positions[k]? = slicePosition? position stop step k := by
  -- along the walk: the position with index `k + 1` is the one with index `k` in the rest of the walk
  fun_induction walk stop step position generalizing k with
  | case1 position hbefore hfits rest ih =>
    cases k with
    | zero =>
      rw [slicePosition?_zero]
      exact (if_pos hbefore).symm
    | succ k =>
      rw [slicePosition?_succ, ← ih hfits k]
      rfl
  | case2 position hbefore hfits =>
    cases k with
    | zero =>
      rw [slicePosition?_zero]
      exact (if_pos hbefore).symm
    | succ k =>
      have hnext : ¬Before step stop (position + step) := by
        intro h
        rw [fitsMachine_iff] at hfits hposition
        unfold InRange at hstop
        rcases h with ⟨hpos, hlt⟩ | ⟨hneg, hlt⟩
        · rw [if_pos hpos] at hstop
          omega
        · rw [if_neg (by omega)] at hstop
          omega
      rw [slicePosition?_succ, slicePosition?_eq_none hnext]
      rfl
  | case3 position hbefore =>
    rw [slicePosition?_eq_none hbefore]
    rfl

/-- A walk overruns if and only if the position after its first one does not fit: from a second one on, the step is no
longer than the sequence. -/
private theorem overrun_walk_iff (hlength : length < 2 ^ 63) (hstep : fitsMachine step = true)
    (hstop : InRange length step stop)
    (hposition : fitsMachine position = true) (hnonneg : 0 < step → 0 ≤ position) :
    (walk stop step position).overrun = true ↔ 0 < step ∧ position < stop ∧ 2 ^ 127 ≤ position + step := by
  rw [fitsMachine_iff] at hstep
  unfold InRange at hstop
  fun_induction walk stop step position with
  | case1 position hbefore hfits rest ih =>
    have hrest := ih hfits fun hpos => by have := hnonneg hpos; omega
    rw [fitsMachine_iff] at hfits
    refine hrest.trans ⟨fun h => ?_, fun h => ?_⟩
    · rw [if_pos h.1] at hstop
      have := hnonneg h.1
      omega
    · omega
  | case2 position hbefore hfits =>
    rw [fitsMachine_iff] at hfits hposition
    refine ⟨fun _ => ?_, fun _ => rfl⟩
    rcases hbefore with ⟨hpos, hlt⟩ | ⟨hneg, hlt⟩
    · have := hnonneg hpos
      omega
    · rw [if_neg (by omega)] at hstop
      omega
  | case3 position hbefore =>
    refine ⟨fun h => ?_, fun h => ?_⟩
    · cases h
    · exact (hbefore (.inl ⟨h.1, h.2.1⟩)).elim

/-! ### Bounds that do not fit the machine -/

private theorem fitsMachine_machineBound (bound : Int) : fitsMachine (machineBound bound) = true := by
  unfold machineBound
  split
  · assumption
  · split <;> decide

private theorem machineBound_of_not_fits {bound : Int} (h : ¬fitsMachine bound = true) :
    machineBound bound = if bound < 0 then -2 ^ 63 else 2 ^ 63 - 1 := by
  rw [machineBound, if_neg h]
  rfl

private theorem machineBound_sign (bound : Int) :
    (0 < machineBound bound ↔ 0 < bound) ∧ (machineBound bound < 0 ↔ bound < 0) := by
  by_cases hfits : fitsMachine bound = true
  · rw [machineBound, if_pos hfits]
    exact ⟨.rfl, .rfl⟩
  · rw [machineBound_of_not_fits hfits]
    rw [fitsMachine_iff] at hfits
    split <;> omega

theorem InRange.machine (h : InRange length step position) : InRange length (machineBound step) position := by
  simpa only [InRange, (machineBound_sign step).1] using h

private theorem clampBound_machineBound (hlength : length < 2 ^ 63) {low high : Int} (hlow : -1 ≤ low)
    (hle : low ≤ high)
    (hhigh : high ≤ length) (bound : Int) :
    clampBound length low high (machineBound bound) = clampBound length low high bound := by
  by_cases hfits : fitsMachine bound = true
  · rw [machineBound, if_pos hfits]
  · rw [machineBound_of_not_fits hfits]
    rw [fitsMachine_iff] at hfits
    unfold clampBound
    split
    · rw [if_pos (by omega)]
      omega
    · rw [if_neg (by omega)]
      omega

/-- A step that does not fit leads beyond the stop at once, and so does the one that stands for it. -/
private theorem slicePosition?_machineBound (hlength : length < 2 ^ 63) (hstart : InRange length step start)
    (hstop : InRange length step stop) (k : Nat) :
    slicePosition? start stop (machineBound step) k = slicePosition? start stop step k := by
  by_cases hfits : fitsMachine step = true
  · rw [machineBound, if_pos hfits]
  have hbound := machineBound_of_not_fits hfits
  rw [fitsMachine_iff] at hfits
  have hsame : Before (machineBound step) stop start ↔ Before step stop start := by
    unfold Before
    rw [(machineBound_sign step).1, (machineBound_sign step).2]
  cases k with
  | zero => simp only [slicePosition?_zero, hsame]
  | succ k =>
    have hfar : ¬Before (machineBound step) stop (start + machineBound step) ∧ ¬Before step stop (start + step) := by
      unfold InRange at hstart hstop
      unfold Before
      rw [hbound]
      by_cases hneg : step < 0
      · rw [if_neg (by omega)] at hstart hstop
        rw [if_pos hneg]
        omega
      · rw [if_pos (by omega)] at hstart hstop
        rw [if_neg hneg]
        omega
    rw [slicePosition?_succ, slicePosition?_succ, slicePosition?_eq_none hfar.1, slicePosition?_eq_none hfar.2]

private theorem clampBound_eq_resolveBound (hlength : length < 2 ^ 63) (step missing : Int) (bound : Option Int) :
    (bound.map fun bound => clampBound length (if 0 < step then 0 else -1) (if 0 < step then length else length - 1)
      (machineBound bound)).getD missing = resolveBound length step missing bound := by
  cases bound with
  | none => rfl
  | some bound =>
    rw [Option.map_some, Option.getD_some, clampBound_machineBound hlength]
    · unfold clampBound
      simp only [resolveBound]
      split <;> rfl
    all_goals split <;> omega

private theorem sliceWalk_eq (hlength : length < 2 ^ 63) (lower upper step : Option Int) :
    sliceWalk length lower upper step =
      if step = some 0 then .error .valueError
      else
        let by' := step.getD 1
        .ok (walk (sliceStop length by' upper) (machineBound by') (sliceStart length by' lower)) := by
  have hmachine : (step.map machineBound).getD 1 = machineBound (step.getD 1) := by
    cases step with
    | none => rfl
    | some step => rfl
  have hzero : machineBound (step.getD 1) = 0 ↔ step = some 0 := by
    have hsign := machineBound_sign (step.getD 1)
    cases step with
    | none => simp [machineBound, fitsMachine]
    | some step =>
      rw [Option.getD_some] at hsign ⊢
      rw [Option.some.injEq]
      omega
  simp only [sliceWalk, hmachine, hzero, (machineBound_sign (step.getD 1)).1]
  split
  · rfl
  · rw [clampBound_eq_resolveBound hlength, clampBound_eq_resolveBound hlength, sliceStart, sliceStop]
    split <;> rfl

private theorem overrun_sliceWalk_iff (hlength : length < 2 ^ 63) (hstart : InRange length step start)
    (hstop : InRange length step stop) :
    (walk stop (machineBound step) start).overrun = true ↔
      0 < step ∧ step < 2 ^ 127 ∧ start < stop ∧ 2 ^ 127 ≤ start + step := by
  have hsign := machineBound_sign step
  have hnonneg : 0 < machineBound step → 0 ≤ start := by
    intro hpos
    rw [hsign.1] at hpos
    rw [InRange, if_pos hpos] at hstart
    exact hstart.1
  rw [overrun_walk_iff hlength (fitsMachine_machineBound step) hstop.machine (hstart.fitsMachine hlength) hnonneg,
    hsign.1]
  unfold InRange at hstart
  by_cases hfits : fitsMachine step = true
  · have hbound : machineBound step = step := if_pos hfits
    rw [fitsMachine_iff] at hfits
    rw [hbound]
    omega
  · have hbound := machineBound_of_not_fits hfits
    rw [fitsMachine_iff] at hfits
    rw [hbound]
    split at hstart
    · rw [if_neg (by omega)]
      omega
    · omega

/-! ### Items -/

def Selects {α : Type} (items selected : List α) (start stop step : Int) : Prop :=
  ∀ k : Nat,
    if Before step stop (start + k * step) then
      ∃ item, 0 ≤ start + k * step ∧ items[(start + k * step).toNat]? = some item ∧ selected[k]? = some item
    else selected[k]? = Option.none

private theorem Selects.map {β : Type} {selected : List α} (f : α → β) (h : Selects items selected start stop step) :
    Selects (items.map f) (selected.map f) start stop step := by
  intro k
  have hk := h k
  split at hk
  · rename_i hbefore
    obtain ⟨item, hnonneg, hitem, hselected⟩ := hk
    rw [if_pos hbefore]
    exact ⟨f item, hnonneg, by simp [hitem], by simp [hselected]⟩
  · rename_i hbefore
    rw [if_neg hbefore]
    simp [hk]

private theorem getElem?_filterMap {β : Type} {f : α → Option β} {as : List α}
    (h : ∀ a ∈ as, (f a).isSome = true) (k : Nat) :
    (as.filterMap f)[k]? = as[k]?.bind f := by
  induction as generalizing k with
  | nil => simp
  | cons a as ih =>
    obtain ⟨b, hb⟩ := Option.isSome_iff_exists.mp (h a (by simp))
    rw [List.filterMap_cons_some hb]
    cases k with
    | zero => simp [hb]
    | succ k => simpa using ih (fun a' ha' => h a' (by simp [ha'])) k

private theorem selects_walk (hlength : items.length < 2 ^ 63)
    (hstart : InRange items.length step start) (hstop : InRange items.length step stop) :
    Selects items ((walk stop (machineBound step) start).positions.filterMap fun p => items[p.toNat]?)
      start stop step := by
  have hpositions : ∀ k, (walk stop (machineBound step) start).positions[k]? = slicePosition? start stop step k := by
    intro k
    rw [getElem?_walk hlength hstop.machine (hstart.fitsMachine hlength),
      slicePosition?_machineBound hlength hstart hstop]
  have hitem : ∀ k : Nat, Before step stop (start + k * step) →
      0 ≤ start + k * step ∧ ∃ item, items[(start + k * step).toNat]? = some item := by
    intro k hbefore
    have hlt := hbefore.lt_length hstart hstop rfl
    exact ⟨hlt.1, _, List.getElem?_eq_getElem (by omega)⟩
  -- no position is beyond the items, so none of them is passed over
  have hsome : ∀ p ∈ (walk stop (machineBound step) start).positions, (items[p.toNat]?).isSome = true := by
    intro p hp
    obtain ⟨k, hk⟩ := List.getElem?_of_mem hp
    rw [hpositions, slicePosition?] at hk
    split at hk
    · rename_i hbefore
      cases hk
      obtain ⟨_, item, hitem⟩ := hitem k hbefore
      rw [hitem]
      rfl
    · cases hk
  intro k
  rw [getElem?_filterMap hsome, hpositions, slicePosition?]
  split
  · rename_i hbefore
    obtain ⟨hnonneg, item, hitem⟩ := hitem k hbefore
    exact ⟨item, hnonneg, hitem, hitem⟩
  · rfl

private theorem exists_sliceList (hlength : items.length < 2 ^ 63) (lower upper : Option Int)
    {step : Option Int} (hstep : step ≠ some 0) : ∃ selected, sliceList items lower upper step = .ok selected ∧
      Selects items selected (sliceStart items.length (step.getD 1) lower)
        (sliceStop items.length (step.getD 1) upper)
        (step.getD 1) := by
  refine ⟨_, ?_, selects_walk hlength (inRange_sliceStart _ _ lower) (inRange_sliceStop _ _ upper)⟩
  rw [sliceList, sliceWalk_eq hlength, if_neg hstep]
  simp only [Except.map, List.getElem?_toArray]

private theorem sliceList_zero (hlength : items.length < 2 ^ 63) (lower upper : Option Int) :
    sliceList items lower upper (some 0) = .error .valueError := by
  rw [sliceList, sliceWalk_eq hlength, if_pos rfl]
  rfl

end

private theorem overruns_iff {length : Nat} (hlength : length < 2 ^ 63) (lower upper step : Option Int) :
    let by' := step.getD 1
    let start := sliceStart length by' lower
    sliceOverruns.overruns lower upper step length = true ↔
      0 < by' ∧ by' < 2 ^ 127 ∧ start < sliceStop length by' upper ∧ 2 ^ 127 ≤ start + by' := by
  intro by' start
  rw [sliceOverruns.overruns, sliceWalk_eq hlength]
  by_cases hstep : step = some 0
  · have hby : by' = 0 := by simp [by', hstep]
    rw [if_pos hstep, hby]
    simp
  · rw [if_neg hstep]
    exact overrun_sliceWalk_iff hlength (inRange_sliceStart length by' lower) (inRange_sliceStop length by' upper)

private theorem exists_sequence {value : Value} (hsequence : value.isSequence = true) {items : List Value}
    (hitems : value.items? false = some items) :
    ∃ (α : Type) (parts : List α) (item : α → Value) (build : List α → Value), items = parts.map item ∧
      (∀ lower upper step, value.slice lower upper step = (sliceList parts lower upper step).map build) ∧
      (∀ lower upper step, value.sliceOverruns lower upper step =
        sliceOverruns.overruns lower upper step parts.length) ∧
      ∀ new, (build new).typeName = value.typeName ∧ (build new).items? false = some (new.map item) := by
  cases value with
  | str s =>
    refine ⟨Char, s.toList, fun c => .str (String.singleton c), fun cs => .str (String.ofList cs), ?_, ?_, ?_, ?_⟩
    · cases hitems
      rfl
    · exact fun _ _ _ => rfl
    · intro lower upper step
      rw [String.length_toList]
      rfl
    · exact fun new => ⟨rfl, by simp [items?]⟩
  | bytes b =>
    cases hitems
    exact ⟨UInt8, b, fun byte => .int byte.toNat, .bytes, rfl, fun _ _ _ => rfl, fun _ _ _ => rfl,
      fun new => ⟨rfl, rfl⟩⟩
  | tuple =>
    cases hitems
    exact ⟨Value, items, id, .tuple, by simp, fun _ _ _ => rfl, fun _ _ _ => rfl, fun new => ⟨rfl, by simp [items?]⟩⟩
  | list =>
    cases hitems
    exact ⟨Value, items, id, .list, by simp, fun _ _ _ => rfl, fun _ _ _ => rfl, fun new => ⟨rfl, by simp [items?]⟩⟩
  | _ => cases hsequence

/-- The slice of a sequence of fewer than `2 ^ 63` items.  It fails for the step `0` only; otherwise it is a sequence
of the same type, of the items at the positions `start, start + step, …` strictly before the stop, for all bounds and
steps.  The positions leave the range of the machine if and only if a single position is followed by one that does not
fit. -/
theorem slice_spec {value : Value} (hsequence : value.isSequence = true) {items : List Value}
    (hitems : value.items? false = some items) (hlength : items.length < 2 ^ 63) (lower upper step : Option Int) :
    let by' := step.getD 1
    let start := sliceStart items.length by' lower
    let stop := sliceStop items.length by' upper
    (∀ fault, value.slice lower upper step = .error fault ↔ fault = .valueError ∧ step = some 0) ∧
      (step ≠ some 0 → ∃ new selected, value.slice lower upper step = .ok new ∧ new.typeName = value.typeName ∧
        new.items? false = some selected ∧ Selects items selected start stop by') ∧
      (value.sliceOverruns lower upper step = true ↔
        0 < by' ∧ by' < 2 ^ 127 ∧ start < stop ∧ 2 ^ 127 ≤ start + by') := by
  intro by' start stop
  obtain ⟨α, parts, item, build, rfl, hslice, hoverruns, hbuild⟩ := exists_sequence hsequence hitems
  rw [List.length_map] at hlength
  have hselected : step ≠ some 0 → ∃ new selected, value.slice lower upper step = .ok new ∧
      new.typeName = value.typeName ∧ new.items? false = some selected ∧
      Selects (parts.map item) selected start stop by' := by
    intro hstep
    obtain ⟨selected, hok, hselects⟩ := exists_sliceList hlength lower upper hstep
    refine ⟨build selected, selected.map item, ?_, (hbuild selected).1, (hbuild selected).2, ?_⟩
    · rw [hslice, hok]
      rfl
    · simp only [start, stop, by', List.length_map]
      exact hselects.map item
  refine ⟨fun fault => ?_, hselected, ?_⟩
  · by_cases hstep : step = some 0
    · subst hstep
      rw [hslice, sliceList_zero hlength]
      constructor
      · intro h
        cases h
        exact ⟨rfl, rfl⟩
      · rintro ⟨rfl, _⟩
        rfl
    · obtain ⟨new, _, hok, _⟩ := hselected hstep
      rw [hok]
      constructor
      · intro h
        cases h
      · exact fun h => (hstep h.2).elim
  · have hiff := overruns_iff hlength lower upper step
    simp only [start, stop, by', List.length_map, hoverruns]
    exact hiff

/-- A slice with a bound that does not fit the machine, backwards. -/
theorem slice_spec_backwards :
    let value : Value := .bytes [1, 2, 3, 4]
    value.isSequence = true ∧ value.items? false = some [.int 1, .int 2, .int 3, .int 4] ∧
      (∃ new selected, value.slice (some (2 ^ 200)) Option.none (some (-2)) = .ok new ∧ new.typeName = "bytes" ∧
        new.items? false = some selected ∧
        Selects [.int 1, .int 2, .int 3, .int 4] selected (sliceStart 4 (-2) (some (2 ^ 200)))
          (sliceStop 4 (-2) Option.none) (-2)) ∧
      sliceStart 4 (-2) (some (2 ^ 200)) = 3 ∧ sliceStop 4 (-2) Option.none = -1 := by
  intro value
  have hitems : value.items? false = some [.int 1, .int 2, .int 3, .int 4] := rfl
  have hspec := slice_spec (show value.isSequence = true from rfl) hitems (by decide) (some (2 ^ 200))
      Option.none (some (-2))
  exact ⟨rfl, hitems, hspec.2.1 (by decide), by decide, by decide⟩

/-- In `'abc'[1:3:2 ** 127 - 1]` there is one position, and the one after it does not fit the machine: instead of the
slice, the program ends. -/
theorem optimize_slice_overruns :
    let bound (n : Int) : Option Expr := some ⟨{}, .const (.int n)⟩
    let slice : Expr := ⟨{}, .slice (bound 1) (bound 3) (bound (2 ^ 127 - 1))⟩
    let program : Module := ⟨[⟨{}, .expr ⟨{}, .subscript ⟨{}, .const (.str "abc")⟩ slice⟩⟩]⟩
    (Value.str "abc").slice (some 1) (some 3) (some (2 ^ 127 - 1)) = .ok (.str "b") ∧
      (optimize {} "m.py" Option.none program).overrun = true := by
  intro bound slice program
  constructor
  · have hwalk : walk 3 (2 ^ 127 - 1) 1 = ⟨[1], true⟩ := by rw [walk, if_pos (by decide), if_neg (by decide)]
    have hslice : sliceWalk 3 (some 1) (some 3) (some (2 ^ 127 - 1)) = .ok (walk 3 (2 ^ 127 - 1) 1) := rfl
    have hlength : "abc".toList.length = 3 := rfl
    simp only [Value.slice, sliceList, hlength, hslice, hwalk]
    rfl
  · decide +kernel

end Speculator.Value
