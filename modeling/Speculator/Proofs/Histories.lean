import Mathlib.Data.List.Induction
import Mathlib.Data.List.Infix
import Speculator.Proofs.Frame

/-!
# Histories of a namespace

A namespace is changed by writes, by losing track, and by entering and leaving conditional regions, where the flag
kept at the entry is given back at the end.  Whatever the history, the namespace knows a value exactly when the
current point is outside of all conditional regions, track was never lost, and the last write of the variable in the
whole history was an assignment of that value outside of all conditional regions (`Namespace.get?_replay`).

The namespace after a history is related to the history by `Replay.Reflects`, which every instruction keeps.
-/

namespace Speculator.Namespace

open List

/-! ### Histories -/

/-- What can happen to a namespace in the course of a scope. -/
inductive Instruction where
  | set (name : Ident) (value : Option Value)
  | unset (name : Ident)
  | loseTrack
  | enterCond
  | leaveCond

namespace Instruction

/-- The variable that is written. -/
def target? : Instruction → Option Ident
  | .set name _ | .unset name => some name
  | _ => none

def enters : Instruction → Bool
  | .enterCond => true
  | _ => false

def leaves : Instruction → Bool
  | .leaveCond => true
  | _ => false

end Instruction

/-- A namespace, and the flags kept for the ends of the open conditional regions, the innermost first. -/
structure Replay where
  known : Namespace := {}
  kept : List Bool := []

/-- There is no result when a region is left that was not entered. -/
def Replay.apply (r : Replay) : Instruction → Option Replay
  | .set name value => some { r with known := r.known.set name value }
  | .unset name => some { r with known := r.known.unset name }
  | .loseTrack => some { r with known := r.known.loseTrack }
  | .enterCond => some ⟨r.known.enterCond, r.known.conditional :: r.kept⟩
  | .leaveCond =>
    match r.kept with
    | [] => none
    | wasConditional :: kept => some ⟨r.known.leaveCond wasConditional, kept⟩

def replay (history : List Instruction) : Option Replay := history.foldlM Replay.apply {}

/-- The number of conditional regions around the point after the history. -/
def openRegions (history : List Instruction) : Nat :=
  history.countP Instruction.enters - history.countP Instruction.leaves

/-- At every point of the history, as many regions were entered as were left, or more. -/
def Nested (history : List Instruction) : Prop :=
  ∀ before, before <+: history → before.countP Instruction.leaves ≤ before.countP Instruction.enters

/-- The last write of the variable is an assignment of the value, outside of all conditional regions. -/
def LastWrite (history : List Instruction) (name : Ident) (v : Value) : Prop :=
  ∃ before after, history = before ++ .set name (some v) :: after ∧ openRegions before = 0 ∧
    ∀ i ∈ after, i.target? ≠ some name

variable {history : List Instruction} {i : Instruction} {name : Ident} {v : Value} {r : Replay}

/-! ### One instruction more -/

private theorem replay_snoc (history : List Instruction) (i : Instruction) :
    replay (history ++ [i]) = (replay history).bind fun r => r.apply i := by
  unfold replay
  rw [foldlM_append]
  cases foldlM Replay.apply {} history with
  | none => rfl
  | some r => exact bind_pure (r.apply i)

private theorem openRegions_snoc (h : Nested history) (i : Instruction) :
    openRegions (history ++ [i]) = openRegions history + (if i.enters then 1 else 0) -
      (if i.leaves then 1 else 0) := by
  have hle := h history prefix_rfl
  unfold openRegions
  rw [countP_append, countP_append, countP_singleton, countP_singleton]
  omega

private theorem nested_of_snoc (h : Nested (history ++ [i])) : Nested history := by
  intro before hbefore
  exact h before (hbefore.trans (prefix_append history [i]))

private theorem openRegions_pos_of_leaves (h : Nested (history ++ [i])) (hi : i.leaves = true)
    (henters : i.enters = false) :
    0 < openRegions history := by
  have hle := h (history ++ [i]) prefix_rfl
  rw [countP_append, countP_append, countP_singleton, countP_singleton, if_pos hi, henters] at hle
  simp only [Bool.false_eq_true, if_false] at hle
  unfold openRegions
  omega

private theorem lastWrite_snoc : LastWrite (history ++ [i]) name v ↔
    (i = .set name (some v) ∧ openRegions history = 0) ∨ (i.target? ≠ some name ∧ LastWrite history name v) := by
  constructor
  · rintro ⟨before, after, heq, hopen, hafter⟩
    rcases eq_nil_or_concat after with rfl | ⟨rest, last, rfl⟩
    · obtain ⟨rfl, hi⟩ := append_inj' heq rfl
      cases hi
      exact .inl ⟨rfl, hopen⟩
    · rw [concat_eq_append, ← cons_append, ← append_assoc] at heq
      obtain ⟨rfl, hi⟩ := append_inj' heq rfl
      cases hi
      exact .inr ⟨hafter i (by simp), before, rest, rfl, hopen, fun j hj => hafter j (by simp [hj])⟩
  · rintro (⟨rfl, hopen⟩ | ⟨hi, before, after, rfl, hopen, hafter⟩)
    · exact ⟨history, [], rfl, hopen, by simp⟩
    · refine ⟨before, after ++ [i], by simp, hopen, fun j hj => ?_⟩
      rcases mem_append.mp hj with hj | hj
      · exact hafter j hj
      · rwa [mem_singleton.mp hj]

/-! ### What the namespace says of its history -/

/-- The flags are those of nested regions; track was lost in the history if it is lost; and the values are those of
the last writes, as long as it is not. -/
structure Replay.Reflects (r : Replay) (history : List Instruction) : Prop where
  flags : r.known.conditional :: r.kept = replicate (openRegions history) true ++ [false]
  unknown : r.known.unknown = true ↔ .loseTrack ∈ history
  values : ∀ name v, r.known.values.lookup name = some v ↔ .loseTrack ∉ history ∧ LastWrite history name v

namespace Replay.Reflects

private theorem conditional (h : r.Reflects history) : r.known.conditional = decide (0 < openRegions history) := by
  have hflags := h.flags
  cases hopen : openRegions history with
  | zero =>
    rw [hopen] at hflags
    simpa using (cons.inj hflags).1
  | succ depth =>
    rw [hopen, replicate_succ, cons_append] at hflags
    simpa using (cons.inj hflags).1

private theorem lookup_of_unknown (h : r.Reflects history) (hunknown : r.known.unknown = true) (name : Ident) :
    r.known.values.lookup name = none := by
  rw [Option.eq_none_iff_forall_ne_some]
  intro v hv
  exact ((h.values name v).mp hv).1 (h.unknown.mp hunknown)

/-- A write, of a known value or of none. -/
private theorem write (h : r.Reflects history) (hnested : Nested history) {value : Option Value}
    (hi : i = .set name value ∨ i = .unset name ∧ value = none) :
    ({ r with known := r.known.set name value } : Replay).Reflects (history ++ [i]) := by
  have hkind : i.enters = false ∧ i.leaves = false ∧ i ≠ .loseTrack ∧ i.target? = some name := by
    rcases hi with rfl | ⟨rfl, -⟩ <;> exact ⟨rfl, rfl, by simp, rfl⟩
  obtain ⟨henters, hleaves, htrack, htarget⟩ := hkind
  have hlost : .loseTrack ∈ history ++ [i] ↔ .loseTrack ∈ history := by simp [htrack.symm]
  refine ⟨?_, ?_, fun id v => ?_⟩
  · rw [openRegions_snoc hnested, henters, hleaves, conditional_set]
    exact h.flags
  · rw [hlost, unknown_set]
    exact h.unknown
  · rw [hlost, lastWrite_snoc, lookup_set _ _ _ _ fun hunknown => h.lookup_of_unknown hunknown id, htarget]
    by_cases hid : id = name
    case neg =>
      have hother : i ≠ .set id (some v) := by
        rintro rfl
        exact hid (Option.some.inj htarget)
      simp [hid, Ne.symm hid, hother, h.values]
    case pos =>
      subst hid
      have hset : i = .set id (some v) ↔ value = some v := by
        rcases hi with rfl | ⟨rfl, rfl⟩ <;> simp
      have hcond : r.known.conditional = false ↔ openRegions history = 0 := by
        rw [h.conditional, decide_eq_false_iff_not, Nat.pos_iff_ne_zero, not_not]
      rw [← h.unknown, hset, ← hcond]
      cases r.known.unknown <;> cases r.known.conditional <;> simp

private theorem loseTrack (h : r.Reflects history) (hnested : Nested history) :
    ({ r with known := r.known.loseTrack } : Replay).Reflects (history ++ [.loseTrack]) := by
  refine ⟨?_, ?_, fun id v => ?_⟩
  · rw [openRegions_snoc hnested]
    exact h.flags
  · simp [Namespace.loseTrack]
  · simp [Namespace.loseTrack]

/-- Conditional regions change nothing but the flags. -/
private theorem region (h : r.Reflects history) (hi : i = .enterCond ∨ i = .leaveCond) {r' : Replay}
    (hunknown : r'.known.unknown = r.known.unknown) (hvalues : r'.known.values = r.known.values)
    (hflags : r'.known.conditional :: r'.kept = replicate (openRegions (history ++ [i])) true ++ [false]) :
    r'.Reflects (history ++ [i]) := by
  have hkind : i.target? = none ∧ i ≠ .loseTrack := by
    rcases hi with rfl | rfl <;> exact ⟨rfl, by simp⟩
  have hlost : .loseTrack ∈ history ++ [i] ↔ .loseTrack ∈ history := by simp [hkind.2.symm]
  refine ⟨hflags, ?_, fun id v => ?_⟩
  · rw [hlost, hunknown]
    exact h.unknown
  · have hset : i ≠ .set id (some v) := by
      rintro rfl
      cases hkind.1
    rw [hlost, hvalues, h.values, lastWrite_snoc]
    simp [hset, hkind.1]

end Replay.Reflects

/-- Every instruction of a nested history has a result, and the result reflects the longer history. -/
theorem Replay.Reflects.step (h : r.Reflects history) (hnested : Nested (history ++ [i])) :
    ∃ r', r.apply i = some r' ∧ r'.Reflects (history ++ [i]) := by
  have hbefore := nested_of_snoc hnested
  have hopen := openRegions_snoc hbefore i
  cases i with
  | set name value => exact ⟨_, rfl, h.write hbefore (.inl rfl)⟩
  | unset name => exact ⟨_, rfl, h.write hbefore (.inr ⟨rfl, rfl⟩)⟩
  | loseTrack => exact ⟨_, rfl, h.loseTrack hbefore⟩
  | enterCond =>
    refine ⟨_, rfl, h.region (.inl rfl) rfl rfl ?_⟩
    rw [hopen, h.flags]
    rfl
  | leaveCond =>
    have hpos := openRegions_pos_of_leaves hnested rfl rfl
    have hflags := h.flags
    obtain ⟨depth, hdepth⟩ := Nat.exists_eq_succ_of_ne_zero (Nat.ne_of_gt hpos)
    rw [hdepth, replicate_succ, cons_append] at hflags
    obtain ⟨-, hkept⟩ := cons.inj hflags
    cases hr : r.kept with
    | nil => simp [hr] at hkept
    | cons wasConditional kept =>
      refine ⟨⟨r.known.leaveCond wasConditional, kept⟩, ?_, h.region (.inr rfl) rfl rfl ?_⟩
      · rw [Replay.apply, hr]
      · rw [hopen, hdepth]
        exact hr.symm.trans hkept

private theorem Nested.reflects (h : Nested history) : ∃ r, replay history = some r ∧ r.Reflects history := by
  induction history using List.reverseRecOn with
  | nil =>
    refine ⟨{}, rfl, rfl, by simp, fun name v => ?_⟩
    simp [LastWrite]
  | append_singleton history i ih =>
    obtain ⟨r, hr, hreflects⟩ := ih (nested_of_snoc h)
    obtain ⟨r', hr', hreflects'⟩ := hreflects.step h
    refine ⟨r', ?_, hreflects'⟩
    rw [replay_snoc, hr, Option.bind_some, hr']

/-- A nested history can be replayed, and after it the namespace knows a value of a variable if and only if the point
is outside of all conditional regions, track was never lost, and the last write of the variable was the assignment of
that value outside of all conditional regions. -/
theorem get?_replay (history : List Instruction) (h : Nested history) : ∃ r, replay history = some r ∧
    ∀ name v, r.known.get? name = some v ↔
      openRegions history = 0 ∧ .loseTrack ∉ history ∧ LastWrite history name v := by
  obtain ⟨r, hr, hreflects⟩ := h.reflects
  refine ⟨r, hr, fun name v => ?_⟩
  rw [← hreflects.values, get?, hreflects.conditional]
  by_cases hopen : openRegions history = 0
  · simp [hopen]
  · simp [hopen, Nat.pos_of_ne_zero hopen]

/-- A value assigned before a conditional region is known after it, unless the region writes the variable. -/
theorem get?_replay_region :
    let history : List Instruction := [.set "x" (some (.int 1)), .set "y" (some (.int 2)), .enterCond,
      .set "x" (some (.int 1)), .enterCond, .unset "z", .leaveCond, .leaveCond]
    Nested history ∧ ∃ r, replay history = some r ∧ ∀ name v, r.known.get? name = some v ↔
      openRegions history = 0 ∧ .loseTrack ∉ history ∧ LastWrite history name v := by
  intro history
  have hinits : ∀ before ∈ history.inits,
      before.countP Instruction.leaves ≤ before.countP Instruction.enters := by decide
  have hnested : Nested history := fun before hbefore => hinits before ((mem_inits before history).mpr hbefore)
  exact ⟨hnested, get?_replay history hnested⟩

end Speculator.Namespace
