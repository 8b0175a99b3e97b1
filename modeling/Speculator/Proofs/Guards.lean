import Speculator.Guard

/-!
# Sets of guards

Guards on one subject are merged: sets of names are united, and the types of one argument are intersected.  So a set
has one guard for each subject, and it means the conjunction of all guards that were ever added to it, in any order
(`GuardSet.conjunction`).
-/

namespace Speculator

open List

namespace NameSet

private theorem mem_insert {name n names} : n ∈ insert name names ↔ n = name ∨ n ∈ names := by
  induction names with
  | nil => simp [insert]
  | cons first rest ih =>
    unfold insert
    split
    · rename_i h
      simp [h]
    · split
      · simp
      · simp only [mem_cons, ih]
        exact or_left_comm

private theorem mem_union {n a b} : n ∈ union a b ↔ n ∈ a ∨ n ∈ b := by
  unfold union
  induction b generalizing a with
  | nil => simp
  | cons name b ih =>
    rw [foldl_cons, ih, mem_insert, mem_cons, or_assoc]
    exact or_left_comm

end NameSet

def Guard.builtinNames : Guard → List Ident
  | .builtins names => names
  | _ => []

def GuardSet.builtinNames (s : GuardSet) : List Ident := s.guards.flatMap Guard.builtinNames

private theorem Guard.mem_builtinNames_merge {g h merged : Guard} (hm : g.merge? h = some merged) (n : Ident) :
    n ∈ merged.builtinNames ↔ n ∈ g.builtinNames ∨ n ∈ h.builtinNames := by
  unfold Guard.merge? at hm
  split at hm
  · cases hm
    exact NameSet.mem_union
  · cases hm
    simp [builtinNames]
  · split at hm
    · cases hm
      simp [builtinNames]
    · cases hm
  · cases hm

/-- Adding a guard to a set adds the builtin names that it watches and keeps the others. -/
theorem GuardSet.mem_builtinNames_add (s : GuardSet) (g : Guard) (n : Ident) :
    n ∈ (s.add g).builtinNames ↔ n ∈ s.builtinNames ∨ n ∈ g.builtinNames := by
  obtain ⟨guards⟩ := s
  unfold builtinNames add
  induction guards with
  | nil => simp [insert]
  | cons h rest ih =>
    unfold insert
    split
    · rename_i merged hm
      simp only [flatMap_cons, mem_append, Guard.mem_builtinNames_merge hm]
      exact or_right_comm
    · simp only [flatMap_cons, mem_append] at ih ⊢
      rw [ih, or_assoc]

/-! ### What guards check -/

/-- What a function finds when it is called. -/
structure Runtime where
  changedBuiltins : Ident → Prop
  changedGlobals : Ident → Prop
  /-- The name of the type of the argument at a position. -/
  argType : Nat → Ident

/-- What a guard is about. -/
inductive Subject where
  | builtins
  | globals
  | argument (position : Nat)
deriving DecidableEq

namespace Guard

def subject : Guard → Subject
  | builtins _ => .builtins
  | globals _ => .globals
  | argType position _ => .argument position

def Holds (r : Runtime) : Guard → Prop
  | builtins names => ∀ name ∈ names, ¬r.changedBuiltins name
  | globals names => ∀ name ∈ names, ¬r.changedGlobals name
  | argType position types => r.argType position ∈ types

private theorem subject_merge {g h merged : Guard} (hm : g.merge? h = some merged) :
    merged.subject = g.subject ∧ h.subject = g.subject := by
  unfold merge? at hm
  split at hm
  · cases hm
    exact ⟨rfl, rfl⟩
  · cases hm
    exact ⟨rfl, rfl⟩
  · split at hm
    · rename_i heq
      cases hm
      exact ⟨rfl, congrArg Subject.argument heq.symm⟩
    · cases hm
  · cases hm

private theorem subject_ne_of_merge {g h : Guard} (hm : g.merge? h = none) : h.subject ≠ g.subject := by
  cases g <;> cases h <;> simp_all [merge?, subject, eq_comm]

private theorem holds_merge {g h merged : Guard} (hm : g.merge? h = some merged) (r : Runtime) :
    merged.Holds r ↔ g.Holds r ∧ h.Holds r := by
  unfold merge? at hm
  split at hm
  case h_1 | h_2 =>
    cases hm
    simp only [Holds, NameSet.mem_union, or_imp, forall_and]
  · split at hm
    · rename_i heq
      cases hm
      simp [Holds, NameSet.inter, heq]
    · cases hm
  · cases hm

end Guard

namespace GuardSet

def subjects (s : GuardSet) : List Subject := s.guards.map Guard.subject

def Holds (r : Runtime) (s : GuardSet) : Prop := ∀ g ∈ s.guards, g.Holds r

private theorem subjects_add (s : GuardSet) (g : Guard) :
    (s.add g).subjects = if g.subject ∈ s.subjects then s.subjects else s.subjects ++ [g.subject] := by
  obtain ⟨guards⟩ := s
  unfold subjects add
  induction guards with
  | nil => rfl
  | cons h rest ih =>
    unfold insert
    split
    · rename_i merged hm
      simp [Guard.subject_merge hm]
    · rename_i hm
      simp only [map_cons, mem_cons, Guard.subject_ne_of_merge hm, false_or] at ih ⊢
      rw [ih]
      split <;> rfl

private theorem nodup_subjects_add {s : GuardSet} (hs : s.subjects.Nodup) (g : Guard) : (s.add g).subjects.Nodup := by
  rw [subjects_add]
  split
  · exact hs
  · rename_i hnew
    exact nodup_append.mpr ⟨hs, by simp, fun a ha b hb => by
      rw [mem_singleton.mp hb]
      exact fun heq => hnew (heq ▸ ha)⟩

private theorem holds_add (r : Runtime) (s : GuardSet) (g : Guard) : (s.add g).Holds r ↔ s.Holds r ∧ g.Holds r := by
  obtain ⟨guards⟩ := s
  unfold Holds add
  induction guards with
  | nil => simp [insert]
  | cons h rest ih =>
    unfold insert
    split
    · rename_i merged hm
      simp only [forall_mem_cons, Guard.holds_merge hm]
      exact and_right_comm
    · simp only [forall_mem_cons] at ih ⊢
      rw [ih, and_assoc]

private theorem nodup_subjects_extend {s : GuardSet} (hs : s.subjects.Nodup) (t : GuardSet) :
    (s.extend t).subjects.Nodup := by
  unfold extend
  induction t.guards generalizing s with
  | nil => exact hs
  | cons g rest ih => exact ih (nodup_subjects_add hs g)

private theorem holds_extend (r : Runtime) (s t : GuardSet) : (s.extend t).Holds r ↔ s.Holds r ∧ t.Holds r := by
  obtain ⟨guards⟩ := t
  unfold extend
  induction guards generalizing s with
  | nil => simp [Holds]
  | cons g rest ih =>
    rw [foldl_cons, ih, holds_add, and_assoc]
    simp [Holds]

/-- How a set of guards was built. -/
inductive History where
  | empty
  | add (past : History) (g : Guard)
  /-- Adds the guards of a set with a history of its own. -/
  | extend (past other : History)

namespace History

def result : History → GuardSet
  | empty => GuardSet.empty
  | add past g => past.result.add g
  | extend past other => past.result.extend other.result

/-- All the guards that were ever added, also to the sets whose guards were added. -/
def added : History → List Guard
  | empty => []
  | add past g => past.added ++ [g]
  | extend past other => past.added ++ other.added

private theorem nodup_subjects : (h : History) → h.result.subjects.Nodup
  | empty => nodup_nil
  | add past g => nodup_subjects_add past.nodup_subjects g
  | extend past other => nodup_subjects_extend past.nodup_subjects other.result

private theorem holds_result (r : Runtime) : (h : History) → h.result.Holds r ↔ ∀ g ∈ h.added, g.Holds r
  | empty => by simp [result, added, Holds, GuardSet.empty]
  | add past g => by simp [result, added, holds_add, holds_result r past, or_imp, forall_and]
  | extend past other => by
    simp [result, added, holds_extend, holds_result r past, holds_result r other, or_imp, forall_and]

end History

/-- A set of guards has at most one guard on each subject, and it lets a call through if and only if all the guards
ever added do; so the order in which guards are added does not matter. -/
theorem conjunction (h : History) :
    h.result.subjects.Nodup ∧ (∀ r, h.result.Holds r ↔ ∀ g ∈ h.added, g.Holds r) ∧
      ∀ h' : History, h'.added.Perm h.added → ∀ r, h'.result.Holds r ↔ h.result.Holds r := by
  refine ⟨h.nodup_subjects, fun r => h.holds_result r, fun h' hperm r => ?_⟩
  rw [h'.holds_result, h.holds_result]
  exact forall_congr' fun g => by rw [hperm.mem_iff]

/-- Types given twice for one argument, the second time in a set of its own. -/
theorem conjunction_argType :
    let types := History.add (.add .empty (.builtins ["len"])) (.argType 0 ["float", "int"])
    let h := History.extend (.add .empty (.argType 0 ["int", "str"])) types
    let h' := History.add types (.argType 0 ["int", "str"])
    h'.added.Perm h.added ∧ h.result.guards = [.argType 0 ["int"], .builtins ["len"]] ∧
      ∀ r, h'.result.Holds r ↔ h.result.Holds r := by
  intro types h h'
  have hperm : h'.added.Perm h.added := by decide
  exact ⟨hperm, by decide, (conjunction h).2.2 h' hperm⟩

end GuardSet

end Speculator
