import Speculator.Proofs.Equality
import Speculator.Proofs.Literals

/-!
# Building sets and dictionaries

A set built from a list of values is a finite set, and a dictionary built from a list of pairs is a finite map
(`Value.collect_laws`): of equal items the first one is kept, and of pairs with equal keys the first key and the last
value.  Equal items may be of different types, and a NaN is equal to no item, so that every one is kept.
-/

namespace Speculator

open List

private theorem foldlM_checked {α β ε : Type} {check : α → Bool} {f : β → α → β} {e : ε} (as : List α) (b : β) :
    as.foldlM (fun b a => if check a then .ok (f b a) else .error e) b =
      if as.all check then Except.ok (as.foldl f b) else .error e := by
  induction as generalizing b with
  | nil => rfl
  | cons a as ih =>
    rw [foldlM_cons, all_cons, foldl_cons]
    cases check a with
    | true => exact ih (f b a)
    | false => rfl

namespace Value

/-! ### The first of equal items -/

/-- The items to which no item before them is equal, nor one of the items seen earlier. -/
def firsts (seen : List Value) : List Value → List Value
  | [] => []
  | v :: vs => if seen.any fun w => w.equals v then firsts (seen ++ [v]) vs else v :: firsts (seen ++ [v]) vs

private theorem firsts_sublist (seen vs : List Value) : (firsts seen vs).Sublist vs := by
  induction vs generalizing seen with
  | nil => exact Sublist.refl []
  | cons v vs ih =>
    rw [firsts]
    split
    · exact (ih _).cons v
    · exact (ih _).cons_cons v

section Items

variable {items vs : List Value} (hitems : ∀ w ∈ items, w.Proper)
include hitems

private theorem any_insertItem {v q} (hv : v.Proper) (hq : q.Proper) :
    ((insertItem items v).any fun w => w.equals q) = ((items.any fun w => w.equals q) || v.equals q) := by
  unfold insertItem
  split
  case isTrue hmem =>
    obtain ⟨w, hw, hwv⟩ := any_eq_true.mp hmem
    rw [Bool.eq_iff_iff, Bool.or_eq_true, any_eq_true, iff_self_or]
    intro hvq
    exact ⟨w, hw, partialEquivalence_proper.trans (hitems w hw) hv hq hwv hvq⟩
  case isFalse => simp

private theorem proper_insertItem {v} (hv : v.Proper) : ∀ w ∈ insertItem items v, w.Proper := by
  intro w hw
  rcases mem_insertItem hw with hw | rfl
  · exact hitems w hw
  · exact hv

private theorem any_foldl_insertItem {q} (hvs : ∀ v ∈ vs, v.Proper) (hq : q.Proper) :
    ((vs.foldl insertItem items).any fun w => w.equals q) =
      ((items.any fun w => w.equals q) || vs.any fun w => w.equals q) := by
  induction vs generalizing items with
  | nil => simp
  | cons v vs ih =>
    obtain ⟨hv, hvs⟩ := forall_mem_cons.mp hvs
    rw [foldl_cons, ih (proper_insertItem hitems hv) hvs, any_insertItem hitems hv hq, any_cons, Bool.or_assoc]

private theorem foldl_insertItem {seen}
    (hseen : ∀ q : Value, q.Proper → (items.any fun w => w.equals q) = seen.any fun w => w.equals q)
    (hvs : ∀ v ∈ vs, v.Proper) : vs.foldl insertItem items = items ++ firsts seen vs := by
  induction vs generalizing items seen with
  | nil => simp [firsts]
  | cons v vs ih =>
    obtain ⟨hv, hvs⟩ := forall_mem_cons.mp hvs
    have hnext : ∀ q : Value, q.Proper →
        ((insertItem items v).any fun w => w.equals q) = (seen ++ [v]).any fun w => w.equals q := by
      intro q hq
      rw [any_insertItem hitems hv hq, hseen q hq]
      simp
    rw [foldl_cons, ih (proper_insertItem hitems hv) hnext hvs, firsts, insertItem, hseen v hv]
    split <;> simp

end Items

private theorem collectSet_eq (vs : List Value) :
    collectSet vs = if vs.all isHashable then .ok (vs.foldl insertItem []) else .error .typeError :=
  foldlM_checked vs []

section Collected

variable {vs : List Value} (hvs : ∀ v ∈ vs, v.Proper) (hhash : ∀ v ∈ vs, v.isHashable = true)

include hhash in
private theorem distinct_foldl_insertItem : Distinct (vs.foldl insertItem []) := by
  have hok : collectSet vs = .ok (vs.foldl insertItem []) := by
    rw [collectSet_eq, if_pos (all_eq_true.mpr hhash)]
  exact (collectSet_ok hok).1

include hvs in
private theorem foldl_insertItem_nil : vs.foldl insertItem [] = firsts [] vs :=
  foldl_insertItem (by simp) (fun _ _ => rfl) hvs

include hvs hhash in
private theorem pairwise_foldl_insertItem :
    (vs.foldl insertItem []).Pairwise fun v w => v.equals w = false ∧ w.equals v = false := by
  have hproper : ∀ v ∈ vs.foldl insertItem [], v.Proper := by
    rw [foldl_insertItem_nil hvs]
    exact fun v hv => hvs v ((firsts_sublist [] vs).subset hv)
  refine (distinct_foldl_insertItem hhash).2.imp_of_mem fun {v w} hv hw hne => ⟨hne, ?_⟩
  refine Bool.eq_false_iff.mpr fun heq => ?_
  rw [partialEquivalence_proper.symm (hproper w hw) (hproper v hv) heq] at hne
  cases hne

end Collected

/-! ### The last of equal keys -/

def entryAt? (entries : List (Value × Value)) (q : Value) : Option Value :=
  (entries.find? fun p => p.1.equals q).map Prod.snd

def last? (ps : List (Value × Value)) (q : Value) : Option Value := entryAt? ps.reverse q

private theorem entryAt?_cons (k v : Value) (entries : List (Value × Value)) (q : Value) :
    entryAt? ((k, v) :: entries) q = if k.equals q then some v else entryAt? entries q := by
  unfold entryAt?
  rw [find?_cons]
  cases k.equals q <;> rfl

private theorem last?_cons (p : Value × Value) (ps : List (Value × Value)) (q : Value) :
    last? (p :: ps) q = (last? ps q).or (if p.1.equals q then some p.2 else Option.none) := by
  unfold last? entryAt?
  rw [reverse_cons, find?_append, find?_singleton, Option.map_or]
  cases p.1.equals q <;> rfl

private theorem subscript_dict {entries q} (hq : q.isHashable = true) :
    subscript (.dict entries) q = (entryAt? entries q).elim (.error .keyError) .ok := by
  simp only [subscript, hq, if_true, entryAt?]
  cases entries.find? fun p => p.1.equals q <;> rfl

def insertEntries (entries ps : List (Value × Value)) : List (Value × Value) :=
  ps.foldl (fun entries p => insertEntry entries p.1 p.2) entries

private theorem collectDict_eq (ps : List (Value × Value)) :
    collectDict ps = if ps.all fun p => p.1.isHashable then .ok (insertEntries [] ps) else .error .typeError :=
  foldlM_checked ps []

private theorem keys_insertEntries (entries ps : List (Value × Value)) :
    (insertEntries entries ps).map Prod.fst = (ps.map Prod.fst).foldl insertItem (entries.map Prod.fst) := by
  induction ps generalizing entries with
  | nil => rfl
  | cons p ps ih => exact (ih _).trans (by rw [keys_insertEntry, map_cons, foldl_cons])

section Entries

variable {entries ps : List (Value × Value)} {q : Value} (hentries : ∀ p ∈ entries, p.1.Proper) (hq : q.Proper)
include hentries

private theorem proper_insertEntry {k v} (hk : k.Proper) : ∀ p ∈ insertEntry entries k v, p.1.Proper := by
  have hkeys : ∀ w ∈ (insertEntry entries k v).map Prod.fst, w.Proper := by
    rw [keys_insertEntry]
    exact proper_insertItem (by simpa using hentries) hk
  simpa using hkeys

include hq

private theorem entryAt?_insertEntry {k v} (hk : k.Proper) :
    entryAt? (insertEntry entries k v) q = if k.equals q then some v else entryAt? entries q := by
  induction entries with
  | nil => exact entryAt?_cons k v [] q
  | cons p entries ih =>
    obtain ⟨k', v'⟩ := p
    obtain ⟨hp, hrest⟩ := forall_mem_cons.mp hentries
    rw [insertEntry]
    split
    case isTrue hkk' =>
      rw [entryAt?_cons, entryAt?_cons, equals_congr hp hk hq hkk']
      split <;> rfl
    case isFalse hkk' =>
      rw [entryAt?_cons, entryAt?_cons, ih hrest]
      -- the searched key is not equal to two keys that differ
      by_cases hk'q : k'.equals q = true
      · have hkq : k.equals q = false := by
          refine Bool.eq_false_iff.mpr fun hkq => hkk' ?_
          exact partialEquivalence_proper.trans hp hq hk hk'q (partialEquivalence_proper.symm hk hq hkq)
        rw [if_pos hk'q, if_pos hk'q, hkq]
        rfl
      · rw [if_neg hk'q, if_neg hk'q]

private theorem entryAt?_insertEntries (hps : ∀ p ∈ ps, p.1.Proper) :
    entryAt? (insertEntries entries ps) q = (last? ps q).or (entryAt? entries q) := by
  induction ps generalizing entries with
  | nil => rfl
  | cons p ps ih =>
    obtain ⟨hp, hps⟩ := forall_mem_cons.mp hps
    have hstep : insertEntries entries (p :: ps) = insertEntries (insertEntry entries p.1 p.2) ps := rfl
    rw [hstep, ih (proper_insertEntry hentries hp) hps, entryAt?_insertEntry hentries hq hp, last?_cons,
      Option.or_assoc]
    congr 1
    split <;> rfl

end Entries

/-! ### The laws -/

private theorem checked_eq_error_iff {α β : Type} {check : α → Bool} {as : List α} {b : β} :
    (if as.all check then Except.ok b else .error Fault.typeError) = .error .typeError ↔
    ∃ a ∈ as, check a = false := by
  cases h : as.all check with
  | true => simpa using all_eq_true.mp h
  | false => simpa using h

/-- A set built from values is a finite set, and a dictionary built from pairs is a finite map. -/
theorem collect_laws {xs : List Value} {ps : List (Value × Value)} (hxs : ∀ x ∈ xs, x.Proper)
    (hps : ∀ p ∈ ps, p.1.Proper) :
    (collectSet xs = .error .typeError ↔ ∃ x ∈ xs, x.isHashable = false) ∧
      (collectDict ps = .error .typeError ↔ ∃ p ∈ ps, p.1.isHashable = false) ∧
      ((∀ x ∈ xs, x.isHashable = true) → ∃ items, collectSet xs = .ok items ∧ items.Sublist xs ∧
        items = firsts [] xs ∧ items.Pairwise (fun x y => x.equals y = false ∧ y.equals x = false) ∧
        (∀ q : Value, q.Proper → q.isHashable = true →
          contains (.set items) q = .ok (xs.any fun x => x.equals q)) ∧
        collectSet items = .ok items) ∧
      ((∀ p ∈ ps, p.1.isHashable = true) → ∃ entries, collectDict ps = .ok entries ∧
        entries.map Prod.fst = firsts [] (ps.map Prod.fst) ∧
        (entries.map Prod.fst).Pairwise (fun x y => x.equals y = false ∧ y.equals x = false) ∧
        (∀ q : Value, q.Proper → q.isHashable = true →
          subscript (.dict entries) q = (last? ps q).elim (.error .keyError) .ok) ∧
        collectDict entries = .ok entries) := by
  rw [collectSet_eq, collectDict_eq]
  refine ⟨checked_eq_error_iff, checked_eq_error_iff, fun hhash => ?_, fun hhash => ?_⟩
  · refine ⟨xs.foldl insertItem [], if_pos (List.all_eq_true.mpr hhash), ?_, foldl_insertItem_nil hxs,
      pairwise_foldl_insertItem hxs hhash, fun q hq hhashq => ?_,
        collectSet_of_distinct (distinct_foldl_insertItem hhash)⟩
    · rw [foldl_insertItem_nil hxs]
      exact firsts_sublist [] xs
    · rw [contains, if_pos hhashq, any_foldl_insertItem (by simp) hxs hq]
      rfl
  · have hkeys : ∀ k ∈ ps.map Prod.fst, k.Proper := by simpa using hps
    have hhashes : ∀ k ∈ ps.map Prod.fst, k.isHashable = true := by simpa using hhash
    have heq : (insertEntries [] ps).map Prod.fst = (ps.map Prod.fst).foldl insertItem [] := keys_insertEntries [] ps
    refine ⟨insertEntries [] ps, if_pos (List.all_eq_true.mpr hhash), ?_, ?_, fun q hq hhashq => ?_,
      collectDict_of_distinct ?_⟩
    · rw [heq, foldl_insertItem_nil hkeys]
    · rw [heq]
      exact pairwise_foldl_insertItem hkeys hhashes
    · have hentry : entryAt? (insertEntries [] ps) q = (last? ps q).or Option.none :=
        entryAt?_insertEntries (by simp) hq hps
      rw [subscript_dict hhashq, hentry, Option.or_none]
    · rw [heq]
      exact distinct_foldl_insertItem hhashes

/-- The set of `1, 1.0, (True,), (1,)` and the dictionary of `(1, 'a'), ((2,), 'b'), (True, 'c')`. -/
theorem collect_laws_numbers :
    let one : Value := .int 1
    let pair : Value := .tuple [.int 2]
    (∃ items, collectSet [one, .float 1.0, .tuple [.bool true], .tuple [one]] = .ok items ∧
        contains (.set items) (.tuple [.float 1.0]) = .ok true) ∧
      ∃ entries, collectDict [(one, .str "a"), (pair, .str "b"), (.bool true, .str "c")] = .ok entries ∧
        entries.map Prod.fst = [one, pair] ∧ subscript (.dict entries) (.float 1.0) = .ok (.str "c") := by
  intro one pair
  have hxs : ∀ x ∈ [one, .float 1.0, .tuple [.bool true], .tuple [one]], x.Proper ∧ x.isHashable = true := by
    decide +kernel
  have hps : ∀ p ∈ [(one, Value.str "a"), (pair, .str "b"), (.bool true, .str "c")],
      p.1.Proper ∧ p.1.isHashable = true := by decide +kernel
  obtain ⟨-, -, hset, hdict⟩ := collect_laws (fun x hx => (hxs x hx).1) fun p hp => (hps p hp).1
  obtain ⟨items, hitems, -, -, -, hcontains, -⟩ := hset fun x hx => (hxs x hx).2
  obtain ⟨entries, hentries, hkeys, -, hvalue, -⟩ := hdict fun p hp => (hps p hp).2
  have hmember : ([one, .float 1.0, .tuple [.bool true], .tuple [one]].any fun x =>
      x.equals (.tuple [.float 1.0])) = true := by decide +kernel
  have hpair : one.equals pair = false := by decide +kernel
  have htrue : one.equals (.bool true) = true := by decide +kernel
  have hlast : (bool true).equals (.float 1.0) = true := by decide +kernel
  refine ⟨⟨items, hitems, ?_⟩, entries, hentries, ?_, ?_⟩
  · rw [hcontains _ (by decide +kernel) (by decide +kernel), hmember]
  · rw [hkeys]
    simp [firsts, hpair, htrue]
  · rw [hvalue _ (by decide +kernel) (by decide +kernel)]
    simp [last?, entryAt?, hlast]

/-- With equal keys in dictionaries equality is not symmetric, and a dictionary can be built with a key that is equal
to one before it. -/
theorem collect_equal_keys :
    let once : Value := .frozenSet [.dict [(.int 1, .int 2), (.int 5, .int 6)]]
    let twice : Value := .frozenSet [.dict [(.int 1, .int 2), (.int 1, .int 2)]]
    let entries : List (Value × Value) := [(once, .int 1), (twice, .int 2)]
    (∀ p ∈ entries, p.1.isHashable = true ∧
        p.1.Everywhere fun w => (w.members?.all fun items => items.length == 1) = true) ∧
      collectDict entries = .ok entries ∧ twice.equals once = true ∧
        subscript (.dict entries) once = .ok (.int 1) := by
  intro once twice entries
  have hdistinct : Distinct (entries.map Prod.fst) := by
    constructor <;> decide +kernel
  have honce : once.equals once = true := by decide +kernel
  refine ⟨by decide +kernel, collectDict_of_distinct hdistinct, by decide +kernel, ?_⟩
  rw [subscript_dict (by decide +kernel), entryAt?_cons, if_pos honce]
  rfl

/-! ### Reading values from their expressions -/

/-- Lists, sets and dictionaries are no constants. -/
def needsDisplay : Value → Bool
  | .list _ | .set _ | .dict _ => true
  | _ => false

private theorem isConstant_iff_parts {v : Value} :
    v.isConstant = true ↔ v.needsDisplay = false ∧ ∀ w ∈ v.parts, w.isConstant = true := by
  cases v with
  | tuple items | frozenSet items => simp [isConstant, needsDisplay, parts, allConstant_iff]
  | _ => simp [isConstant, needsDisplay, parts]

private theorem isConstant_iff_everywhere (v : Value) :
    v.isConstant = true ↔ v.Everywhere fun w => w.needsDisplay = false := by
  rw [isConstant_iff_parts, everywhere_iff]
  refine and_congr_right fun _ => forall₂_congr fun w hw => ?_
  have hlt := sizeOf_lt_of_mem_parts hw
  exact isConstant_iff_everywhere w
termination_by sizeOf v

/-- The expression of a value is read as that value, and it is a constant if and only if there is no list, set or
dictionary in the value. -/
theorem toExpr_read (v : Value) (hv : v.Regular true) (pos : Position) :
    (v.toExpr pos).literal? = some v ∧
      ((v.toExpr pos).constant? = some v ↔ v.Everywhere fun w => w.needsDisplay = false) := by
  refine ⟨literal?_toExpr true pos v hv, ?_⟩
  rw [constant?_toExpr, ← isConstant_iff_everywhere]
  simp

/-- A tuple with a set of a frozen set and a number, and a dictionary with a tuple as its key. -/
theorem toExpr_read_nested :
    let items : List Value := [.frozenSet [.int 1, .str "a"], .float 1.0]
    let pairs : List (Value × Value) := [(.tuple [.int 1], .list [.none]), (.int 1, .set items)]
    let v : Value := .tuple [.set items, .dict pairs]
    v.Regular true ∧ (v.toExpr ⟨1, 1⟩).literal? = some v ∧
      ((v.toExpr ⟨1, 1⟩).constant? = some v ↔ v.Everywhere fun w => w.needsDisplay = false) := by
  intro items pairs v
  have hitems : (Value.set items).Regular true := by
    refine ⟨rfl, ?_, by constructor <;> decide +kernel⟩
    simp [items, AllRegular, Regular, allConstant, isConstant]
  have hpairs : (Value.dict pairs).Regular true := by
    refine ⟨rfl, ?_, by constructor <;> decide +kernel⟩
    simpa [pairs, PairsRegular, AllRegular, Regular] using hitems
  have hv : v.Regular true := ⟨hitems, hpairs, trivial⟩
  exact ⟨hv, toExpr_read v hv ⟨1, 1⟩⟩

end Value

end Speculator
