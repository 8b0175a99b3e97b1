import Speculator.Proofs.Catalog
import Speculator.Proofs.Ordering

/-!
# Extremal candidates

The greatest and the least candidate are found in one pass that compares each candidate with the best one before it.
The result is the first one of the extremal candidates (`extremum_first`): no candidate is better, and none before it
is equal to it.
-/

namespace Speculator.Builtin

open List

open Value hiding none

/-! ### One pass over the candidates -/

section Order

variable {op : CompareOp} (hop : op = .gt ∨ op = .lt) {x y z : Value} (hx : x.Discrete) (hy : y.Discrete)
  (hz : z.Discrete)
include hop hx

private theorem not_better_self : Value.compare op x x ≠ .ok true := by
  intro h
  have hlt : Value.compare .lt x x = .ok true := by
    rcases hop with rfl | rfl
    · rw [← compare_gt_eq hx hx]
      exact h
    · exact h
  exact not_below_self hx ((compare_lt_iff hx hx).mp hlt)

include hy hz

private theorem better_trans (h : Value.compare op x y = .ok true) (h' : Value.compare op y z = .ok true) :
    Value.compare op x z = .ok true := by
  rcases hop with rfl | rfl
  · rw [compare_gt_eq hx hy, compare_lt_iff hy hx] at h
    rw [compare_gt_eq hy hz, compare_lt_iff hz hy] at h'
    rw [compare_gt_eq hx hz, compare_lt_iff hz hx]
    exact h'.trans hz hy hx h
  · rw [compare_lt_iff hx hy] at h
    rw [compare_lt_iff hy hz] at h'
    rw [compare_lt_iff hx hz]
    exact h.trans hx hy hz h'

private theorem better_congr (h : x.equals y = true) : Value.compare op x z = Value.compare op y z := by
  have horder : op.isOrder = true := by rcases hop with rfl | rfl <;> rfl
  rw [compare_eq_rank hx hz horder, compare_eq_rank hy hz horder, rank_congr hx hy hz h]

end Order

/-- The first candidate to which no candidate compares by `op`. -/
def FirstExtremum (op : CompareOp) (candidates : List Value) (v : Value) : Prop :=
  ∃ before after, candidates = before ++ v :: after ∧ v ∉ before ∧ (∀ c ∈ before, c.equals v = false) ∧
    ∀ c ∈ candidates, Value.compare op c v ≠ .ok true

variable {op : CompareOp} {v : Value} {args candidates : List Value} {name : String}

theorem FirstExtremum.step (hop : op = .gt ∨ op = .lt) {seen w}
    (hseen : ∀ c ∈ seen, c.Discrete) (hw : w.Discrete) (h : FirstExtremum op seen v) {better : Bool}
    (hbetter : Value.compare op w v = .ok better) : FirstExtremum op (seen ++ [w]) (if better then w else v) := by
  obtain ⟨before, after, rfl, hfirst, hapart, hmost⟩ := h
  have hv : v.Discrete := hseen v (by simp)
  cases better with
  | false =>
    refine ⟨before, after ++ [w], by simp, hfirst, hapart, fun c hc => ?_⟩
    rcases mem_append.mp hc with hc | hc
    · exact hmost c hc
    · rw [mem_singleton.mp hc, if_neg Bool.false_ne_true, hbetter]
      simp
  | true =>
    -- a candidate that was no better than `v` is neither equal to `w` nor better
    rw [if_pos rfl]
    refine ⟨_, [], rfl, fun hmem => hmost w hmem hbetter, fun c hc => ?_, fun c hc hcw => ?_⟩
    · refine Bool.eq_false_iff.mpr fun hequal => hmost c hc ?_
      rw [better_congr hop (hseen c hc) hw hv hequal]
      exact hbetter
    · rcases mem_append.mp hc with hc | hc
      · exact hmost c hc (better_trans hop (hseen c hc) hw hv hcw hbetter)
      · rw [mem_singleton.mp hc] at hcw
        exact not_better_self hop hw hcw

private theorem FirstExtremum.best (hop : op = .gt ∨ op = .lt) {seen rest r}
    (hseen : ∀ c ∈ seen, c.Discrete) (hrest : ∀ c ∈ rest, c.Discrete) (h : FirstExtremum op seen v)
    (hr : best op v rest = .ok r) : FirstExtremum op (seen ++ rest) r := by
  induction rest generalizing seen v with
  | nil =>
    cases hr
    rw [append_nil]
    exact h
  | cons w rest ih =>
    obtain ⟨hw, hrest⟩ := forall_mem_cons.mp hrest
    rw [Builtin.best] at hr
    split at hr
    · rename_i better hbetter
      have hnext := ih (by simpa [or_imp, forall_and] using ⟨hseen, hw⟩) hrest (h.step hop hseen hw hbetter) hr
      rw [append_assoc] at hnext
      exact hnext
    · cases hr

private theorem best_ok {rest} (h : ∀ c ∈ v :: rest, ∀ c' ∈ v :: rest, ∃ better, Value.compare op c c' = .ok better) :
    ∃ r, best op v rest = .ok r := by
  induction rest generalizing v with
  | nil => exact ⟨v, rfl⟩
  | cons w rest ih =>
    obtain ⟨better, hbetter⟩ := h w (by simp) v (by simp)
    rw [best, hbetter]
    have hmem : ∀ c ∈ (if better then w else v) :: rest, c ∈ v :: w :: rest := by
      cases better <;> simp +contextual [or_imp]
    exact ih fun c hc c' hc' => h c (hmem c hc) c' (hmem c' hc')

theorem FirstExtremum.first (hop : op = .gt ∨ op = .lt) (hv : v.Discrete) :
    FirstExtremum op [v] v := by
  refine ⟨[], [], rfl, by simp, by simp, fun c hc => ?_⟩
  rw [mem_singleton.mp hc]
  exact not_better_self hop hv

/-! ### The builtin functions -/

/-- Several arguments, or the items of a single one that has them in a known order. -/
inductive Candidates : List Value → List Value → Prop
  | several {args : List Value} (h : 1 < args.length) : Candidates args args
  | items {v : Value} {items : List Value} (h : v.items? false = some items) : Candidates [v] items

/-- The candidate with which the pass ends, if there are candidates and they can be compared. -/
def winner? (op : CompareOp) : List Value → Option Value
  | [] => none
  | v :: rest => (best op v rest).toOption

private theorem toOption_extremum (h : Candidates args candidates) :
    (extremum op args).toOption = winner? op candidates := by
  cases h with
  | several h =>
    rcases args with _ | ⟨v, _ | ⟨w, rest⟩⟩
    · cases h
    · exact absurd h (Nat.lt_irrefl 1)
    · rfl
  | @items v _ h =>
    have hitems : v.items? true = some candidates := by
      cases v with
      | frozenSet | set => cases h
      | _ => exact h
    rw [extremum, itemsOf, hitems]
    cases candidates <;> rfl

private theorem applies_candidates {tolerated} {call : List Value → Except Fault Value} {limits}
    (h : Candidates args candidates) :
    (⟨name, 1, none, [.any], some fun _ args => .ok (orderedCandidates args), tolerated, call⟩ : Contract).applies
      limits none args = true := by
  generalize hc : (⟨name, 1, none, [.any], _, tolerated, call⟩ : Contract) = c
  have htype : ∀ index, c.argType index = .any := by
    subst hc
    rintro (_ | index) <;> rfl
  have haccepts : ∀ index (vs : List Value), c.acceptsFrom index vs = true := by
    intro index vs
    induction vs generalizing index with
    | nil => rfl
    | cons v vs ih =>
      rw [Contract.acceptsFrom, htype, ih]
      rfl
  have hordered : orderedCandidates args = true := by
    cases h with
    | several h => simp [orderedCandidates, h]
    | @items v _ h =>
      cases v with
      | frozenSet | set => cases h
      | _ => rfl
  have htakes : c.takes args.length = true := by
    subst hc
    cases h with
    | several h => simp [Contract.takes, Nat.le_of_lt h]
    | items => rfl
  have hholds : c.holds limits args = .ok true := by
    subst hc
    exact congrArg Except.ok hordered
  rw [Contract.applies, htakes, haccepts]
  simp [hholds, Except.toOption]

private theorem evaluate_extremum (hname : name = "max" ∧ op = .gt ∨ name = "min" ∧ op = .lt) :
    ∃ contract, Catalog.standard.builtin? name = some contract ∧
      ∀ limits args candidates, Candidates args candidates →
      contract.evaluate limits none args = .ok (winner? op candidates) := by
  obtain ⟨contract, hcontract, happlies, hcall⟩ : ∃ contract, Catalog.standard.builtin? name = some contract ∧
      (∀ limits args candidates, Candidates args candidates → contract.applies limits none args = true) ∧
      contract.call = extremum op := by
    rcases hname with ⟨rfl, rfl⟩ | ⟨rfl, rfl⟩
    · exact ⟨_, rfl, fun _ _ _ h => applies_candidates h, rfl⟩
    · exact ⟨_, rfl, fun _ _ _ h => applies_candidates h, rfl⟩
  refine ⟨contract, hcontract, fun limits args candidates h => ?_⟩
  have hkeeps := keeps_contracts contract (Catalog.mem_contracts_of_standard hcontract) limits args
  rw [hkeeps.evaluate_eq, happlies limits args candidates h, if_pos rfl, hcall]
  exact congrArg Except.ok (toOption_extremum h)

/-- The greatest and the least candidate are the first extremal ones. -/
theorem extremum_first (hname : name = "max" ∧ op = .gt ∨ name = "min" ∧ op = .lt)
    (hargs : Candidates args candidates) (hcandidates : ∀ c ∈ candidates, c.Discrete) (limits : Limits) :
    ∃ contract, Catalog.standard.builtin? name = some contract ∧
      (candidates = [] → contract.evaluate limits none args = .ok none) ∧
      (candidates ≠ [] → (∀ c ∈ candidates, ∀ c' ∈ candidates, ∃ better, Value.compare op c c' = .ok better) →
        ∃ r, contract.evaluate limits none args = .ok (some r)) ∧
      ∀ r, contract.evaluate limits none args = .ok (some r) → FirstExtremum op candidates r := by
  have hop : op = .gt ∨ op = .lt := hname.imp And.right And.right
  obtain ⟨contract, hcontract, hevaluate⟩ := evaluate_extremum hname
  refine ⟨contract, hcontract, ?_⟩
  rw [hevaluate limits args candidates hargs]
  cases candidates with
  | nil =>
    refine ⟨fun _ => rfl, fun hne => absurd rfl hne, fun r hr => ?_⟩
    cases hr
  | cons v rest =>
    obtain ⟨hv, hrest⟩ := forall_mem_cons.mp hcandidates
    refine ⟨fun hnil => absurd hnil (cons_ne_nil v rest), fun _ hcompare => ?_, fun r hr => ?_⟩
    · obtain ⟨r, hr⟩ := best_ok hcompare
      refine ⟨r, ?_⟩
      rw [winner?, hr]
      rfl
    · have hbest : best op v rest = .ok r := by
        rw [winner?, Except.ok.injEq] at hr
        cases h : best op v rest with
        | error => rw [h] at hr; cases hr
        | ok w => rw [h] at hr; cases hr; rfl
      exact (FirstExtremum.first hop hv).best hop (by simpa using hv) hrest hbest

/-- The greatest one of `(1, {2})`, `(True, frozenset({2, 3}))`, `(1, {3, 2})` and `(1, {4})`. -/
theorem extremum_first_pairs :
    let candidates : List Value := [.tuple [.int 1, .set [.int 2]], .tuple [.bool true, .frozenSet [.int 2, .int 3]],
      .tuple [.int 1, .set [.int 3, .int 2]], .tuple [.int 1, .set [.int 4]]]
    ∃ contract, Catalog.standard.builtin? "max" = some contract ∧
      ∃ r, contract.evaluate {} none candidates = .ok (some r) ∧ FirstExtremum .gt candidates r := by
  intro candidates
  have hcandidates : ∀ c ∈ candidates, c.Discrete := by decide +kernel
  have hcompare : ∀ c ∈ candidates, ∀ c' ∈ candidates, ∃ better, Value.compare .gt c c' = .ok better := by
    decide +kernel
  obtain ⟨contract, hcontract, -, hsome, hfirst⟩ :=
    extremum_first (.inl ⟨rfl, rfl⟩) (.several (by decide)) hcandidates {}
  obtain ⟨r, hr⟩ := hsome (by simp [candidates]) hcompare
  exact ⟨contract, hcontract, r, hr, hfirst r hr⟩

/-- With equal keys in dictionaries equality is not transitive: `a` is equal to `b` and `b` to `c`, but not `a` to
`c`.  Then `(a, 3)` is not compared with `(c, 1)` by the numbers, and the pass ends with `(b, 2)`, which is less. -/
theorem extremum_equal_keys :
    let once : Value := .frozenSet [.dict [(.int 1, .int 2), (.int 5, .int 6)]]
    let twice : Value := .frozenSet [.dict [(.int 1, .int 2), (.int 1, .int 2)]]
    let other : Value := .frozenSet [.dict [(.int 1, .int 2), (.int 7, .int 8)]]
    let a : Value := .tuple [.frozenSet [.dict [(twice, .int 0), (once, .int 0)]], .int 3]
    let b : Value := .tuple [.frozenSet [.dict [(once, .int 0), (once, .int 0)]], .int 2]
    let c : Value := .tuple [.frozenSet [.dict [(other, .int 9), (once, .int 0)]], .int 1]
    (∀ v ∈ [a, b, c], v.Everywhere fun w =>
        (w.members?.all fun items => items.length == 1) = true ∧ isInexact w = false) ∧
      (∃ contract, Catalog.standard.builtin? "max" = some contract ∧
        contract.evaluate {} none [c, a, b] = .ok (some b)) ∧
      Value.compare .gt a b = .ok true := by
  intro once twice other a b c
  refine ⟨by decide +kernel, ?_, by decide +kernel⟩
  have hac : Value.compare .gt a c = .ok false := by decide +kernel
  have hbc : Value.compare .gt b c = .ok true := by decide +kernel
  obtain ⟨contract, hcontract, hevaluate⟩ := evaluate_extremum (.inl ⟨rfl, rfl⟩)
  refine ⟨contract, hcontract, ?_⟩
  rw [hevaluate {} _ _ (.several (by decide)), winner?, best, hac]
  dsimp only
  rw [if_neg Bool.false_ne_true, best, hbc]
  rfl

end Speculator.Builtin
