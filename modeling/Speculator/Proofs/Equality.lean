import Speculator.Proofs.Exactness
import Speculator.Proofs.Nodes

/-!
# Laws of equality

Equality of values as a program sees it is symmetric and transitive (`Value.equals_symm_trans`), across the types of
numbers and of sets and through all containers, when the sets and the dictionaries hold no equal items and no equal
keys (`Value.Proper`).  It is not reflexive, since a NaN differs from itself.

A set is compared by searching for each of its items in the other one.  That the search can be turned around is a
matter of counting: items that differ from each other are found at different places.
-/

namespace Speculator

open List

/-- Items that are related to different ones can be matched, one by one. -/
private theorem exists_matching {α β : Type} {R : α → β → Prop} {as : List α} {bs : List β}
    (hsome : ∀ a ∈ as, ∃ b ∈ bs, R a b)
    (hapart : as.Pairwise fun a a' => ∀ b ∈ bs, R a b → ¬R a' b) : ∃ bs', bs'.Subperm bs ∧ Forall₂ R as bs' := by
  induction as generalizing bs with
  | nil => exact ⟨[], nil_subperm, .nil⟩
  | cons a as ih =>
    obtain ⟨hfirst, hrest⟩ := pairwise_cons.mp hapart
    obtain ⟨b, hb, hab⟩ := hsome a mem_cons_self
    obtain ⟨front, back, rfl⟩ := append_of_mem hb
    have hmem : ∀ b', b' ∈ front ++ back → b' ∈ front ++ b :: back := by simp +contextual [or_imp]
    -- the other items are related to items other than `b`
    have hothers : ∀ a' ∈ as, ∃ b' ∈ front ++ back, R a' b' := by
      intro a' ha'
      obtain ⟨b', hb', hab'⟩ := hsome a' (mem_cons_of_mem _ ha')
      have hne : b' ≠ b := by
        rintro rfl
        exact hfirst a' ha' b' hb' hab hab'
      refine ⟨b', ?_, hab'⟩
      simpa [hne] using hb'
    obtain ⟨bs', hsub, hmatch⟩ := ih hothers (hrest.imp fun h b' hb' => h b' (hmem b' hb'))
    exact ⟨b :: bs', (subperm_cons b |>.mpr hsub).trans perm_middle.symm.subperm, .cons hab hmatch⟩

namespace Value

/-! ### The values inside of a value -/

def parts : Value → List Value
  | .tuple items | .frozenSet items | .list items | .set items => items
  | .dict pairs => pairs.flatMap fun p => [p.1, p.2]
  | _ => []

variable {v w : Value} {as bs : List Value}

theorem sizeOf_lt_of_mem_parts (h : w ∈ v.parts) : sizeOf w < sizeOf v := by
  cases v with
  | tuple items | frozenSet items | list items | set items =>
    have hlt : sizeOf w < sizeOf items := sizeOf_lt_of_mem h
    simp
    omega
  | dict pairs =>
    obtain ⟨⟨k, x⟩, hp, hw⟩ := mem_flatMap.mp h
    have hlt := sizeOf_lt_of_mem hp
    simp only [mem_cons, not_mem_nil, or_false] at hw
    rcases hw with rfl | rfl <;> simp at hlt ⊢ <;> omega
  | _ => cases h

private theorem forall_parts_dict {P : Value → Prop} {pairs} :
    (∀ w ∈ (dict pairs).parts, P w) ↔ (∀ p ∈ pairs, P p.1) ∧ ∀ p ∈ pairs, P p.2 := by
  simp only [parts, mem_flatMap, mem_cons, not_mem_nil, or_false]
  constructor
  · exact fun h => ⟨fun p hp => h _ ⟨p, hp, .inl rfl⟩, fun p hp => h _ ⟨p, hp, .inr rfl⟩⟩
  · rintro ⟨hkeys, hvalues⟩ w ⟨p, hp, rfl | rfl⟩
    · exact hkeys p hp
    · exact hvalues p hp

mutual

def nodes : Value → List Value
  | .tuple items => .tuple items :: nodesItems items
  | .frozenSet items => .frozenSet items :: nodesItems items
  | .list items => .list items :: nodesItems items
  | .set items => .set items :: nodesItems items
  | .dict pairs => .dict pairs :: nodesPairs pairs
  | v => [v]

def nodesItems : List Value → List Value
  | [] => []
  | v :: vs => v.nodes ++ nodesItems vs

def nodesPairs : List (Value × Value) → List Value
  | [] => []
  | (k, x) :: ps => k.nodes ++ x.nodes ++ nodesPairs ps

end

private theorem nodes_eq_parts (v : Value) : v.nodes = v :: v.parts.flatMap nodes := by
  have hitems : ∀ items, nodesItems items = items.flatMap nodes := by
    intro items
    induction items with
    | nil => rfl
    | cons v vs ih => rw [nodesItems, ih, flatMap_cons]
  have hpairs : ∀ pairs, nodesPairs pairs = (dict pairs).parts.flatMap nodes := by
    intro pairs
    induction pairs with
    | nil => rfl
    | cons p ps ih => simp [nodesPairs, ih, parts]
  cases v with
  | tuple items | frozenSet items | list items | set items => rw [nodes, hitems, parts]
  | dict pairs => rw [nodes, hpairs]
  | _ => rfl

/-- A property of the value and of all the values inside of it. -/
def Everywhere (p : Value → Prop) (v : Value) : Prop := ∀ w ∈ v.nodes, p w

instance {p : Value → Prop} [DecidablePred p] (v : Value) : Decidable (v.Everywhere p) :=
  inferInstanceAs (Decidable (∀ w ∈ v.nodes, p w))

theorem everywhere_iff {p : Value → Prop} : v.Everywhere p ↔ p v ∧ ∀ w ∈ v.parts, w.Everywhere p := by
  unfold Everywhere
  rw [nodes_eq_parts, forall_mem_cons, forall_mem_flatMap]

/-- The items of a set differ from each other, and the keys of a dictionary do. -/
def HoldsDistinct : Value → Prop
  | .frozenSet items | .set items => items.Pairwise fun v w => v.equals w = false
  | .dict pairs => pairs.Pairwise fun p q => p.1.equals q.1 = false
  | _ => True

instance : DecidablePred HoldsDistinct
  | .frozenSet items | .set items => inferInstanceAs (Decidable (items.Pairwise fun v w => v.equals w = false))
  | .dict pairs => inferInstanceAs (Decidable (pairs.Pairwise fun p q => p.1.equals q.1 = false))
  | .none | .ellipsis | .bool _ | .int _ | .float _ | .complex _ | .str _ | .bytes _ | .tuple _ | .list _ =>
    .isTrue trivial

/-- The sets in the value hold no equal items, and the dictionaries in it no equal keys. -/
abbrev Proper : Value → Prop := Everywhere HoldsDistinct

/-! ### Equal values -/

def members? : Value → Option (List Value)
  | .frozenSet items | .set items => some items
  | _ => Option.none

def isAtom : Value → Bool
  | .none | .ellipsis | .str _ | .bytes _ => true
  | _ => false

/-- The ways in which two values are equal. -/
inductive Equal : Value → Value → Prop
  | atom {v : Value} (h : v.isAtom = true) : Equal v v
  | number {v w : Value} {m n : Numeric} (hv : v.asNumeric? = some m) (hw : w.asNumeric? = some n)
      (h : m.equals n = true) : Equal v w
  | tuple {as bs : List Value} (h : Forall₂ (fun a b => a.equals b = true) as bs) : Equal (.tuple as) (.tuple bs)
  | list {as bs : List Value} (h : Forall₂ (fun a b => a.equals b = true) as bs) : Equal (.list as) (.list bs)
  | sets {v w : Value} {as bs : List Value} (hv : v.members? = some as) (hw : w.members? = some bs)
      (hlength : as.length = bs.length) (h : ∀ a ∈ as, ∃ b ∈ bs, a.equals b = true) : Equal v w
  | dict {as bs : List (Value × Value)} (hlength : as.length = bs.length) (h : equalsPairs as bs = true) :
      Equal (.dict as) (.dict bs)

private theorem equalsItems_iff :
    equalsItems as bs = true ↔ Forall₂ (fun a b => a.equals b = true) as bs := by
  induction as generalizing bs with
  | nil => cases bs <;> simp [equalsItems]
  | cons a as ih => cases bs <;> simp [equalsItems, ih]

theorem equalsSome_iff : equalsSome as bs = true ↔ ∀ a ∈ as, ∃ b ∈ bs, a.equals b = true := by
  induction as with
  | nil => simp [equalsSome]
  | cons a as ih => simp [equalsSome, ih]

private theorem equalsNumber_iff :
    equalsNumber v w = true ↔ ∃ m n, v.asNumeric? = some m ∧ w.asNumeric? = some n ∧ m.equals n = true := by
  unfold equalsNumber
  cases v.asNumeric? <;> cases w.asNumeric? <;> simp

theorem equals_iff : v.equals w = true ↔ Equal v w := by
  constructor
  · intro h
    rw [equals.eq_def] at h
    split at h
    case h_1 | h_2 => exact .atom rfl
    case h_3 | h_4 =>
      rw [beq_iff_eq.mp h]
      exact .atom rfl
    case h_5 => exact .tuple (equalsItems_iff.mp h)
    case h_6 => exact .list (equalsItems_iff.mp h)
    case h_7 | h_8 | h_9 | h_10 =>
      rw [Bool.and_eq_true, beq_iff_eq, equalsSome_iff] at h
      exact .sets rfl rfl h.1 h.2
    case h_11 =>
      rw [Bool.and_eq_true, beq_iff_eq] at h
      exact .dict h.1 h.2
    case h_12 =>
      obtain ⟨m, n, hv, hw, hmn⟩ := equalsNumber_iff.mp h
      exact .number hv hw hmn
  · intro h
    cases h with
    | atom h =>
      cases v with
      | none | ellipsis | str | bytes => simp [equals]
      | _ => cases h
    | number hv hw h =>
      have hnumber : equalsNumber v w = true := equalsNumber_iff.mpr ⟨_, _, hv, hw, h⟩
      cases v with
      | bool | int | float | complex => simpa [equals] using hnumber
      | _ => cases hv
    | tuple h | list h =>
      rw [equals]
      exact equalsItems_iff.mpr h
    | sets hv hw hlength h =>
      cases v with
      | frozenSet | set =>
        cases w with
        | frozenSet | set =>
          cases hv
          cases hw
          simp only [equals, hlength, beq_self_eq_true, Bool.true_and, equalsSome_iff]
          exact h
        | _ => cases hw
      | _ => cases hv
    | dict hlength h => simp [equals, hlength, h]

/-! ### Partial equivalence -/

/-- Equality is symmetric and transitive among the values with a property. -/
structure PartialEquivalence (p : Value → Prop) : Prop where
  symm : ∀ {v w}, p v → p w → v.equals w = true → w.equals v = true
  trans : ∀ {u v w}, p u → p v → p w → u.equals v = true → v.equals w = true → u.equals w = true

section Steps

variable {p : Value → Prop} (hp : PartialEquivalence p)
include hp

private theorem forall₂_equals_symm (has : ∀ a ∈ as, p a) (hbs : ∀ b ∈ bs, p b)
    (h : Forall₂ (fun a b => a.equals b = true) as bs) : Forall₂ (fun b a => b.equals a = true) bs as := by
  induction h with
  | nil => exact .nil
  | cons hab _ ih =>
    obtain ⟨ha, has⟩ := forall_mem_cons.mp has
    obtain ⟨hb, hbs⟩ := forall_mem_cons.mp hbs
    exact .cons (hp.symm ha hb hab) (ih has hbs)

private theorem forall₂_equals_trans {cs} (has : ∀ a ∈ as, p a) (hbs : ∀ b ∈ bs, p b) (hcs : ∀ c ∈ cs, p c)
    (h : Forall₂ (fun a b => a.equals b = true) as bs) (h' : Forall₂ (fun b c => b.equals c = true) bs cs) :
    Forall₂ (fun a c => a.equals c = true) as cs := by
  induction h generalizing cs with
  | nil => exact h'
  | cons hab _ ih =>
    cases h' with
    | cons hbc h' =>
      obtain ⟨ha, has⟩ := forall_mem_cons.mp has
      obtain ⟨hb, hbs⟩ := forall_mem_cons.mp hbs
      obtain ⟨hc, hcs⟩ := forall_mem_cons.mp hcs
      exact .cons (hp.trans ha hb hc hab hbc) (ih has hbs hcs h')

section Search

variable {α : Type} {key : α → Value} {R : α → α → Prop} (hR : ∀ a b, R a b → (key a).equals (key b) = true)
include hR

theorem exists_matching_keys {as bs : List α} (has : ∀ a ∈ as, p (key a)) (hbs : ∀ b ∈ bs, p (key b))
    (hdistinct : as.Pairwise fun a a' => (key a).equals (key a') = false) (h : ∀ a ∈ as, ∃ b ∈ bs, R a b) :
    ∃ bs', bs'.Subperm bs ∧ Forall₂ R as bs' := by
  refine exists_matching h (hdistinct.imp_of_mem fun {a a'} ha ha' hne b hb hab hab' => ?_)
  have heq := hp.trans (has a ha) (hbs b hb) (has a' ha') (hR _ _ hab) (hp.symm (has a' ha') (hbs b hb) (hR _ _ hab'))
  rw [hne] at heq
  cases heq

theorem exists_at_each {as bs : List α} (has : ∀ a ∈ as, p (key a)) (hbs : ∀ b ∈ bs, p (key b))
    (hdistinct : as.Pairwise fun a a' => (key a).equals (key a') = false) (hlength : as.length = bs.length)
    (h : ∀ a ∈ as, ∃ b ∈ bs, R a b) : ∀ b ∈ bs, ∃ a ∈ as, R a b := by
  obtain ⟨bs', hsub, hmatch⟩ := exists_matching_keys hp hR has hbs hdistinct h
  have hperm : bs'.Perm bs := hsub.perm_of_length_le (by rw [← hlength, hmatch.length_eq])
  exact fun b hb => exists_of_forall₂ hmatch (hperm.mem_iff.mpr hb)

end Search

private theorem equalsPairs_iff {as bs} (has : ∀ a ∈ as, p a.1) (hbs : ∀ b ∈ bs, p b.1)
    (hdistinct : bs.Pairwise fun b b' => b.1.equals b'.1 = false) :
    equalsPairs as bs = true ↔ ∀ a ∈ as, ∃ b ∈ bs, a.1.equals b.1 = true ∧ a.2.equals b.2 = true := by
  induction as with
  | nil => simp [equalsPairs]
  | cons a as ih =>
    obtain ⟨ha, has⟩ := forall_mem_cons.mp has
    rw [forall_mem_cons, ← ih has, equalsPairs, Bool.and_eq_true]
    refine and_congr_left fun _ => ?_
    cases hfind : bs.find? fun q => a.1.equals q.1 with
    | none =>
      refine ⟨fun h => absurd h Bool.false_ne_true, ?_⟩
      rintro ⟨b, hb, hkey, -⟩
      exact absurd hkey (find?_eq_none.mp hfind b hb)
    | some q =>
      obtain ⟨hq, front, back, rfl, hfront⟩ := find?_eq_some_iff_append.mp hfind
      refine ⟨fun hvalue => ⟨q, by simp, hq, hvalue⟩, ?_⟩
      rintro ⟨b, hb, hkey, hvalue⟩
      -- the first entry with an equal key is the only one
      have hbq : b = q := by
        rcases mem_append.mp hb with hfst | hrest
        · have hne := hfront b hfst
          rw [hkey] at hne
          cases hne
        · rcases mem_cons.mp hrest with heq | hback
          · exact heq
          · have hne := (pairwise_cons.mp (pairwise_append.mp hdistinct).2.1).1 b hback
            have heq := hp.trans (hbs q (by simp)) ha (hbs b hb) (hp.symm ha (hbs q (by simp)) hq) hkey
            rw [hne] at heq
            cases heq
      rw [← hbq]
      exact hvalue

end Steps

/-! ### Symmetry and transitivity -/

theorem parts_of_members {items} (h : v.members? = some items) :
    v.parts = items ∧ (v.HoldsDistinct → items.Pairwise fun a b => a.equals b = false) := by
  cases v with
  | frozenSet | set =>
    cases h
    exact ⟨rfl, id⟩
  | _ => cases h

theorem Equal.of_number {m} (hv : v.asNumeric? = some m) (h : Equal v w) :
    ∃ n, w.asNumeric? = some n ∧ m.equals n = true := by
  cases h with
  | number hm hn h =>
    cases hv.symm.trans hm
    exact ⟨_, hn, h⟩
  | atom h =>
    cases v with
    | bool | int | float | complex => cases h
    | _ => cases hv
  | sets hm =>
    cases v with
    | frozenSet | set => cases hv
    | _ => cases hm
  | _ => cases hv

theorem Equal.of_members (hv : v.members? = some as) (h : Equal v w) :
    ∃ bs, w.members? = some bs ∧ as.length = bs.length ∧ ∀ a ∈ as, ∃ b ∈ bs, a.equals b = true := by
  cases h with
  | sets hm hn hlength h =>
    cases hv.symm.trans hm
    exact ⟨_, hn, hlength, h⟩
  | atom h =>
    cases v with
    | frozenSet | set => cases h
    | _ => cases hv
  | number hm =>
    cases v with
    | frozenSet | set => cases hm
    | _ => cases hv
  | _ => cases hv

section Step

variable {p : Value → Prop} (hp : PartialEquivalence p) {u v w : Value} (hus : ∀ a ∈ u.parts, p a)
  (hvs : ∀ a ∈ v.parts, p a) (hws : ∀ a ∈ w.parts, p a)
include hp hvs hws

private theorem Equal.symm_step (hv : v.HoldsDistinct) (hw : w.HoldsDistinct) (h : Equal v w) : Equal w v := by
  cases h with
  | atom h => exact .atom h
  | number hm hn h => exact .number hn hm (Numeric.equals_symm h)
  | tuple h => exact .tuple (forall₂_equals_symm hp hvs hws h)
  | list h => exact .list (forall₂_equals_symm hp hvs hws h)
  | sets hm hn hlength h =>
    obtain ⟨rfl, hdistinct⟩ := parts_of_members hm
    obtain ⟨rfl, -⟩ := parts_of_members hn
    have hback := @exists_at_each p hp _ id _ (fun _ _ => id) _ _ hvs hws (hdistinct hv) hlength h
    refine .sets hn hm hlength.symm fun b hb => ?_
    obtain ⟨a, ha, hab⟩ := hback b hb
    exact ⟨a, ha, hp.symm (hvs a ha) (hws b hb) hab⟩
  | dict hlength h =>
    obtain ⟨hkeys, hvalues⟩ := forall_parts_dict.mp hvs
    obtain ⟨hkeys', hvalues'⟩ := forall_parts_dict.mp hws
    have hback := @exists_at_each p hp _ Prod.fst _ (fun _ _ h => h.1) _ _ hkeys hkeys' hv hlength
      ((equalsPairs_iff hp hkeys hkeys' hw).mp h)
    refine .dict hlength.symm ((equalsPairs_iff hp hkeys' hkeys hv).mpr fun b hb => ?_)
    obtain ⟨a, ha, hkey, hvalue⟩ := hback b hb
    exact ⟨a, ha, hp.symm (hkeys a ha) (hkeys' b hb) hkey, hp.symm (hvalues a ha) (hvalues' b hb) hvalue⟩

include hus in
private theorem Equal.trans_step (hv : v.HoldsDistinct) (hw : w.HoldsDistinct)
    (h : Equal u v) (h' : Equal v w) : Equal u w := by
  cases h with
  | atom h => exact h'
  | number hm hn h =>
    obtain ⟨k, hk, h'⟩ := h'.of_number hn
    exact .number hm hk (Numeric.equals_trans h h')
  | tuple h =>
    cases h' with
    | tuple h' => exact .tuple (forall₂_equals_trans hp hus hvs hws h h')
    | atom h | number h | sets h => cases h
  | list h =>
    cases h' with
    | list h' => exact .list (forall₂_equals_trans hp hus hvs hws h h')
    | atom h | number h | sets h => cases h
  | sets hm hn hlength h =>
    obtain ⟨cs, hk, hlength', h'⟩ := h'.of_members hn
    obtain ⟨rfl, -⟩ := parts_of_members hm
    obtain ⟨rfl, -⟩ := parts_of_members hn
    obtain ⟨rfl, -⟩ := parts_of_members hk
    refine .sets hm hk (hlength.trans hlength') fun a ha => ?_
    obtain ⟨b, hb, hab⟩ := h a ha
    obtain ⟨c, hc, hbc⟩ := h' b hb
    exact ⟨c, hc, hp.trans (hus a ha) (hvs b hb) (hws c hc) hab hbc⟩
  | dict hlength h =>
    cases h' with
    | dict hlength' h' =>
      obtain ⟨hkeys, hvalues⟩ := forall_parts_dict.mp hus
      obtain ⟨hkeys', hvalues'⟩ := forall_parts_dict.mp hvs
      obtain ⟨hkeys'', hvalues''⟩ := forall_parts_dict.mp hws
      refine .dict (hlength.trans hlength') ((equalsPairs_iff hp hkeys hkeys'' hw).mpr fun a ha => ?_)
      obtain ⟨b, hb, hkey, hvalue⟩ := (equalsPairs_iff hp hkeys hkeys' hv).mp h a ha
      obtain ⟨c, hc, hkey', hvalue'⟩ := (equalsPairs_iff hp hkeys' hkeys'' hw).mp h' b hb
      exact ⟨c, hc, hp.trans (hkeys a ha) (hkeys' b hb) (hkeys'' c hc) hkey hkey',
        hp.trans (hvalues a ha) (hvalues' b hb) (hvalues'' c hc) hvalue hvalue'⟩
    | atom h | number h | sets h => cases h

end Step

private theorem partialEquivalence_sizeOf (n : Nat) : PartialEquivalence fun v => v.Proper ∧ sizeOf v < n := by
  induction n with
  | zero => exact ⟨fun h => absurd h.2 (Nat.not_lt_zero _), fun h => absurd h.2 (Nat.not_lt_zero _)⟩
  | succ n ih =>
    have hparts : ∀ {v : Value}, v.Proper ∧ sizeOf v < n + 1 → ∀ w ∈ v.parts, w.Proper ∧ sizeOf w < n := by
      intro v hv w hw
      have hlt := sizeOf_lt_of_mem_parts hw
      exact ⟨(everywhere_iff.mp hv.1).2 w hw, by omega⟩
    have hhere : ∀ {v : Value}, v.Proper ∧ sizeOf v < n + 1 → v.HoldsDistinct := fun hv => (everywhere_iff.mp hv.1).1
    constructor
    · intro v w hv hw h
      exact equals_iff.mpr ((equals_iff.mp h).symm_step ih (hparts hv) (hparts hw) (hhere hv) (hhere hw))
    · intro u v w hu hv hw h h'
      exact equals_iff.mpr
        ((equals_iff.mp h).trans_step ih (hparts hu) (hparts hv) (hparts hw) (hhere hv) (hhere hw) (equals_iff.mp h'))

theorem partialEquivalence_proper : PartialEquivalence Proper where
  symm {v w} hv hw := (partialEquivalence_sizeOf (sizeOf v + sizeOf w + 1)).symm ⟨hv, by omega⟩ ⟨hw, by omega⟩
  trans {u v w} hu hv hw :=
    (partialEquivalence_sizeOf (sizeOf u + sizeOf v + sizeOf w + 1)).trans ⟨hu, by omega⟩ ⟨hv, by omega⟩
    ⟨hw, by omega⟩

theorem equals_congr {u : Value} (hu : u.Proper) (hv : v.Proper) (hw : w.Proper) (h : u.equals v = true) :
    u.equals w = v.equals w :=
  Bool.eq_iff_iff.mpr ⟨partialEquivalence_proper.trans hv hu hw (partialEquivalence_proper.symm hu hv h),
    partialEquivalence_proper.trans hu hv hw h⟩

/-- Equality is symmetric and transitive, among numbers of all types, sets of both types and nested containers. -/
theorem equals_symm_trans {x y z : Value} (hx : x.Proper) (hy : y.Proper) (hz : z.Proper) :
    x.equals y = y.equals x ∧ (x.equals y = true → y.equals z = true → x.equals z = true) := by
  refine ⟨Bool.eq_iff_iff.mpr ⟨?_, ?_⟩, partialEquivalence_proper.trans hx hy hz⟩
  · exact partialEquivalence_proper.symm hx hy
  · exact partialEquivalence_proper.symm hy hx

/-- The sets `{1, (2.0,)}`, `frozenset({(2,), True})` and `{((2+0j),), 1.0}` are equal. -/
theorem equals_symm_trans_sets :
    let x : Value := .set [.int 1, .tuple [.float 2.0]]
    let y : Value := .frozenSet [.tuple [.int 2], .bool true]
    let z : Value := .set [.tuple [.complex ⟨2.0, 0.0⟩], .float 1.0]
    y.equals x = true ∧ x.equals z = true := by
  intro x y z
  have hx : x.Proper := by decide +kernel
  have hy : y.Proper := by decide +kernel
  have hz : z.Proper := by decide +kernel
  have hxy : x.equals y = true := by decide +kernel
  have hyz : y.equals z = true := by decide +kernel
  obtain ⟨hsymm, htrans⟩ := equals_symm_trans hx hy hz
  exact ⟨hsymm ▸ hxy, htrans hxy hyz⟩

end Value

end Speculator
