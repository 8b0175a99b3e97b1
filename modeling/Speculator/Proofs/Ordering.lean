import Speculator.Proofs.Equality
import Speculator.Pure.Catalog

/-!
# Laws of order

Among values without floats and complex numbers, whose sets and dictionaries hold no equal items and no equal keys
(`Value.Discrete`), the ordering operators are those of a strict order that agrees with equality
(`Value.compare_laws`).

Instead of four operators there is one comparison, `Value.rank`.  Its laws follow the order of the values: numbers and
texts by their own order, sets by inclusion, and sequences by their first items that differ.
-/

namespace Speculator

open List

variable {op : CompareOp} {v' : Value}

def CompareOp.isOrder : CompareOp → Bool
  | .lt | .ltE | .gt | .gtE => true
  | _ => false

namespace Value

/-! ### How values compare -/

def rankSets (as bs : List Value) : Option Ordering :=
  if equalsSome as bs then if equalsSome bs as then some .eq else some .lt
  else if equalsSome bs as then some .gt else Option.none

mutual

/-- How two values without floats and complex numbers compare: `none` for sets neither of which includes the other
one, and an exception for values that have no order. -/
def rank : Value → Value → Except Fault (Option Ordering)
  | .str a, .str b => .ok (some (Ord.compare a b))
  | .bytes a, .bytes b => .ok (some (Ord.compare a b))
  | .tuple as, .tuple bs | .list as, .list bs => rankItems as bs
  | .frozenSet as, .frozenSet bs | .frozenSet as, .set bs | .set as, .frozenSet bs | .set as, .set bs =>
    .ok (rankSets as bs)
  | v, w =>
    match v.asInt?, w.asInt? with
    | some m, some n => .ok (some (Ord.compare m n))
    | _, _ => .error .typeError

def rankItems : List Value → List Value → Except Fault (Option Ordering)
  | a :: as, b :: bs => if a.equals b then rankItems as bs else rank a b
  | [], [] => .ok (some .eq)
  | [], _ :: _ => .ok (some .lt)
  | _ :: _, [] => .ok (some .gt)

end

/-- The pairs of values that have an order. -/
inductive SameKind : Value → Value → Prop
  | str (a b : String) : SameKind (.str a) (.str b)
  | bytes (a b : List UInt8) : SameKind (.bytes a) (.bytes b)
  | tuple (as bs : List Value) : SameKind (.tuple as) (.tuple bs)
  | list (as bs : List Value) : SameKind (.list as) (.list bs)
  | sets {v w as bs} (hv : v.members? = some as) (hw : w.members? = some bs) : SameKind v w
  | ints {v w} {m n : Int} (hv : v.asInt? = some m) (hw : w.asInt? = some n) : SameKind v w

variable {v w : Value} {as bs : List Value} {m n : Int} {o : Option Ordering}

private theorem SameKind.symm (h : SameKind v w) : SameKind w v := by
  cases h with
  | str a b => exact .str b a
  | bytes a b => exact .bytes b a
  | tuple as bs => exact .tuple bs as
  | list as bs => exact .list bs as
  | sets hv hw => exact .sets hw hv
  | ints hv hw => exact .ints hw hv

private theorem rank_of_not_sameKind (h : ¬SameKind v w) : rank v w = .error .typeError := by
  rw [rank.eq_def]
  split
  case h_1 => exact absurd (.str _ _) h
  case h_2 => exact absurd (.bytes _ _) h
  case h_3 => exact absurd (.tuple _ _) h
  case h_4 => exact absurd (.list _ _) h
  case h_5 | h_6 | h_7 | h_8 => exact absurd (.sets rfl rfl) h
  case h_9 =>
    split
    · exact absurd (.ints ‹_› ‹_›) h
    · rfl

private theorem sameKind_of_rank (h : rank v w = .ok o) : SameKind v w := by
  by_contra hkind
  rw [rank_of_not_sameKind hkind] at h
  cases h

private theorem rank_sets (hv : v.members? = some as) (hw : w.members? = some bs) :
    rank v w = .ok (rankSets as bs) := by
  cases v with
  | frozenSet | set =>
    cases w with
    | frozenSet | set =>
      cases hv
      cases hw
      rw [rank]
    | _ => cases hw
  | _ => cases hv

private theorem rank_ints (hv : v.asInt? = some m) (hw : w.asInt? = some n) :
    rank v w = .ok (some (Ord.compare m n)) := by
  cases v with
  | bool | int => simp [rank, hv, hw]
  | _ => cases hv

/-- There are no floats and complex numbers in the value, its sets hold no equal items and its dictionaries no equal
keys. -/
abbrev Discrete : Value → Prop := Everywhere fun v => v.HoldsDistinct ∧ Builtin.isInexact v = false

private theorem Discrete.proper (h : v.Discrete) : v.Proper := fun w hw => (h w hw).1

theorem Discrete.parts (h : v.Discrete) : ∀ w ∈ v.parts, w.Discrete := (everywhere_iff.mp h).2

private theorem induction_parts {P : Value → Prop} (step : ∀ v, (∀ w ∈ v.parts, P w) → P v) (v : Value) : P v := by
  induction hn : sizeOf v using Nat.strongRecOn generalizing v with
  | ind n ih => exact step v fun w hw => ih (sizeOf w) (hn ▸ sizeOf_lt_of_mem_parts hw) w rfl

private theorem asNumeric?_of_exact (h : Builtin.isInexact v = false) : v.asNumeric? = v.asInt?.map .int := by
  cases v with
  | float | complex => cases h
  | _ => rfl

private theorem Discrete.asNumeric? (h : v.Discrete) : v.asNumeric? = v.asInt?.map .int :=
  asNumeric?_of_exact (everywhere_iff.mp h).1.2

/-! ### Inclusion of sets -/

private theorem proper_set {items} (h : v.members? = some items) (hv : v.Proper) : (set items).Proper := by
  obtain ⟨rfl, hdistinct⟩ := parts_of_members h
  obtain ⟨hhere, hparts⟩ := everywhere_iff.mp hv
  exact everywhere_iff.mpr ⟨hdistinct hhere, hparts⟩

section Inclusion

variable {cs : List Value} (has : (set as).Proper) (hbs : (set bs).Proper)
include has hbs

private theorem length_le_of_equalsSome (h : equalsSome as bs = true) : as.length ≤ bs.length := by
  obtain ⟨hdistinct, has⟩ := everywhere_iff.mp has
  obtain ⟨bs', hsub, hmatch⟩ := @exists_matching_keys _ partialEquivalence_proper _ id _ (fun _ _ => id) _ _ has
    (everywhere_iff.mp hbs).2 hdistinct (equalsSome_iff.mp h)
  exact hmatch.length_eq ▸ hsub.length_le

private theorem equalsSome_symm (hlength : as.length = bs.length) (h : equalsSome as bs = true) :
    equalsSome bs as = true := by
  obtain ⟨hdistinct, has⟩ := everywhere_iff.mp has
  obtain ⟨-, hbs⟩ := everywhere_iff.mp hbs
  refine equalsSome_iff.mpr fun b hb => ?_
  obtain ⟨a, ha, hab⟩ := @exists_at_each _ partialEquivalence_proper _ id _ (fun _ _ => id) _ _ has hbs
      hdistinct hlength
    (equalsSome_iff.mp h) b hb
  exact ⟨a, ha, partialEquivalence_proper.symm (has a ha) (hbs b hb) hab⟩

private theorem equalsSome_trans (hcs : (set cs).Proper)
    (h : equalsSome as bs = true) (h' : equalsSome bs cs = true) :
    equalsSome as cs = true := by
  refine equalsSome_iff.mpr fun a ha => ?_
  obtain ⟨b, hb, hab⟩ := equalsSome_iff.mp h a ha
  obtain ⟨c, hc, hbc⟩ := equalsSome_iff.mp h' b hb
  exact ⟨c, hc, partialEquivalence_proper.trans ((everywhere_iff.mp has).2 a ha) ((everywhere_iff.mp hbs).2 b hb)
    ((everywhere_iff.mp hcs).2 c hc) hab hbc⟩

private theorem length_lt_iff (h : equalsSome as bs = true) : as.length < bs.length ↔ equalsSome bs as = false := by
  constructor
  · intro hlt
    by_contra hback
    have hle := length_le_of_equalsSome hbs has (Bool.eq_true_of_not_eq_false hback)
    omega
  · intro hback
    by_contra hlt
    have hlength : as.length = bs.length := by
      have hle := length_le_of_equalsSome has hbs h
      omega
    rw [equalsSome_symm has hbs hlength h] at hback
    cases hback

private theorem orderSets_eq_rankSets (hop : op.isOrder = true) :
    orderSets op as bs = .ok ((rankSets as bs).any op.holds) := by
  have hlt := length_lt_iff has hbs
  have hgt := length_lt_iff hbs has
  unfold rankSets
  cases op with
  | lt | ltE | gt | gtE =>
    cases hab : equalsSome as bs <;> cases hba : equalsSome bs as <;>
      simp_all [orderSets, CompareOp.holds]
  | _ => cases hop

private theorem rankSets_eq_iff (hv : v.members? = some as) (hw : w.members? = some bs) :
    rankSets as bs = some .eq ↔ v.equals w = true := by
  have heq : rankSets as bs = some .eq ↔ equalsSome as bs = true ∧ equalsSome bs as = true := by
    unfold rankSets
    cases equalsSome as bs <;> cases equalsSome bs as <;> simp
  rw [heq, equals_iff]
  constructor
  · rintro ⟨hab, hba⟩
    have hlength := Nat.le_antisymm (length_le_of_equalsSome has hbs hab) (length_le_of_equalsSome hbs has hba)
    exact .sets hv hw hlength (equalsSome_iff.mp hab)
  · intro h
    obtain ⟨bs', hbs', hlength, hab⟩ := h.of_members hv
    cases hw.symm.trans hbs'
    exact ⟨equalsSome_iff.mpr hab, equalsSome_symm has hbs hlength (equalsSome_iff.mpr hab)⟩

end Inclusion

private theorem rankSets_swap (as bs : List Value) : rankSets bs as = (rankSets as bs).map Ordering.swap := by
  unfold rankSets
  cases equalsSome as bs <;> cases equalsSome bs as <;> rfl

private theorem rankSets_eq_some_lt :
    rankSets as bs = some .lt ↔ equalsSome as bs = true ∧ equalsSome bs as = false := by
  unfold rankSets
  cases equalsSome as bs <;> cases equalsSome bs as <;> simp

private theorem orderItems_eq_rankItems
    (h : ∀ a ∈ as, ∀ b ∈ bs, order op a b = (rank a b).map fun o => o.any op.holds) :
    orderItems op as bs = (rankItems as bs).map fun o => o.any op.holds := by
  induction as generalizing bs with
  | nil => cases bs <;> simp [orderItems, rankItems, Except.map]
  | cons a as ih =>
    cases bs with
    | nil => simp [orderItems, rankItems, Except.map]
    | cons b bs =>
      rw [orderItems, rankItems]
      split
      · exact ih fun a ha b hb => h a (mem_cons_of_mem _ ha) b (mem_cons_of_mem _ hb)
      · exact h a mem_cons_self b mem_cons_self

/-- The ordering operators ask how the values rank. -/
private theorem order_eq_rank (hop : op.isOrder = true) (hv : v.Discrete) (hw : w.Discrete) :
    order op v w = (rank v w).map fun o => o.any op.holds := by
  induction v using induction_parts generalizing w with
  | step v ih =>
    have hitems : ∀ a ∈ v.parts, ∀ b ∈ w.parts, order op a b = (rank a b).map fun o => o.any op.holds :=
      fun a ha b hb => ih a ha (hv.parts a ha) (hw.parts b hb)
    rw [order.eq_def]
    split
    case h_1 | h_2 => rfl
    case h_3 | h_4 => exact orderItems_eq_rankItems hitems
    case h_5 | h_6 | h_7 | h_8 =>
      exact orderSets_eq_rankSets (proper_set rfl hv.proper) (proper_set rfl hw.proper) hop
    case h_9 =>
      rw [rank, orderNumbers, hv.asNumeric?, hw.asNumeric?]
      · cases v.asInt? with
        | none => rfl
        | some m => cases w.asInt? <;> rfl
      all_goals assumption

/-! ### The rank agrees with equality -/

private theorem asNumeric?_of_asInt? (h : v.asInt? = some n) : v.asNumeric? = some (.int n) := by
  cases v with
  | bool | int =>
    cases h
    rfl
  | _ => cases h

private theorem equals_ints (hv : v.asInt? = some m) (hw : w.asInt? = some n) : v.equals w = true ↔ m = n := by
  rw [equals_iff]
  constructor
  · intro h
    obtain ⟨k, hk, heq⟩ := h.of_number (asNumeric?_of_asInt? hv)
    cases (asNumeric?_of_asInt? hw).symm.trans hk
    simpa [Numeric.equals, Numeric.compare?] using heq
  · rintro rfl
    exact .number (asNumeric?_of_asInt? hv) (asNumeric?_of_asInt? hw) (by simp [Numeric.equals, Numeric.compare?])

private theorem rankItems_eq_iff
    (h : ∀ a ∈ as, ∀ b ∈ bs, ∀ o, rank a b = .ok o → (o = some .eq ↔ a.equals b = true))
    (ho : rankItems as bs = .ok o) :
    o = some .eq ↔ equalsItems as bs = true := by
  induction as generalizing bs with
  | nil =>
    cases bs with
    | nil | cons =>
      cases ho
      simp [equalsItems]
  | cons a as ih =>
    cases bs with
    | nil =>
      cases ho
      simp [equalsItems]
    | cons b bs =>
      rw [rankItems] at ho
      rw [equalsItems]
      split at ho
      case isTrue hab =>
        rw [hab, Bool.true_and]
        exact ih (fun a ha b hb => h a (mem_cons_of_mem _ ha) b (mem_cons_of_mem _ hb)) ho
      case isFalse hab =>
        rw [h a mem_cons_self b mem_cons_self o ho, Bool.and_eq_true]
        exact ⟨fun heq => absurd heq hab, And.left⟩

private theorem rank_eq_iff (hv : v.Discrete) (hw : w.Discrete) (ho : rank v w = .ok o) :
    o = some .eq ↔ v.equals w = true := by
  induction v using induction_parts generalizing w o with
  | step v ih =>
    have hitems : ∀ a ∈ v.parts, ∀ b ∈ w.parts, ∀ o, rank a b = .ok o → (o = some .eq ↔ a.equals b = true) :=
      fun a ha b hb o ho => ih a ha (hv.parts a ha) (hw.parts b hb) ho
    cases sameKind_of_rank ho with
    | str a b | bytes a b =>
      rw [rank] at ho
      cases ho
      simp [equals]
    | tuple as bs | list as bs =>
      rw [rank] at ho
      rw [equals]
      exact rankItems_eq_iff hitems ho
    | sets hm hn =>
      rw [rank_sets hm hn] at ho
      cases ho
      exact rankSets_eq_iff (proper_set hm hv.proper) (proper_set hn hw.proper) hm hn
    | ints hm hn =>
      rw [rank_ints hm hn] at ho
      cases ho
      simp [equals_ints hm hn]

private theorem rankItems_swap
    (h : ∀ a ∈ as, ∀ b ∈ bs, b.equals a = a.equals b ∧ rank b a = (rank a b).map (Option.map Ordering.swap)) :
    rankItems bs as = (rankItems as bs).map (Option.map Ordering.swap) := by
  induction as generalizing bs with
  | nil => cases bs <;> rfl
  | cons a as ih =>
    cases bs with
    | nil => rfl
    | cons b bs =>
      obtain ⟨hequals, hrank⟩ := h a mem_cons_self b mem_cons_self
      rw [rankItems, rankItems, hequals]
      split
      · exact ih fun a ha b hb => h a (mem_cons_of_mem _ ha) b (mem_cons_of_mem _ hb)
      · exact hrank

private theorem rank_swap (hv : v.Discrete) (hw : w.Discrete) :
    rank w v = (rank v w).map (Option.map Ordering.swap) := by
  induction v using induction_parts generalizing w with
  | step v ih =>
    have hitems : ∀ a ∈ v.parts, ∀ b ∈ w.parts,
        b.equals a = a.equals b ∧ rank b a = (rank a b).map (Option.map Ordering.swap) := by
      intro a ha b hb
      have hda := hv.parts a ha
      have hdb := hw.parts b hb
      refine ⟨Bool.eq_iff_iff.mpr ⟨?_, ?_⟩, ih a ha hda hdb⟩
      · exact partialEquivalence_proper.symm hdb.proper hda.proper
      · exact partialEquivalence_proper.symm hda.proper hdb.proper
    by_cases hkind : SameKind v w
    · cases hkind with
      | str a b | bytes a b =>
        rw [rank, rank, Std.OrientedOrd.eq_swap]
        rfl
      | tuple as bs | list as bs =>
        rw [rank, rank]
        exact rankItems_swap hitems
      | sets hm hn =>
        rw [rank_sets hm hn, rank_sets hn hm, rankSets_swap]
        rfl
      | ints hm hn =>
        rw [rank_ints hm hn, rank_ints hn hm, Std.OrientedOrd.eq_swap]
        rfl
    · rw [rank_of_not_sameKind hkind, rank_of_not_sameKind (mt SameKind.symm hkind)]
      rfl

/-! ### Equal values compare alike -/

private theorem rankSets_congr {as'} (has : (set as).Proper) (has' : (set as').Proper) (hbs : (set bs).Proper)
    (h : equalsSome as as' = true) (h' : equalsSome as' as = true) : rankSets as bs = rankSets as' bs := by
  have hout : equalsSome as bs = equalsSome as' bs :=
    Bool.eq_iff_iff.mpr ⟨equalsSome_trans has' has hbs h', equalsSome_trans has has' hbs h⟩
  have hin : equalsSome bs as = equalsSome bs as' :=
    Bool.eq_iff_iff.mpr ⟨fun hb => equalsSome_trans hbs has has' hb h, fun hb => equalsSome_trans hbs has' has hb h'⟩
  rw [rankSets, rankSets, hout, hin]

private theorem rankItems_congr {as'} (hequal : Forall₂ (fun a a' => a.equals a' = true) as as')
    (h : ∀ a ∈ as, ∀ a' ∈ as', ∀ b ∈ bs, a.equals a' = true → a.equals b = a'.equals b ∧ rank a b = rank a' b) :
    rankItems as bs = rankItems as' bs := by
  induction hequal generalizing bs with
  | nil => rfl
  | @cons a a' as as' haa' _ ih =>
    cases bs with
    | nil => rfl
    | cons b bs =>
      obtain ⟨hequals, hrank⟩ := h a mem_cons_self a' mem_cons_self b mem_cons_self haa'
      rw [rankItems, rankItems, hequals, hrank, ih fun a ha a' ha' b hb =>
        h a (mem_cons_of_mem _ ha) a' (mem_cons_of_mem _ ha') b (mem_cons_of_mem _ hb)]

private theorem asInt?_of_equal (hv' : v'.Discrete) (hm : v.asInt? = some m) (h : v.equals v' = true) :
    v'.asInt? = some m := by
  obtain ⟨k, hk, -⟩ := (equals_iff.mp h).of_number (asNumeric?_of_asInt? hm)
  rw [hv'.asNumeric?, Option.map_eq_some_iff] at hk
  obtain ⟨n, hn, -⟩ := hk
  rw [hn, (equals_ints hm hn).mp h]

private theorem sameKind_rank_congr (hv : v.Discrete) (hv' : v'.Discrete) (hw : w.Discrete)
    (hequal : v.equals v' = true)
    (hkind : SameKind v w) (hitems : ∀ a ∈ v.parts, ∀ a' ∈ v'.parts, ∀ b ∈ w.parts, a.equals a' = true →
      a.equals b = a'.equals b ∧ rank a b = rank a' b) : SameKind v' w ∧ rank v w = rank v' w := by
  have hcases := equals_iff.mp hequal
  cases hkind with
  | str a b | bytes a b =>
    cases hcases with
    | atom => exact ⟨by constructor, rfl⟩
    | number h | sets h => cases h
  | tuple as bs | list as bs =>
    cases hcases with
    | atom h | number h | sets h => cases h
    | _ =>
      rw [rank, rank]
      exact ⟨by constructor, rankItems_congr ‹_› hitems⟩
  | sets hm hn =>
    obtain ⟨as', hm', hlength, h⟩ := hcases.of_members hm
    have has := proper_set hm hv.proper
    have has' := proper_set hm' hv'.proper
    have hback := equalsSome_symm has has' hlength (equalsSome_iff.mpr h)
    rw [rank_sets hm hn, rank_sets hm' hn,
      rankSets_congr has has' (proper_set hn hw.proper) (equalsSome_iff.mpr h) hback]
    exact ⟨.sets hm' hn, rfl⟩
  | ints hm hn =>
    have hm' := asInt?_of_equal hv' hm hequal
    rw [rank_ints hm hn, rank_ints hm' hn]
    exact ⟨.ints hm' hn, rfl⟩

theorem rank_congr (hv : v.Discrete) (hv' : v'.Discrete) (hw : w.Discrete) (hequal : v.equals v' = true) :
    rank v w = rank v' w := by
  induction v using induction_parts generalizing v' w with
  | step v ih =>
    have hitems : ∀ a ∈ v.parts, ∀ a' ∈ v'.parts, ∀ b ∈ w.parts, a.equals a' = true →
        a.equals b = a'.equals b ∧ rank a b = rank a' b := by
      intro a ha a' ha' b hb h
      have hda := hv.parts a ha
      have hda' := hv'.parts a' ha'
      have hdb := hw.parts b hb
      exact ⟨equals_congr hda.proper hda'.proper hdb.proper h, ih a ha hda hda' hdb h⟩
    by_cases hkind : SameKind v w
    · exact (sameKind_rank_congr hv hv' hw hequal hkind hitems).2
    · have hkind' : ¬SameKind v' w := by
        intro h
        have hback := partialEquivalence_proper.symm hv.proper hv'.proper hequal
        refine hkind (sameKind_rank_congr hv' hv hw hback h ?_).1
        intro a' ha' a ha b hb haa'
        obtain ⟨hequals, hrank⟩ := hitems a ha a' ha' b hb
          (partialEquivalence_proper.symm (hv'.parts a' ha').proper (hv.parts a ha).proper haa')
        exact ⟨hequals.symm, hrank.symm⟩
      rw [rank_of_not_sameKind hkind, rank_of_not_sameKind hkind']

private theorem rank_congr_right {w'} (hv : v.Discrete) (hw : w.Discrete) (hw' : w'.Discrete)
    (hequal : w.equals w' = true) : rank v w = rank v w' := by
  rw [rank_swap hw hv, rank_swap hw' hv, rank_congr hw hw' hv hequal]

/-! ### Transitivity -/

def Below (v w : Value) : Prop := rank v w = .ok (some .lt)

private theorem Below.not_equals (hv : v.Discrete) (hw : w.Discrete) (h : Below v w) : v.equals w = false := by
  refine Bool.eq_false_iff.mpr fun heq => ?_
  cases (rank_eq_iff hv hw h).mpr heq

theorem not_below_self (hv : v.Discrete) : ¬Below v v := by
  intro h
  have hswap := rank_swap hv hv
  rw [h] at hswap
  cases hswap

private theorem rankItems_trans {cs} (has : ∀ a ∈ as, a.Discrete) (hbs : ∀ b ∈ bs, b.Discrete)
    (hcs : ∀ c ∈ cs, c.Discrete) (ih : ∀ a ∈ as, ∀ b ∈ bs, ∀ c ∈ cs, Below a b → Below b c → Below a c)
    (h : rankItems as bs = .ok (some .lt)) (h' : rankItems bs cs = .ok (some .lt)) :
    rankItems as cs = .ok (some .lt) := by
  induction as generalizing bs cs with
  | nil =>
    cases cs with
    | nil => cases bs <;> cases h'
    | cons => rfl
  | cons a as hlist =>
    cases bs with
    | nil => cases h
    | cons b bs =>
      cases cs with
      | nil => cases h'
      | cons c cs =>
        obtain ⟨ha, has⟩ := forall_mem_cons.mp has
        obtain ⟨hb, hbs⟩ := forall_mem_cons.mp hbs
        obtain ⟨hc, hcs⟩ := forall_mem_cons.mp hcs
        rw [rankItems] at h h' ⊢
        split at h
        case isTrue hab =>
          rw [equals_congr ha.proper hb.proper hc.proper hab]
          split at h'
          · rw [if_pos ‹_›]
            exact hlist has hbs hcs (fun a ha b hb c hc => ih a (mem_cons_of_mem _ ha) b (mem_cons_of_mem _ hb)
              c (mem_cons_of_mem _ hc)) h h'
          · rw [if_neg ‹_›, rank_congr ha hb hc hab]
            exact h'
        case isFalse hab =>
          have hac : Below a c := by
            split at h'
            case isTrue hbc => exact (rank_congr_right ha hb hc hbc).symm.trans h
            case isFalse => exact ih a mem_cons_self b mem_cons_self c mem_cons_self h h'
          rw [hac.not_equals ha hc]
          exact hac

private theorem SameKind.members (hv : v.members? = some as) (h : SameKind v w) :
    ∃ bs, w.members? = some bs := by
  cases h with
  | sets _ hw => exact ⟨_, hw⟩
  | ints hm =>
    cases v with
    | bool | int => cases hv
    | _ => cases hm
  | _ => cases hv

private theorem SameKind.asInt? (hv : v.asInt? = some m) (h : SameKind v w) : ∃ n, w.asInt? = some n := by
  cases h with
  | ints _ hw => exact ⟨_, hw⟩
  | sets hm =>
    cases v with
    | bool | int => cases hm
    | _ => cases hv
  | _ => cases hv

theorem Below.trans {u} (hu : u.Discrete) (hv : v.Discrete) (hw : w.Discrete) (h : Below u v) (h' : Below v w) :
    Below u w := by
  induction u using induction_parts generalizing v w with
  | step u ih =>
    have hitems : ∀ a ∈ u.parts, ∀ b ∈ v.parts, ∀ c ∈ w.parts, Below a b → Below b c → Below a c :=
      fun a ha b hb c hc => ih a ha (hu.parts a ha) (hv.parts b hb) (hw.parts c hc)
    have hkind := sameKind_of_rank h'
    cases sameKind_of_rank h with
    | str a b | bytes a b =>
      cases hkind with
      | sets hm | ints hm => cases hm
      | _ =>
        simp only [Below, rank, Except.ok.injEq, Option.some.injEq] at *
        exact Std.TransCmp.lt_trans h h'
    | tuple as bs | list as bs =>
      cases hkind with
      | sets hm | ints hm => cases hm
      | _ =>
        rw [Below, rank] at *
        exact rankItems_trans hu.parts hv.parts hw.parts hitems h h'
    | sets hk hm =>
      obtain ⟨cs, hn⟩ := hkind.members hm
      have has := proper_set hk hu.proper
      have hbs := proper_set hm hv.proper
      have hcs := proper_set hn hw.proper
      simp only [Below, rank_sets hk hm, rank_sets hm hn, rank_sets hk hn, Except.ok.injEq, rankSets_eq_some_lt] at *
      refine ⟨equalsSome_trans has hbs hcs h.1 h'.1, ?_⟩
      by_contra hback
      have hmiddle := equalsSome_trans hcs has hbs (Bool.eq_true_of_not_eq_false hback) h.1
      rw [h'.2] at hmiddle
      cases hmiddle
    | ints hk hm =>
      obtain ⟨n, hn⟩ := hkind.asInt? hm
      simp only [Below, rank_ints hk hm, rank_ints hm hn, rank_ints hk hn, Except.ok.injEq, Option.some.injEq] at *
      exact Std.TransCmp.lt_trans h h'

/-! ### The laws of the operators -/

section Laws

variable {x y : Value} (hx : x.Discrete) (hy : y.Discrete)
include hx hy

theorem compare_eq_rank (hop : op.isOrder = true) :
    compare op x y = (rank x y).map fun o => o.any op.holds := by
  rw [← order_eq_rank hop hx hy]
  cases op with
  | lt | ltE | gt | gtE => rfl
  | _ => cases hop

theorem compare_lt_iff : compare .lt x y = .ok true ↔ Below x y := by
  rw [compare_eq_rank hx hy rfl, Below]
  cases rank x y with
  | error => simp [Except.map]
  | ok o => cases o <;> simp [Except.map, CompareOp.holds]

private theorem compare_exchange {op'} (hop : op.isOrder = true) (hop' : op'.isOrder = true)
    (h : ∀ o : Ordering, op.holds o = op'.holds o.swap) : compare op x y = compare op' y x := by
  rw [compare_eq_rank hx hy hop, compare_eq_rank hy hx hop', rank_swap hx hy]
  cases rank x y with
  | error => rfl
  | ok o => cases o <;> simp [Except.map, h]

theorem compare_gt_eq : compare .gt x y = compare .lt y x :=
  compare_exchange hx hy rfl rfl (by decide)

private theorem compare_ltE_eq : compare .ltE x y = (compare .lt x y).map fun less => less || x.equals y := by
  rw [compare_eq_rank hx hy rfl, compare_eq_rank hx hy rfl]
  cases h : rank x y with
  | error => rfl
  | ok o =>
    have hequals : x.equals y = (o == some .eq) := by
      rw [Bool.eq_iff_iff, beq_iff_eq]
      exact (rank_eq_iff hx hy h).symm
    rw [hequals]
    rcases o with _ | o
    · rfl
    · cases o <;> rfl

end Laws

/-- Among discrete values the ordering operators are those of a strict order that agrees with equality. -/
theorem compare_laws {x x' y z : Value} (hx : x.Discrete) (hx' : x'.Discrete) (hy : y.Discrete) (hz : z.Discrete) :
    compare .lt x x ≠ .ok true ∧
      (compare .lt x y = .ok true → compare .lt y z = .ok true → compare .lt x z = .ok true) ∧
      compare .gt x y = compare .lt y x ∧
      compare .gtE x y = compare .ltE y x ∧
      compare .ltE x y = (compare .lt x y).map (fun less => less || x.equals y) ∧
      (compare .lt x y = .ok true → x.equals y = false) ∧
      (x.equals x' = true → ∀ op : CompareOp, op.isOrder = true → compare op x y = compare op x' y) := by
  refine ⟨?_, ?_, compare_gt_eq hx hy, ?_, compare_ltE_eq hx hy, ?_, ?_⟩
  · intro h
    exact not_below_self hx ((compare_lt_iff hx hx).mp h)
  · rw [compare_lt_iff hx hy, compare_lt_iff hy hz, compare_lt_iff hx hz]
    exact Below.trans hx hy hz
  · exact compare_exchange hx hy rfl rfl (by decide)
  · rw [compare_lt_iff hx hy]
    exact Below.not_equals hx hy
  · intro hequal op hop
    rw [compare_eq_rank hx hy hop, compare_eq_rank hx' hy hop, rank_congr hx hx' hy hequal]

/-- The law at the pairs `(1, {2})`, `(True, frozenset({2}))`, `(1, {3, 2})` and `(1, {4, 3, 2})`. -/
theorem compare_laws_pairs :
    let x : Value := .tuple [.int 1, .set [.int 2]]
    let x' : Value := .tuple [.bool true, .frozenSet [.int 2]]
    let y : Value := .tuple [.int 1, .set [.int 3, .int 2]]
    let z : Value := .tuple [.int 1, .frozenSet [.int 4, .int 3, .int 2]]
    compare .lt x z = .ok true ∧ compare .gt y x' = .ok true := by
  intro x x' y z
  have hx : x.Discrete := by decide +kernel
  have hx' : x'.Discrete := by decide +kernel
  have hy : y.Discrete := by decide +kernel
  have hz : z.Discrete := by decide +kernel
  have hxy : compare .lt x y = .ok true := by decide +kernel
  have hyz : compare .lt y z = .ok true := by decide +kernel
  have hxx' : x.equals x' = true := by decide +kernel
  obtain ⟨-, htrans, -, -, -, -, hcongr⟩ := compare_laws hx hx' hy hz
  obtain ⟨-, -, hgt, -⟩ := compare_laws hy hx hx' hz
  refine ⟨htrans hxy hyz, ?_⟩
  rw [hgt, ← hcongr hxx' .lt rfl]
  exact hxy

/-- With equal keys in a dictionary, `{1: 2, 1: 2} == {1: 2, 5: 6}` and `{1: 2, 1: 2} == {1: 2, 7: 8}`, but
`{1: 2, 5: 6} != {1: 2, 7: 8}`: then equal values do not compare alike. -/
theorem compare_equal_keys :
    let x : Value := .tuple [.dict [(.int 1, .int 2), (.int 1, .int 2)]]
    let x' : Value := .tuple [.dict [(.int 1, .int 2), (.int 5, .int 6)]]
    let y : Value := .tuple [.dict [(.int 1, .int 2), (.int 7, .int 8)]]
    (∀ v ∈ [x, x', y], v.Everywhere fun w => w.members? = Option.none ∧ Builtin.isInexact w = false) ∧
      x.equals x' = true ∧ compare .gt x y = .ok false ∧ compare .gt x' y = .error .typeError := by
  decide +kernel

end Value

end Speculator
