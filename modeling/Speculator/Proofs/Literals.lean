import Speculator.Proofs.Evaluation
import Speculator.Proofs.Nodes

/-!
# Literals and their values

A value and the expression that denotes it.  `Value.Regular` describes the values that evaluation can build: the items
of a set and the keys of a dictionary are hashable and differ from each other, and frozen sets hold constants.
Relations that are kept by displays hold between literals and their values (`Expr.LiteralRules`).
-/

namespace Speculator

open List

variable {ε α β : Type} {v : Value} {pos : Position} {e : Expr} {vs : List Value} {f : α → Except ε β} {as : List α}
  {bs : List β}

/-! ### Results -/

theorem toOption_eq_some {r : Except ε α} {a : α} (h : r.toOption = some a) : r = .ok a := by
  cases r with
  | ok b => cases h; rfl
  | error e => cases h

theorem map_eq_ok {r : Except ε α} {f : α → β} {b : β} (h : r.map f = .ok b) :
    ∃ a, r = .ok a ∧ b = f a := by
  cases r with
  | ok a => cases h; exact ⟨a, rfl, rfl⟩
  | error e => cases h

theorem bind_eq_ok {x : Except ε α} {b : β} (h : x >>= f = .ok b) : ∃ a, x = .ok a ∧ f a = .ok b := by
  cases x with
  | error => cases h
  | ok a => exact ⟨a, rfl, h⟩

theorem mapM_eq_ok : as.mapM f = .ok bs ↔ Forall₂ (fun a b => f a = .ok b) as bs := by
  induction as generalizing bs with
  | nil => cases bs <;> simp [pure, Except.pure]
  | cons a as ih =>
    rw [mapM_cons]
    cases ha : f a with
    | error => cases bs <;> simp [bind, Except.bind, ha]
    | ok b =>
      cases has : as.mapM f with
      | error =>
        cases bs <;> simp [bind, Except.bind, ← ih, has]
      | ok cs =>
        cases bs <;> simp [bind, Except.bind, pure, Except.pure, ← ih, has, ha]

theorem bind_eq_error {x : Except ε α} {error : ε} (h : x >>= f = .error error) :
    x = .error error ∨ ∃ a, x = .ok a ∧ f a = .error error := by
  cases x with
  | error => cases h; exact .inl rfl
  | ok a => exact .inr ⟨a, rfl, h⟩

theorem mapM_eq_error {error : ε} (h : as.mapM f = .error error) : ∃ a ∈ as, f a = .error error := by
  induction as with
  | nil => cases h
  | cons a as ih =>
    rw [mapM_cons] at h
    rcases bind_eq_error h with h | ⟨b, _, h⟩
    · exact ⟨a, mem_cons_self, h⟩
    · rcases bind_eq_error h with h | ⟨bs, _, h⟩
      · obtain ⟨a', ha', h⟩ := ih h
        exact ⟨a', mem_cons_of_mem _ ha', h⟩
      · cases h

theorem orElse_eq_some {first second : Option α} {a : α} (h : (first <|> second) = some a) :
    first = some a ∨ second = some a := by
  cases first with
  | none => exact .inr h
  | some b => exact .inl h

theorem forall₂_of_mapM {f : α → Option β} (h : as.mapM f = some bs) : Forall₂ (fun a b => f a = some b) as bs := by
  induction as generalizing bs with
  | nil =>
    cases h
    exact .nil
  | cons a as ih =>
    rw [mapM_cons] at h
    obtain ⟨b, hb, h⟩ := Option.bind_eq_some_iff.mp h
    obtain ⟨rest, hrest, h⟩ := Option.bind_eq_some_iff.mp h
    cases h
    exact .cons hb (ih hrest)

theorem ne_nil_of_mapM {f : α → Option β} (h : as.mapM f = some bs) (has : as ≠ []) : bs ≠ [] := by
  rintro rfl
  exact has (forall₂_nil_right_iff.mp (forall₂_of_mapM h))

theorem mem_of_mapM {f : α → Option β} (h : as.mapM f = some bs) {b : β} (hb : b ∈ bs) :
    ∃ a ∈ as, f a = some b := exists_of_forall₂ (forall₂_of_mapM h) hb

/-! ### Regular values -/

/-- The items can be the items of a set: hashable, and no item is equal to an earlier one. -/
def Distinct (items : List Value) : Prop :=
  (∀ v ∈ items, v.isHashable = true) ∧ items.Pairwise fun v w => v.equals w = false

namespace Value

mutual

/-- The values built by evaluation; sets and dictionaries only if `sets`. -/
def Regular (sets : Bool) : Value → Prop
  | .tuple items | .list items => AllRegular sets items
  | .frozenSet items => allConstant items = true
  | .set items => sets = true ∧ AllRegular sets items ∧ Distinct items
  | .dict pairs => sets = true ∧ PairsRegular sets pairs ∧ Distinct (pairs.map Prod.fst)
  | _ => True

def AllRegular (sets : Bool) : List Value → Prop
  | [] => True
  | v :: vs => v.Regular sets ∧ AllRegular sets vs

def PairsRegular (sets : Bool) : List (Value × Value) → Prop
  | [] => True
  | (k, v) :: ps => k.Regular sets ∧ v.Regular sets ∧ PairsRegular sets ps

end

variable {sets : Bool} {vs items : List Value} {ps entries : List (Value × Value)} {v : Value}
  {result : List (Value × Value)}

theorem allRegular_iff : AllRegular sets vs ↔ ∀ v ∈ vs, v.Regular sets := by
  induction vs with
  | nil => simp [AllRegular]
  | cons v vs ih => simp [AllRegular, ih]

theorem pairsRegular_iff : PairsRegular sets ps ↔ ∀ p ∈ ps, p.1.Regular sets ∧ p.2.Regular sets := by
  induction ps with
  | nil => simp [PairsRegular]
  | cons p ps ih =>
    obtain ⟨k, v⟩ := p
    simp [PairsRegular, ih, and_assoc]

theorem allConstant_iff : allConstant vs = true ↔ ∀ v ∈ vs, v.isConstant = true := by
  induction vs with
  | nil => simp [allConstant]
  | cons v vs ih => simp [allConstant, ih]

mutual

theorem regular_of_isConstant (sets : Bool) : (v : Value) → v.isConstant = true → v.Regular sets
  | .tuple items, h => by
    rw [isConstant] at h
    rw [Regular]
    exact allRegular_of_allConstant sets items h
  | .frozenSet items, h => by
    rw [isConstant] at h
    rw [Regular]
    exact h
  | .none, _ | .ellipsis, _ | .bool _, _ | .int _, _ | .float _, _ | .complex _, _ | .str _, _ | .bytes _, _ => by
    simp [Regular]
  | .list _, h | .set _, h | .dict _, h => by simp [isConstant] at h

theorem allRegular_of_allConstant (sets : Bool) : (vs : List Value) → allConstant vs = true → AllRegular sets vs
  | [], _ => trivial
  | v :: vs, h => by
    rw [allConstant, Bool.and_eq_true] at h
    exact ⟨regular_of_isConstant sets v h.1, allRegular_of_allConstant sets vs h.2⟩

end

mutual

theorem isConstant_of_isHashable (sets : Bool) :
    (v : Value) → v.Regular sets → v.isHashable = true → v.isConstant = true
  | .tuple items, hr, h => by
    rw [Regular] at hr
    rw [isHashable] at h
    rw [isConstant]
    exact allConstant_of_allHashable sets items hr h
  | .frozenSet items, hr, _ => by
    rw [Regular] at hr
    rw [isConstant]
    exact hr
  | .none, _, _ | .ellipsis, _, _ | .bool _, _, _ | .int _, _, _ | .float _, _, _ | .complex _, _, _ | .str _, _, _
  | .bytes _, _, _ => by simp [isConstant]
  | .list _, _, h | .set _, _, h | .dict _, _, h => by simp [isHashable] at h

theorem allConstant_of_allHashable (sets : Bool) :
    (vs : List Value) → AllRegular sets vs → allHashable vs = true → allConstant vs = true
  | [], _, _ => rfl
  | v :: vs, hr, h => by
    rw [allHashable, Bool.and_eq_true] at h
    rw [allConstant, Bool.and_eq_true]
    exact ⟨isConstant_of_isHashable sets v hr.1 h.1, allConstant_of_allHashable sets vs hr.2 h.2⟩

end

/-! ### Collecting sets and dictionaries -/

def collectItems (items vs : List Value) : Except Fault (List Value) :=
  vs.foldlM (fun items v => if v.isHashable then .ok (insertItem items v) else .error .typeError) items

theorem collectItems_cons (items vs : List Value) (v : Value) :
    collectItems items (v :: vs) =
      if v.isHashable then collectItems (insertItem items v) vs else .error .typeError := by
  unfold collectItems
  rw [foldlM_cons]
  split <;> rfl

theorem distinct_insertItem (hd : Distinct items) (hv : v.isHashable = true) : Distinct (insertItem items v) := by
  unfold insertItem
  split
  · exact hd
  · rename_i hnew
    have hne : ∀ w ∈ items, w.equals v = false := by simpa using hnew
    refine ⟨?_, ?_⟩
    · intro w hw
      rcases mem_append.mp hw with hw | hw
      · exact hd.1 w hw
      · rw [mem_singleton.mp hw]; exact hv
    · rw [pairwise_append]
      refine ⟨hd.2, pairwise_singleton _ _, ?_⟩
      intro w hw u hu
      rw [mem_singleton.mp hu]
      exact hne w hw

theorem mem_insertItem {w} (h : w ∈ insertItem items v) : w ∈ items ∨ w = v := by
  unfold insertItem at h
  split at h
  · exact .inl h
  · simpa using h

theorem collectItems_ok {result} (hd : Distinct items) (h : collectItems items vs = .ok result) :
    Distinct result ∧ ∀ v ∈ result, v ∈ items ∨ v ∈ vs := by
  induction vs generalizing items with
  | nil =>
    cases h
    exact ⟨hd, fun v hv => .inl hv⟩
  | cons v vs ih =>
    rw [collectItems_cons] at h
    split at h
    · rename_i hv
      obtain ⟨hd', hmem⟩ := ih (distinct_insertItem hd hv) h
      refine ⟨hd', fun w hw => ?_⟩
      rcases hmem w hw with hw | hw
      · rcases mem_insertItem hw with hw | rfl
        · exact .inl hw
        · exact .inr (by simp)
      · exact .inr (by simp [hw])
    · cases h

theorem distinct_nil : Distinct [] := ⟨by simp, Pairwise.nil⟩

theorem collectSet_ok {result} (h : collectSet vs = .ok result) : Distinct result ∧ ∀ v ∈ result, v ∈ vs := by
  obtain ⟨hd, hmem⟩ := collectItems_ok distinct_nil h
  exact ⟨hd, fun v hv => by simpa using hmem v hv⟩

theorem collectItems_of_distinct (hd : Distinct (items ++ vs)) : collectItems items vs = .ok (items ++ vs) := by
  induction vs generalizing items with
  | nil => simp [collectItems]; rfl
  | cons v vs ih =>
    have hv : v.isHashable = true := hd.1 v (by simp)
    have hne : ∀ w ∈ items, w.equals v = false := fun w hw => (pairwise_append.mp hd.2).2.2 w hw v (by simp)
    have hinsert : insertItem items v = items ++ [v] := by
      unfold insertItem
      rw [if_neg]
      simpa using hne
    have hassoc : items ++ v :: vs = (items ++ [v]) ++ vs := by simp
    rw [collectItems_cons, if_pos hv, hinsert, hassoc]
    exact ih (by rw [← hassoc]; exact hd)

theorem collectSet_of_distinct (hd : Distinct vs) : collectSet vs = .ok vs := by
  have hd' : Distinct ([] ++ vs) := hd
  exact collectItems_of_distinct hd'

def collectEntries (entries ps : List (Value × Value)) : Except Fault (List (Value × Value)) :=
  ps.foldlM (fun entries p => if p.1.isHashable then .ok (insertEntry entries p.1 p.2) else .error .typeError) entries

theorem collectEntries_cons (entries ps : List (Value × Value)) (p : Value × Value) :
    collectEntries entries (p :: ps) =
      if p.1.isHashable then collectEntries (insertEntry entries p.1 p.2) ps else .error .typeError := by
  unfold collectEntries
  rw [foldlM_cons]
  split <;> rfl

theorem keys_insertEntry (entries : List (Value × Value)) (k v : Value) :
    (insertEntry entries k v).map Prod.fst = insertItem (entries.map Prod.fst) k := by
  induction entries with
  | nil => simp [insertEntry, insertItem]
  | cons p entries ih =>
    obtain ⟨k', v'⟩ := p
    unfold insertEntry
    cases hk : k'.equals k with
    | true => simp [insertItem, hk]
    | false =>
      unfold insertItem at ih ⊢
      simp only [Bool.false_eq_true, if_false, map_cons, ih, any_cons, hk, Bool.false_or]
      split <;> simp

theorem pairsRegular_insertEntry {k} (he : PairsRegular sets entries) (hk : k.Regular sets) (hv : v.Regular sets) :
    PairsRegular sets (insertEntry entries k v) := by
  induction entries with
  | nil => exact ⟨hk, hv, trivial⟩
  | cons p entries ih =>
    obtain ⟨k', v'⟩ := p
    unfold insertEntry
    split
    · exact ⟨he.1, hv, he.2.2⟩
    · exact ⟨he.1, he.2.1, ih he.2.2⟩

theorem collectEntries_ok (hd : Distinct (entries.map Prod.fst))
    (he : PairsRegular sets entries) (hps : PairsRegular sets ps) (h : collectEntries entries ps = .ok result) :
    Distinct (result.map Prod.fst) ∧ PairsRegular sets result := by
  induction ps generalizing entries with
  | nil =>
    cases h
    exact ⟨hd, he⟩
  | cons p ps ih =>
    obtain ⟨k, v⟩ := p
    rw [collectEntries_cons] at h
    split at h
    · rename_i hk
      refine ih ?_ (pairsRegular_insertEntry he hps.1 hps.2.1) hps.2.2 h
      rw [keys_insertEntry]
      exact distinct_insertItem hd hk
    · cases h

theorem collectDict_ok (hps : PairsRegular sets ps) (h : collectDict ps = .ok result) :
    Distinct (result.map Prod.fst) ∧ PairsRegular sets result := by
  have hd : Distinct (([] : List (Value × Value)).map Prod.fst) := distinct_nil
  exact collectEntries_ok hd trivial hps h

theorem insertEntry_of_new {k} (hne : ∀ p ∈ entries, p.1.equals k = false) :
    insertEntry entries k v = entries ++ [(k, v)] := by
  induction entries with
  | nil => rfl
  | cons p entries ih =>
    obtain ⟨k', v'⟩ := p
    have hk : k'.equals k = false := hne (k', v') (by simp)
    simp only [insertEntry, hk, Bool.false_eq_true, if_false, cons_append]
    rw [ih fun p hp => hne p (by simp [hp])]

theorem collectEntries_of_distinct (hd : Distinct ((entries ++ ps).map Prod.fst)) :
    collectEntries entries ps = .ok (entries ++ ps) := by
  induction ps generalizing entries with
  | nil => simp [collectEntries]; rfl
  | cons p ps ih =>
    obtain ⟨k, v⟩ := p
    have hk : k.isHashable = true := hd.1 k (by simp)
    have hpw := hd.2
    rw [map_append, pairwise_append] at hpw
    have hne : ∀ q ∈ entries, q.1.equals k = false := fun q hq =>
      hpw.2.2 q.1 (mem_map_of_mem hq) k (by simp)
    have hassoc : entries ++ (k, v) :: ps = (entries ++ [(k, v)]) ++ ps := by simp
    rw [collectEntries_cons, if_pos hk, insertEntry_of_new hne, hassoc]
    exact ih (by rw [← hassoc]; exact hd)

theorem collectDict_of_distinct (hd : Distinct (ps.map Prod.fst)) : collectDict ps = .ok ps := by
  have hd' : Distinct ((([] : List (Value × Value)) ++ ps).map Prod.fst) := hd
  exact collectEntries_of_distinct hd'

end Value

theorem Limits.eq_toExpr_of_literal? {limits : Limits} (h : limits.literal? v pos = some e) : e = v.toExpr pos := by
  unfold Limits.literal? at h
  split at h
  · cases h
    rfl
  · cases h

/-! ### Reading literals -/

theorem ExprKind.scalar?_eq_some {kind : ExprKind} (h : kind.scalar? = some v) :
    kind = .const v ∨
      ∃ pos w, kind = .unaryOp .minus ⟨pos, .const w⟩ ∧ w.isNumber = true ∧ Value.unary .minus w = .ok v := by
  unfold ExprKind.scalar? at h
  split at h
  · cases h
    exact .inl rfl
  · rename_i pos w
    split at h
    · exact .inr ⟨pos, w, rfl, ‹_›, toOption_eq_some h⟩
    · cases h
  · cases h

namespace Expr

/-- What holds of literal nodes and negated numbers and their values, and is kept by tuples. -/
structure ConstantRules (R : Expr → Value → Prop) : Prop where
  const : ∀ pos v, R ⟨pos, .const v⟩ v
  minus : ∀ {pos at' w v}, w.isNumber = true → Value.unary .minus w = .ok v →
    R ⟨pos, .unaryOp .minus ⟨at', .const w⟩⟩ v
  tuple : ∀ {pos items vs}, Forall₂ R items vs → R ⟨pos, .tuple items⟩ (.tuple vs)

/-- What is kept by the other displays as well. -/
structure LiteralRules (R : Expr → Value → Prop) : Prop extends ConstantRules R where
  list : ∀ {pos items vs}, Forall₂ R items vs → R ⟨pos, .list items⟩ (.list vs)
  set : ∀ {pos items vs collected}, Forall₂ R items vs → Value.collectSet vs = .ok collected →
    R ⟨pos, .set items⟩ (.set collected)
  dict : ∀ {pos keys values ks vs entries}, Forall₂ R keys ks → Forall₂ R values vs →
    Value.collectDict (ks.zip vs) = .ok entries → R ⟨pos, .dict keys values⟩ (.dict entries)

variable {R : Expr → Value → Prop}

theorem ConstantRules.scalar (hR : ConstantRules R) {kind} (h : kind.scalar? = some v) : R ⟨pos, kind⟩ v := by
  rcases ExprKind.scalar?_eq_some h with rfl | ⟨_, w, rfl, hnumber, hw⟩
  · exact hR.const pos v
  · exact hR.minus hnumber hw

mutual

theorem ConstantRules.holds (hR : ConstantRules R) : (e : Expr) → {v : Value} → e.constant? = some v → R e v
  | ⟨_, kind⟩, v, h => by
    cases kind with
    | tuple items =>
      obtain ⟨vs, hvs, rfl⟩ := Option.map_eq_some_iff.mp h
      exact hR.tuple (hR.holds_items items hvs)
    | _ => exact hR.scalar h

theorem ConstantRules.holds_items (hR : ConstantRules R) :
    (es : List Expr) → {vs : List Value} → constants? es = some vs → Forall₂ R es vs
  | [], _, h => by cases h; exact .nil
  | e :: es, vs, h => by
    rw [constants?] at h
    split at h
    · rename_i v vs' hv hvs
      cases h
      exact .cons (hR.holds e hv) (hR.holds_items es hvs)
    · cases h

end

mutual

theorem LiteralRules.holds (hR : LiteralRules R) : (e : Expr) → {v : Value} → e.literal? = some v → R e v
  | ⟨_, kind⟩, v, h => by
    cases kind with
    | tuple items =>
      obtain ⟨vs, hvs, rfl⟩ := Option.map_eq_some_iff.mp h
      exact hR.tuple (hR.holds_items items hvs)
    | list items =>
      obtain ⟨vs, hvs, rfl⟩ := Option.map_eq_some_iff.mp h
      exact hR.list (hR.holds_items items hvs)
    | set items =>
      rw [literal?] at h
      split at h
      · rename_i vs hvs
        obtain ⟨collected, hcollected, rfl⟩ := map_eq_ok (toOption_eq_some h)
        exact hR.set (hR.holds_items items hvs) hcollected
      · cases h
    | dict keys values =>
      rw [literal?] at h
      split at h
      · rename_i ks vs hks hvs
        obtain ⟨entries, hentries, rfl⟩ := map_eq_ok (toOption_eq_some h)
        exact hR.dict (hR.holds_items keys hks) (hR.holds_items values hvs) hentries
      · cases h
    | _ => exact hR.scalar h

theorem LiteralRules.holds_items (hR : LiteralRules R) :
    (es : List Expr) → {vs : List Value} → literals? es = some vs → Forall₂ R es vs
  | [], _, h => by cases h; exact .nil
  | e :: es, vs, h => by
    rw [literals?] at h
    split at h
    · rename_i v vs' hv hvs
      cases h
      exact .cons (hR.holds e hv) (hR.holds_items es hvs)
    · cases h

end

theorem literals?_of_forall₂ {es} (h : Forall₂ (fun e v => e.literal? = some v) es vs) : literals? es = some vs := by
  induction h with
  | nil => rfl
  | cons he _ ih => rw [literals?, he, ih]

theorem literal_constants : ConstantRules fun e v => e.literal? = some v where
  const _ _ := rfl
  minus hnumber hw := by
    simp only [literal?, ExprKind.scalar?, if_pos hnumber, hw]
    rfl
  tuple hitems := by rw [literal?, literals?_of_forall₂ hitems]; rfl

theorem literal?_of_constant? (e : Expr) (h : e.constant? = some v) : e.literal? = some v :=
  literal_constants.holds e h

end Expr

/-- What holds of constants and their nodes, and is kept by the displays for the other values. -/
structure Value.DisplayRules (pos : Position) (R : Value → Expr → Prop) : Prop where
  const : ∀ {v}, v.isConstant = true → R v ⟨pos, .const v⟩
  tuple : ∀ {vs es}, Forall₂ R vs es → R (.tuple vs) ⟨pos, .tuple es⟩
  frozenSet : ∀ {vs es}, (Value.frozenSet vs).isConstant = false → Forall₂ R vs es → R (.frozenSet vs) ⟨pos, .set es⟩
  list : ∀ {vs es}, Forall₂ R vs es → R (.list vs) ⟨pos, .list es⟩
  set : ∀ {vs es}, Forall₂ R vs es → R (.set vs) ⟨pos, .set es⟩
  dict : ∀ {ps keys values}, Forall₂ (fun p e => R p.1 e) ps keys → Forall₂ (fun p e => R p.2 e) ps values →
    R (.dict ps) ⟨pos, .dict keys values⟩

namespace Value

section Displays

variable {pos : Position} {R : Value → Expr → Prop}

mutual

theorem DisplayRules.holds (hR : DisplayRules pos R) : (v : Value) → R v (v.toExpr pos)
  | .tuple items => by
    rw [toExpr]
    split
    · exact hR.const ‹_›
    · exact hR.tuple (hR.holds_items items)
  | .frozenSet items => by
    rw [toExpr]
    split
    · exact hR.const ‹_›
    · exact hR.frozenSet (Bool.eq_false_iff.mpr ‹_›) (hR.holds_items items)
  | .list items => hR.list (hR.holds_items items)
  | .set items => hR.set (hR.holds_items items)
  | .dict pairs => hR.dict (hR.holds_pairs pairs).1 (hR.holds_pairs pairs).2
  | .none | .ellipsis | .bool _ | .int _ | .float _ | .complex _ | .str _ | .bytes _ => hR.const rfl

theorem DisplayRules.holds_items (hR : DisplayRules pos R) : (vs : List Value) → Forall₂ R vs (toExprs pos vs)
  | [] => .nil
  | v :: vs => .cons (hR.holds v) (hR.holds_items vs)

theorem DisplayRules.holds_pairs (hR : DisplayRules pos R) : (ps : List (Value × Value)) →
    Forall₂ (fun p e => R p.1 e) ps (keyExprs pos ps) ∧ Forall₂ (fun p e => R p.2 e) ps (valueExprs pos ps)
  | [] => ⟨.nil, .nil⟩
  | (k, v) :: ps =>
    have ih := hR.holds_pairs ps
    ⟨.cons (hR.holds k) ih.1, .cons (hR.holds v) ih.2⟩

end

end Displays

theorem constants?_of_forall₂ {vs es}
    (h : Forall₂ (fun v e => e.constant? = if v.isConstant then some v else .none) vs es) :
    Expr.constants? es = if allConstant vs then some vs else .none := by
  induction h with
  | nil => rfl
  | @cons v e vs es hv _ ih =>
    rw [Expr.constants?, hv, ih, allConstant]
    cases v.isConstant <;> cases allConstant vs <;> rfl

theorem constant_displays (pos : Position) :
    DisplayRules pos fun v e => e.constant? = if v.isConstant then some v else .none where
  const hv := by rw [hv]; rfl
  tuple h := by
    rw [Expr.constant?, constants?_of_forall₂ h, isConstant]
    split <;> rfl
  frozenSet hv _ := by rw [hv]; rfl
  list _ := rfl
  set _ := rfl
  dict _ _ := rfl

theorem constant?_toExpr (pos : Position) (v : Value) :
    (v.toExpr pos).constant? = if v.isConstant then some v else .none :=
  (constant_displays pos).holds v

theorem literal_displays (sets : Bool) (pos : Position) :
    DisplayRules pos fun v e => v.Regular sets → e.literal? = some v := by
  have hitems : ∀ {vs es}, Forall₂ (fun v e => v.Regular sets → e.literal? = some v) vs es →
      (∀ v ∈ vs, v.Regular sets) → Expr.literals? es = some vs := fun h hvs =>
    Expr.literals?_of_forall₂ (forall₂_of_mem hvs h).flip
  refine ⟨fun _ _ => rfl, fun h hv => ?tuple, fun hconstant _ hv => ?_, fun h hv => ?list, fun h hv => ?_,
    fun {ps keys values} hkeys hvalues hv => ?_⟩ <;> rw [Regular] at hv
  case tuple | list =>
    rw [Expr.literal?, hitems h (allRegular_iff.mp hv)]
    rfl
  · rw [isConstant, hv] at hconstant
    cases hconstant
  · rw [Expr.literal?, hitems h (allRegular_iff.mp hv.2.1)]
    dsimp only
    rw [collectSet_of_distinct hv.2.2]
    rfl
  · have hpairs := pairsRegular_iff.mp hv.2.1
    have hzip : (ps.map Prod.fst).zip (ps.map Prod.snd) = ps := (zip_of_prod rfl rfl).symm
    rw [Expr.literal?, hitems (forall₂_map_left_iff.mpr hkeys) (forall_mem_map.mpr fun p hp => (hpairs p hp).1),
      hitems (forall₂_map_left_iff.mpr hvalues) (forall_mem_map.mpr fun p hp => (hpairs p hp).2)]
    dsimp only
    rw [hzip, collectDict_of_distinct hv.2.2]
    rfl

/-- The expression of a regular value is read as that value. -/
theorem literal?_toExpr (sets : Bool) (pos : Position) (v : Value) (hv : v.Regular sets) :
    (v.toExpr pos).literal? = some v := (literal_displays sets pos).holds v hv

end Value

section Denotation

variable {ε : Type} (m : Meaning ε) (env : Env)

@[simp] theorem inSequence_map_ok (vs : List Value) : inSequence (vs.map (Except.ok (ε := ε))) = .ok vs :=
  inSequence_map_pure vs

@[simp] theorem pairsInOrder_map_ok (ks vs : List Value) :
    pairsInOrder (ks.map (Except.ok (ε := ε))) (vs.map .ok) = .ok (ks.zip vs) := by
  induction ks generalizing vs with
  | nil => simp [pairsInOrder]
  | cons k ks ih =>
    cases vs with
    | nil => simp [pairsInOrder]
    | cons v vs => simp only [map_cons, pairsInOrder, ih, zip_cons_cons]; rfl

namespace Expr

theorem evals_of_forall₂ {es} (h : Forall₂ (fun e v => e.eval m env = .ok v) es vs) :
    evals m env es = vs.map .ok := by
  induction h with
  | nil => rfl
  | cons he _ ih =>
    rw [evals, he, ih]
    rfl

theorem eval_literals : LiteralRules fun e v => e.eval m env = .ok v where
  const _ _ := rfl
  minus {_ _ w v} _ hw := by
    change m.result (Value.unary .minus w) = _
    rw [hw, Meaning.result_ok]
  tuple hitems := by
    rw [eval, evals_of_forall₂ m env hitems, inSequence_map_ok]
    rfl
  list hitems := by
    rw [eval, evals_of_forall₂ m env hitems, inSequence_map_ok]
    rfl
  set {_ _ vs _} hitems hcollected := by
    rw [eval, evals_of_forall₂ m env hitems, inSequence_map_ok]
    change m.result ((Value.collectSet vs).map Value.set) = _
    rw [hcollected]
    rfl
  dict {_ _ _ ks vs _} hkeys hvalues hentries := by
    rw [eval, evals_of_forall₂ m env hkeys, evals_of_forall₂ m env hvalues, pairsInOrder_map_ok]
    change m.result ((Value.collectDict (ks.zip vs)).map Value.dict) = _
    rw [hentries]
    rfl

/-- An expression read as a literal evaluates to the value that was read. -/
theorem eval_of_literal (e : Expr) (h : e.literal? = some v) : e.eval m env = .ok v :=
  (eval_literals m env).holds e h

theorem evals_of_literals (es : List Expr) (h : literals? es = some vs) :
    evals m env es = vs.map .ok :=
  evals_of_forall₂ m env ((eval_literals m env).holds_items es h)

theorem eval_of_constant (h : e.constant? = some v) : e.eval m env = .ok v :=
  eval_of_literal m env e (literal?_of_constant? e h)

end Expr

theorem Limits.eval_literal? {limits : Limits} {sets : Bool} (hv : v.Regular sets)
    (h : limits.literal? v pos = some e)
    : e.eval m env = .ok v := by
  rw [Limits.eq_toExpr_of_literal? h]
  exact (v.toExpr pos).eval_of_literal m env (v.literal?_toExpr sets pos hv)

end Denotation

end Speculator
