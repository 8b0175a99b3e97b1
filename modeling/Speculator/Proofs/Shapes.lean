import Speculator.Proofs.Congruence
import Speculator.Proofs.Effects

/-!
# Conditions on the nodes of expressions

A `Shape` is a condition on the kind of an expression that does not look into its parts and that literals meet.  An
expression in which all nodes meet it (`Expr.All`) keeps it when its parts are exchanged for such expressions, when
names are replaced by such expressions, and when operations on literals are folded.
-/

namespace Speculator

open List

variable {new : Expr}

/-! ### Shapes -/

/-- A condition on the kind of an expression.  It does not look into the parts, and literals meet it. -/
structure Shape where
  check : ExprKind → Bool
  rebuilt : ∀ {R e new}, Expr.Rebuilds R e new → check new.kind = check e.kind
  negated : ∀ {op opposite left comparators}, op.negation? = some opposite →
    check (.compare left [opposite] comparators) = check (.compare left [op] comparators)
  const : ∀ {v}, v.isConstant = true → check (.const v) = true
  tuple : ∀ items, check (.tuple items) = true
  list : ∀ items, check (.list items) = true
  set : ∀ items, check (.set items) = true
  dict : ∀ {keys values}, keys.length = values.length → check (.dict keys values) = true

def Expr.All (sh : Shape) (e : Expr) : Prop :=
  ∀ c : Expr, .expr c ∈ e.nodes Node.everywhere → sh.check c.kind = true

def Node.meets (sh : Shape) : Node → Bool
  | .expr e => sh.check e.kind
  | _ => true

instance (sh : Shape) (e : Expr) : Decidable (e.All sh) :=
  decidable_of_iff ((e.nodes Node.everywhere).all (Node.meets sh) = true) <| by
    rw [all_eq_true]
    refine ⟨fun h c hc => h _ hc, fun h node hnode => ?_⟩
    cases node with
    | expr c => exact h c hnode
    | _ => rfl

section

variable {sh : Shape}

variable {e : Expr} {R : Expr → Expr → Prop} {pos : Position} {v : Value} {limits : Limits}

theorem Expr.all_iff : e.All sh ↔ sh.check e.kind = true ∧ ∀ c ∈ e.parts, c.All sh := by
  unfold Expr.All
  simp only [Expr.mem_nodes_iff (e := e)]
  constructor
  · exact fun h => ⟨h e (.inl rfl), fun c hc sub hsub => h sub (.inr ⟨c, hc, hsub⟩)⟩
  · rintro ⟨hroot, hparts⟩ sub (hsub | ⟨c, hc, hsub⟩)
    · cases hsub
      exact hroot
    · exact hparts c hc sub hsub

theorem Expr.all_of_forall₂ (hR : ∀ {a b}, R a b → a.All sh → b.All sh) {es news} (h : Forall₂ R es news)
    (hes : ∀ e ∈ es, e.All sh) : ∀ e ∈ news, e.All sh := by
  intro new hnew
  obtain ⟨e, he, hnew⟩ := exists_of_forall₂ h hnew
  exact hR hnew (hes e he)

theorem Expr.Rebuilds.all (hR : ∀ {a b}, R a b → a.All sh → b.All sh) (h : e.Rebuilds R new) (he : e.All sh) :
    new.All sh := by
  rw [Expr.all_iff] at he ⊢
  exact ⟨(sh.rebuilt h).trans he.1, Expr.all_of_forall₂ hR h.parts he.2⟩

theorem Expr.All.at (h : e.All sh) (pos : Position) : Expr.All sh ⟨pos, e.kind⟩ := by
  obtain ⟨at', kind⟩ := e
  rw [Expr.all_iff] at h ⊢
  exact h

theorem Expr.All.substitute {table} (htable : ∀ p ∈ table, p.2.All sh) (he : e.All sh) :
    (e.substitute table).All sh := by
  induction e using Expr.induction_parts with
  | _ e ih =>
    cases hname : e.name? with
    | none =>
      have hparts : e.Rebuilds (fun a b => a.All sh → b.All sh) (e.substitute table) :=
        Expr.rebuilds_substitute hname fun c hc => ⟨fun _ => id, ih c hc⟩
      exact hparts.all id he
    | some id =>
      rw [Expr.substitute_of_name table hname]
      unfold replacement
      split
      · rename_i new hnew
        obtain ⟨l1, l2, rfl, _⟩ := lookup_eq_some_iff.mp hnew
        exact (htable (id, new) (by simp)).at e.pos
      · exact Expr.eq_of_name hname ▸ he

/-! ### Literals -/

theorem Expr.all_const (h : v.isConstant = true) : Expr.All sh ⟨pos, .const v⟩ :=
  Expr.all_iff.mpr ⟨sh.const h, fun _ hc => by cases hc⟩

theorem Value.all_displays (pos : Position) : Value.DisplayRules pos fun _ e => e.All sh := by
  have hitems : ∀ {α : Type} {as : List α} {es : List Expr}, Forall₂ (fun _ e => e.All sh) as es →
      ∀ e ∈ es, e.All sh := fun h e he => (exists_of_forall₂ h he).choose_spec.2
  refine ⟨Expr.all_const, fun h => ?_, fun _ h => ?_, fun h => ?_, fun h => ?_, fun hkeys hvalues => ?_⟩
  · exact Expr.all_iff.mpr ⟨sh.tuple _, hitems h⟩
  · exact Expr.all_iff.mpr ⟨sh.set _, hitems h⟩
  · exact Expr.all_iff.mpr ⟨sh.list _, hitems h⟩
  · exact Expr.all_iff.mpr ⟨sh.set _, hitems h⟩
  · refine Expr.all_iff.mpr ⟨sh.dict (hkeys.length_eq.symm.trans hvalues.length_eq), fun c hc => ?_⟩
    exact (mem_append.mp hc).elim (hitems hkeys c) (hitems hvalues c)

theorem Value.all_toExpr (pos : Position) (v : Value) : (v.toExpr pos).All sh := (Value.all_displays pos).holds v

theorem Limits.all_literal? (h : limits.literal? v pos = some e) : e.All sh := by
  rw [Limits.eq_toExpr_of_literal? h]
  exact v.all_toExpr pos

theorem Folding.Folded.all (h : Folded limits e new) (he : e.All sh) : new.All sh := by
  cases h with
  | binary _ _ _ hnew | unary _ _ hnew | item _ _ _ hnew | slice _ _ _ _ _ hnew | compared _ _ _ hnew
  | identical _ hnew =>
    exact Limits.all_literal? hnew
  | negated hop =>
    have hoperand := (Expr.all_iff.mp he).2 _ mem_cons_self
    rw [Expr.all_iff] at hoperand ⊢
    exact ⟨(sh.negated hop).trans hoperand.1, hoperand.2⟩
  | searched hright hnew =>
    rename_i pos left right new _
    have hparts : Expr.Rebuilds (fun a b => a.All sh → b.All sh) ⟨pos, .compare left [.isIn] [right]⟩
        ⟨pos, .compare left [.isIn] [new]⟩ := .compare id (.cons (fun _ => Limits.all_literal? hnew) .nil)
    exact hparts.all id he

theorem Unrolling.Literals.all {literals} (h : Literals limits literals) : ∀ l ∈ literals, l.All sh := by
  intro l hl
  obtain ⟨v, pos, hv⟩ := h.2 l hl
  exact Limits.all_literal? hv

theorem Unrolling.Unrolled.all (h : Unrolled limits e new) (he : e.All sh) :
    new.All sh := by
  have hinstances : ∀ {item id literals}, Literals limits literals → item ∈ e.parts →
      ∀ c ∈ instances item id literals, c.All sh := by
    intro item id literals hliterals hitem c hc
    obtain ⟨l, hl, rfl⟩ := mem_map.mp hc
    refine Expr.All.substitute (fun p hp => ?_) ((Expr.all_iff.mp he).2 item hitem)
    rw [mem_singleton.mp hp]
    exact hliterals.all l hl
  cases h with
  | list _ _ _ hliterals => exact Expr.all_iff.mpr ⟨sh.list _, hinstances hliterals (by simp [Expr.parts])⟩
  | set _ _ _ hliterals => exact Expr.all_iff.mpr ⟨sh.set _, hinstances hliterals (by simp [Expr.parts])⟩
  | dict _ _ _ _ hliterals =>
    refine Expr.all_iff.mpr ⟨sh.dict (by simp [instances]), forall_mem_append.mpr ⟨?_, ?_⟩⟩
    · exact hinstances hliterals (by simp [Expr.parts])
    · exact hinstances hliterals (by simp [Expr.parts])

end

end Speculator
