import Speculator.Proofs.Depth
import Speculator.Proofs.Parts
import Speculator.Proofs.Replacements

/-!
# What the visits make of an expression

A visited expression is the expression with its parts visited (`Expr.Rebuilds`), or what the passes have made of that.
So a relation that is kept by putting expressions together and by the passes (`Congruence`) holds between an
expression and the result of visiting it.  What the passes do may depend on the scopes around the expression, about
which something may be known.
-/

namespace Speculator

open Visit

/-! ### Congruences -/

/-- A relation between an expression and its visited form, in the contexts and states that are `Good`. -/
structure Congruence (R : Expr → Expr → Prop) (Good : Context → State → Prop) : Prop where
  refl : ∀ e, R e e
  trans : ∀ {a b c}, R a b → R b c → R a c
  rebuilt : ∀ {e new}, e.Rebuilds R new → R e new
  replaced : ∀ {ctx s e new s'}, Leaves ctx s e (.replace new) s' → R e new
  revisited : ∀ {ctx s e new s'}, Good ctx s → Inlining.Proceeds ctx s e (.revisit new) s' → R e new
  unrolled : ∀ {limits e new}, Unrolling.Unrolled limits e new → R e new
  frame : ∀ {ctx s s'}, Good ctx s → s'.scope.functions = s.scope.functions → Good ctx s'
  inside : ∀ {ctx s} stage allowGuards scope, Good ctx s → scope.functions = [] →
    Good (ctx.inside s.scope stage allowGuards) (s.inside scope)

def Visitor.Relates (v : Visitor) (R : Expr → Expr → Prop) (Good : Context → State → Prop) : Prop :=
  ∀ ctx s e, Good ctx s → Ensures (v.expr e) (fun _ => True) (fun new s' => R e new ∧ Good ctx s') ctx s

namespace Congruence

variable {R : Expr → Expr → Prop} {Good : Context → State → Prop} (hR : Congruence R Good) {v : Visitor}
  (hv : v.Relates R Good) {ctx : Context} {s : State} (hs : Good ctx s)

include hR hv hs

omit hR hs in
theorem visits (ctx : Context) (e : Expr) :
    Visit.Logic.Visits (I := Unit) (fun x post ctx s => Ensures (x ()) (fun _ => True) post ctx s) (fun _ => v) R
      (Good ctx) ctx e := fun s hs => hv ctx s e hs

theorem target (e : Expr) : Ensures (v.target e) (fun _ => True) (fun new s' => R e new ∧ Good ctx s') ctx s :=
  (logic_ensures _).target (P := fun _ => True) (fun _ _ _ _ => trivial) (.of_rebuilds hR.refl hR.rebuilt)
    (fun e _ => visits hv ctx e) trivial hs

theorem exprHeader (e : Expr) :
    Ensures (v.exprHeader e) (fun _ => True) (fun new s' => R e new ∧ Good ctx s') ctx s :=
  ((logic_ensures _).exprHeader hR.refl (fun c _ => visits hv ctx c) hs).imp fun _ _ h => ⟨hR.rebuilt h.1.1, h.2⟩

theorem exprInside (e : Expr) :
    Ensures (v.exprInside e) (fun _ => True) (fun new s' => R e new ∧ Good ctx s') ctx s := by
  have hlogs : ∀ s s', Good ctx s → s.Logs s' → Good ctx s' := by
    rintro s s' hs ⟨log, rfl⟩
    exact hR.frame hs rfl
  have hnested : ∀ s, Good ctx s → Logic.VisitsNested (I := Unit)
      (fun x post ctx s => Ensures (x ()) (fun _ => True) post ctx s) (fun _ => v) R (fun _ => True)
        (Good ctx) ctx s :=
    fun s hs kind vars _ => ⟨_, hR.inside .generic false { kind := kind, vars := vars } hs rfl,
      fun s' _ => hR.frame hs rfl, fun e _ => visits hv _ e⟩
  refine ((logic_ensures _).exprInside (fun _ _ _ _ => trivial) hR.refl hR.rebuilt hlogs hnested
    (fun c _ => visits hv ctx c) (fun _ _ => trivial) hs).imp ?_
  exact fun _ _ h => ⟨hR.rebuilt h.1, h.2⟩

/-! ### Passes -/

theorem enterExpr {ps} (hps : ∀ p ∈ ps, p ∈ ctx.stage.passes) (e : Expr) : Ensures (v.enterExpr ps e)
    (fun _ => True) (fun r s' => (∀ new, r = some new → R e new) ∧ Good ctx s') ctx s := by
  induction ps generalizing s with
  | nil => exact .pure ⟨(fun _ h => by cases h), hs⟩
  | cons p ps ih =>
    have hp := hps p List.mem_cons_self
    unfold Visitor.enterExpr
    refine ((ctx.stage.unrolled_enterExpr hp).mono (fun _ _ => trivial) fun _ _ h => h).bind fun r s1 h1 => ?_
    obtain ⟨h1, log, rfl⟩ := h1
    have hs1 : Good ctx { s with log := log } := hR.frame hs rfl
    cases r with
    | none => exact ih hs1 fun q hq => hps q (List.mem_cons_of_mem _ hq)
    | some unrolled =>
      refine (hv ctx _ unrolled hs1).bind fun new s2 h2 => .pure ⟨fun new' h => ?_, h2.2⟩
      cases h
      exact hR.trans (hR.unrolled (h1 unrolled rfl)) h2.1

theorem leaveExpr {ps} (hps : ∀ p ∈ ps, p ∈ ctx.stage.passes) (e : Expr) :
    Ensures (v.leaveExpr ps e) (fun _ => True) (fun new s' => R e new ∧ Good ctx s') ctx s := by
  induction ps generalizing e s with
  | nil => exact .pure ⟨hR.refl e, hs⟩
  | cons p ps ih =>
    have hp := hps p List.mem_cons_self
    have hrest : ∀ {e s}, Good ctx s → Ensures (v.leaveExpr ps e) (fun _ => True)
        (fun new s' => R e new ∧ Good ctx s')
        ctx s := fun {e s} hs => ih hs (fun q hq => hps q (List.mem_cons_of_mem _ hq)) e
    -- the rest of the passes see what has been made of the expression, if it is of the same kind
    have hnext : ∀ {middle s1}, R e middle → Good ctx s1 →
        Ensures (if middle.sameKind e then v.leaveExpr ps middle else pure middle) (fun _ => True)
          (fun new s' => R e new ∧ Good ctx s') ctx s1 := by
      intro middle s1 hmiddle hs1
      split
      · exact (hrest hs1).imp fun new s2 h2 => ⟨hR.trans hmiddle h2.1, h2.2⟩
      · exact .pure ⟨hmiddle, hs1⟩
    unfold Visitor.leaveExpr
    refine (((ctx.stage.leaves_leaveExpr hp).and ((ctx.stage.steady_passes p hp).leave e).ensures_frame).mono
      (fun _ _ => trivial) fun _ _ h => h).bind fun step s1 h1 => ?_
    have hs1 := hR.frame hs h1.2.functions
    cases step with
    | keep => exact hrest hs1
    | replace new => exact hnext (hR.replaced h1.1) hs1
    | revisit new =>
      refine (hv ctx s1 new hs1).bind fun new' s2 h2 => ?_
      exact hnext (hR.trans (hR.revisited hs h1.1) h2.1) h2.2

theorem visitExpr (e : Expr) :
    Ensures (v.visitExpr e) (fun _ => True) (fun new s' => R e new ∧ Good ctx s') ctx s := by
  refine Ensures.atExpr ?_ fun _ _ _ _ => trivial
  rw [ensures_read_bind]
  refine (hR.exprHeader hv hs e).bind fun header s1 h1 => ?_
  refine (hR.enterExpr hv h1.2 (fun p hp => hp) header).bind fun r s2 h2 => ?_
  cases r with
  | some new => exact .pure ⟨hR.trans h1.1 (h2.1 new rfl), h2.2⟩
  | none =>
    refine (hR.exprInside hv h2.2 header).bind fun inner s3 h3 => ?_
    refine (hR.leaveExpr hv h3.2 (fun p hp => hp) inner).imp fun new s4 h4 => ?_
    exact ⟨hR.trans h1.1 (hR.trans h3.1 h4.1), h4.2⟩

omit hv hs in
/-- A visit gives an expression that is related to the visited one. -/
theorem visitor (n : Nat) : (visitor n).Relates R Good := by
  induction n with
  | zero => exact fun ctx s e _ => trivial
  | succ n ih => exact fun ctx s e hs => hR.visitExpr ih hs e

end Congruence

end Speculator
