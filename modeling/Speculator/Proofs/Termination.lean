import Speculator.Proofs.Demands
import Speculator.Proofs.Outcome.Modules
import Speculator.Proofs.Rewriting

/-!
# Termination of the visits

A visit goes on to trees that need not be parts of the visited one: an unrolled loop is visited again as copies of its
body, and an unrolled comprehension as a display.  The visits of a bounded depth come closer and closer to a visit
without a bound (`Visit.Approximates`), because a visit that does not meet its bound does not depend on it.

As long as nothing is inlined, the bound is only met by trees whose depth is greater (`Visitor.Tame`).  So the visits
without a bound (`totalVisitor`) are a recursive definition along the depths of the trees: what is done with a tree is
given by what is done with less deep ones (`optimize_terminates`).
-/

namespace Speculator

open Visit

variable {ctx : Context} {c : Config} {v w : Visitor}

variable {s : State}

/-! ### Visits with greater bounds -/

namespace Visit

variable {α β : Type}

def Ends (x : Visit α) (ctx : Context) (s : State) : Prop :=
  Ensures x (fun failure => ¬ TooDeep failure) (fun _ _ => True) ctx s

theorem Ensures.congr {x y : Visit α} {bad : Failure → Prop} {post : α → State → Prop} (h : Ensures x bad post ctx s)
    (hsame : y ctx s = x ctx s) : Ensures y bad post ctx s := by
  unfold Ensures at h ⊢
  rwa [hsame]

/-- With the options `c`, the visit `x` runs too deep or ends as `y` does. -/
def Approximates (c : Config) (x y : Visit α) : Prop :=
  ∀ ctx s, ctx.config = c → (∃ failure s', x ctx s = .error failure s' ∧ TooDeep failure) ∨ x ctx s = y ctx s

namespace Approximates

theorem refl (x : Visit α) : Approximates c x x := fun _ _ _ => .inr rfl

theorem of_fail (y : Visit α) : Approximates c (Visit.fail .depthExceeded) y := fun _ s _ => .inl ⟨_, s, rfl, rfl⟩

theorem eq_of_ends {x y : Visit α} (h : Approximates c x y) (hctx : ctx.config = c) (hx : Ends x ctx s) :
    x ctx s = y ctx s := by
  rcases h ctx s hctx with ⟨failure, s', hrun, hdeep⟩ | hsame
  · exact (hx.of_error hrun hdeep).elim
  · exact hsame

theorem bind {x y : Visit α} {f g : α → Visit β} (hx : Approximates c x y) (hf : ∀ a, Approximates c (f a) (g a)) :
    Approximates c (x >>= f) (y >>= g) := by
  intro ctx s hctx
  rw [run_bind, run_bind]
  rcases hx ctx s hctx with ⟨failure, s', hrun, hdeep⟩ | hsame
  · rw [hrun]
    exact .inl ⟨failure, s', rfl, hdeep⟩
  · rw [hsame]
    cases y ctx s with
    | ok a s' => exact hf a ctx s' hctx
    | error => exact .inr rfl

theorem compositional : Compositional (I := Unit) fun x y => Approximates c (x ()) y := ⟨fun _ => .refl _, .bind⟩

theorem conditionally {x y : Visit α} (h : Approximates c x y) :
    Approximates c (Visit.conditionally x) (Visit.conditionally y) :=
  .bind (.refl _) fun _ => .bind (.refl _) fun _ => .bind h fun _ => .refl _

theorem mapFailure {x y : Visit α} {f : Context → Failure → Failure} (h : Approximates c x y)
    (hf : ∀ ctx failure, TooDeep failure → TooDeep (f ctx failure)) :
    Approximates c (x.mapFailure f) (y.mapFailure f) := by
  intro ctx s hctx
  unfold Visit.mapFailure
  rcases h ctx s hctx with ⟨failure, s', hrun, hdeep⟩ | hsame
  · rw [hrun]
    exact .inl ⟨f ctx failure, s', rfl, hf ctx failure hdeep⟩
  · rw [hsame]
    exact .inr rfl

theorem inScope {x y : Visit α} (h : Approximates c x y) (scope : Scope) (stage : Stage) (allowGuards : Bool) :
    Approximates c (Visit.inScope scope stage allowGuards x) (Visit.inScope scope stage allowGuards y) := by
  intro ctx s hctx
  rw [run_inScope, run_inScope]
  rcases h (ctx.inside s.scope stage allowGuards) (s.inside scope) hctx with ⟨failure, s', hrun, hdeep⟩ | hsame
  · rw [hrun]
    exact .inl ⟨failure, s', rfl, hdeep⟩
  · rw [hsame]
    exact .inr rfl

theorem inside {x y : Visit α} (h : Approximates c x y) (kind : ScopeKind) (vars : Variables) :
    Approximates c (Visitor.inside kind vars x) (Visitor.inside kind vars y) :=
  .bind (h.inScope _ _ _) fun _ => .refl _

end Approximates

end Visit

namespace Visitor

/-- With the options `c`, each visit by `v` runs too deep or ends as that by `w` does. -/
structure Approximates (c : Config) (v w : Visitor) : Prop where
  expr : ∀ e, Visit.Approximates c (v.expr e) (w.expr e)
  stmt : ∀ t, Visit.Approximates c (v.stmt t) (w.stmt t)

namespace Approximates

variable (h : Approximates c v w)
include h

theorem body (required : Bool) (ts : List Stmt) : Visit.Approximates c (v.body required ts) (w.body required ts) :=
  .bind (Visit.Approximates.compositional.flatMapM (f := fun _ => v.stmt) fun t _ => h.stmt t) fun _ => .refl _

theorem stmtChildren (t : Stmt) : Visit.Approximates c (v.stmtChildren t) (w.stmtChildren t) :=
  Visit.Approximates.compositional.stmtChildren (v := fun _ => v) h.expr .conditionally fun _ _ _ _ => h.body _ _

theorem comprehension (e : Expr) (gens : List Generator) {f g : List Generator → Visit ExprKind}
    (hfg : ∀ gens, Visit.Approximates c (f gens) (g gens)) :
    Visit.Approximates c (v.comprehension e gens f) (w.comprehension e gens g) := by
  have hgenerators := Visit.Approximates.compositional.generators (v := fun _ => v) h.expr gens
  refine .bind (.refl _) fun vars => ?_
  cases vars with
  | none => exact .refl _
  | some vars => exact .bind (.inside (.bind hgenerators hfg) _ _) fun _ => .refl _

theorem exprScope (e : Expr) : Visit.Approximates c (v.exprScope e) (w.exprScope e) := by
  obtain ⟨pos, kind⟩ := e
  cases kind with
  | lambda => exact .bind (.inside (h.expr _) _ _) fun _ => .refl _
  | listComp | setComp | generatorExp => exact h.comprehension _ _ fun _ => .bind (h.expr _) fun _ => .refl _
  | dictComp => exact h.comprehension _ _ fun _ => .bind (h.expr _) fun _ => .bind (h.expr _) fun _ => .refl _
  | _ => exact .refl _

theorem classBody (t : Stmt) (cls : ClassDef) : Visit.Approximates c (v.classBody t cls) (w.classBody t cls) := by
  refine .bind (.refl _) fun vars => ?_
  cases vars with
  | none => exact .refl _
  | some vars => exact .bind (.inside (h.body _ _) _ _) fun _ => .refl _

theorem functionStage (stage : Stage) (allowGuards : Bool) (scope : Scope) (fn : FunctionDef) :
    Visit.Approximates c (v.functionStage stage allowGuards scope fn) (w.functionStage stage allowGuards scope fn) :=
  .bind (.refl _) fun _ => .bind (.inScope (h.body _ _) _ _ _) fun _ => .refl _

theorem function (t : Stmt) (fn : FunctionDef) : Visit.Approximates c (v.function t fn) (w.function t fn) := by
  refine .bind (.refl _) fun vars => ?_
  cases vars with
  | none => exact .refl _
  | some vars =>
    refine .bind (h.functionStage _ _ _ _) fun (slow, scope) => ?_
    dsimp only
    split
    · exact .refl _
    refine .bind (h.functionStage _ _ _ _) fun (fast, scope) => ?_
    dsimp only
    split
    · exact .refl _
    · exact .bind (h.functionStage _ _ _ _) fun _ => .refl _

theorem stmtInside (t : Stmt) : Visit.Approximates c (v.stmtInside t) (w.stmtInside t) := by
  obtain ⟨pos, kind⟩ := t
  refine .bind (.refl _) fun ctx => ?_
  cases kind with
  | functionDef fn =>
    dsimp only
    split
    · exact h.function _ _
    · exact .refl _
  | classDef cls =>
    dsimp only
    split
    · exact .bind (h.classBody _ _) fun _ => .refl _
    · exact .refl _
  | _ => exact .bind (h.stmtChildren _) fun _ => .refl _

theorem exprInside (e : Expr) : Visit.Approximates c (v.exprInside e) (w.exprInside e) := by
  unfold Visitor.exprInside
  split
  · exact Visit.Approximates.compositional.exprChildren (v := fun _ => v) h.expr e
  · refine .bind (.refl _) fun ctx => ?_
    split
    · exact h.exprScope e
    · exact .refl _

/-! The passes, and the visits one level higher. -/

theorem leaveStmt (ps : List Pass) (t : Stmt) : Visit.Approximates c (v.leaveStmt ps t) (w.leaveStmt ps t) := by
  induction ps generalizing t with
  | nil => exact .refl _
  | cons p ps ih =>
    refine .bind (.refl _) fun step => ?_
    cases step with
    | keep => exact ih t
    | replace new =>
      dsimp only
      split
      · exact ih new
      · exact .refl _
    | splice body => exact .refl _
    | revisit body => exact h.body _ _

theorem visitExpr (e : Expr) : Visit.Approximates c (v.visitExpr e) (w.visitExpr e) := by
  have hparts := Visit.Approximates.compositional (c := c)
  refine .mapFailure (.bind (.refl _) fun ctx => ?_) fun _ _ => TooDeep.locate _ _
  refine .bind (hparts.exprHeader (v := fun _ => v) h.expr e) fun e1 => ?_
  refine .bind (hparts.enterExpr (v := fun _ => v) h.expr (fun _ _ _ => .refl _) e1) fun r => ?_
  cases r with
  | some new => exact .refl _
  | none =>
    refine .bind (h.exprInside e1) fun e2 => ?_
    exact hparts.leaveExpr (v := fun _ => v) h.expr (fun _ _ _ => .refl _) e2

theorem visitStmt (t : Stmt) : Visit.Approximates c (v.visitStmt t) (w.visitStmt t) := by
  refine .mapFailure (.bind (.refl _) fun ctx => ?_) fun _ _ => TooDeep.locate _ _
  refine .bind (Visit.Approximates.compositional.stmtHeader (v := fun _ => v) h.expr t) fun t1 => ?_
  refine .bind (.refl _) fun _ => .bind (h.stmtInside t1) fun r => ?_
  cases r with
  | inl t2 => exact h.leaveStmt _ t2
  | inr body => exact .refl _

end Approximates

end Visitor

/-! ### Visits without a bound -/

/-- With the options `c`, the visitors do the same with the trees that are less deep than `d`. -/
structure Visitor.AgreesBelow (c : Config) (d : Nat) (v w : Visitor) : Prop where
  expr : ∀ e ctx s, ctx.config = c → e.depth c.limits.literalDepth < d → v.expr e ctx s = w.expr e ctx s
  stmt : ∀ t ctx s, ctx.config = c → t.depth c.limits.literalDepth < d → v.stmt t ctx s = w.stmt t ctx s

/-- With the options `c`, the visitor is defined by recursion along the depths of trees: it does with a tree what the
passes do, wherever less deep trees are visited in the same way. -/
structure Visitor.Recursive (c : Config) (v : Visitor) : Prop where
  expr : ∀ e (w : Visitor) ctx s, w.AgreesBelow c (e.depth c.limits.literalDepth) v → ctx.config = c →
    v.expr e ctx s = w.visitExpr e ctx s
  stmt : ∀ t (w : Visitor) ctx s, w.AgreesBelow c (t.depth c.limits.literalDepth) v → ctx.config = c →
    v.stmt t ctx s = w.visitStmt t ctx s

def totalVisitor : Visitor where
  expr e ctx := (visitor (e.depth ctx.config.limits.literalDepth)).expr e ctx
  stmt t ctx := (visitor (t.depth ctx.config.limits.literalDepth)).stmt t ctx

def Visitor.below (d : Nat) (v : Visitor) : Visitor where
  expr e ctx := if e.depth ctx.config.limits.literalDepth < d then v.expr e ctx else Visit.fail .depthExceeded ctx
  stmt t ctx := if t.depth ctx.config.limits.literalDepth < d then v.stmt t ctx else Visit.fail .depthExceeded ctx

/-- The regime of options without inlining, where the stores are not considered. -/
def Regime.ofConfig (c : Config) : Regime := .ofCode c False

theorem Visitor.AgreesBelow.approximates {d : Nat} (h : w.AgreesBelow c d v) : (v.below d).Approximates c w := by
  refine ⟨fun e ctx s hctx => ?_, fun t ctx s hctx => ?_⟩
  · simp only [Visitor.below, hctx]
    split
    · rename_i hd
      exact .inr (h.expr e ctx s hctx hd).symm
    · exact .inl ⟨_, s, rfl, rfl⟩
  · simp only [Visitor.below, hctx]
    split
    · rename_i hd
      exact .inr (h.stmt t ctx s hctx hd).symm
    · exact .inl ⟨_, s, rfl, rfl⟩

theorem Visitor.agreesBelow_below (v : Visitor) (c : Config) (d : Nat) : (v.below d).AgreesBelow c d v := by
  refine ⟨fun e ctx s hctx hd => ?_, fun t ctx s hctx hd => ?_⟩
  · subst hctx
    exact congrFun (if_pos hd) s
  · subst hctx
    exact congrFun (if_pos hd) s

theorem Visitor.Recursive.agreesBelow (hv : v.Recursive c) (hw : w.Recursive c) (d : Nat) : v.AgreesBelow c d w := by
  induction d with
  | zero => exact ⟨fun _ _ _ _ hd => (Nat.not_lt_zero _ hd).elim, fun _ _ _ _ hd => (Nat.not_lt_zero _ hd).elim⟩
  | succ d ih =>
    have hless : ∀ {d'}, d' < d + 1 → v.AgreesBelow c d' w := fun hd' =>
      ⟨fun e ctx s hctx he => ih.expr e ctx s hctx (by omega), fun t ctx s hctx ht => ih.stmt t ctx s hctx (by omega)⟩
    have hself : ∀ d', v.AgreesBelow c d' v := fun _ => ⟨fun _ _ _ _ _ => rfl, fun _ _ _ _ _ => rfl⟩
    refine ⟨fun e ctx s hctx hd => ?_, fun t ctx s hctx hd => ?_⟩
    · rw [hv.expr e v ctx s (hself _) hctx, hw.expr e v ctx s (hless hd) hctx]
    · rw [hv.stmt t v ctx s (hself _) hctx, hw.stmt t v ctx s (hless hd) hctx]

theorem visitor_approximates {n m : Nat} (hnm : n ≤ m) : (visitor n).Approximates c (visitor m) := by
  induction n generalizing m with
  | zero => exact ⟨fun _ => .of_fail _, fun _ => .of_fail _⟩
  | succ n ih =>
    obtain ⟨m, rfl⟩ : ∃ k, m = k + 1 := ⟨m - 1, by omega⟩
    have h : (visitor n).Approximates c (visitor m) := ih (by omega)
    exact ⟨h.visitExpr, h.visitStmt⟩

/-! Without inlining, no tree is visited deeper than its depth. -/

theorem Regime.ends_of_ensures {α : Type} {x : Visit α} {post : α → State → Prop} (hc : c.inlining = false)
    (h : Ensures x (Regime.ofConfig c).Allows post ctx s) : Ends x ctx s := by
  refine h.mono (fun failure hfailure hdeep => ?_) fun _ _ _ => trivial
  unfold TooDeep at hdeep
  rcases hfailure with ⟨_, _, _, hcause⟩ | ⟨_, _, _, rfl⟩ | ⟨hcalm, _⟩
  · rw [hcause] at hdeep
    cases hdeep
  · cases hdeep
  · exact hcalm hc

theorem Regime.holds_ofConfig (hctx : ctx.config = c) (s : State) :
    (Regime.ofConfig c).Holds (fun _ => True) ctx s :=
  ⟨hctx, fun _ _ => trivial, fun hsure => hsure.2.elim, fun hsure => hsure.2.elim⟩

namespace Visitor.Tame

variable {n : Nat} (hv : v.Tame (Regime.ofConfig c) n) (hc : c.inlining = false) (hctx : ctx.config = c)
  (s : State)
include hv hc hctx

theorem ends_expr {e} (hd : e.depth c.limits.literalDepth ≤ n) : Ends (v.expr e) ctx s :=
  Regime.ends_of_ensures hc (hv.expr e (Regime.holds_ofConfig hctx s) fun _ => hd)

theorem ends_stmt {t} (hd : t.depth c.limits.literalDepth ≤ n) : Ends (v.stmt t) ctx s :=
  Regime.ends_of_ensures hc (hv.stmt t (fun _ => .inl trivial) (Regime.holds_ofConfig hctx s) (fun _ => hd)
    fun hsure =>
    hsure.2.elim)

theorem ends_visitExpr {e} (hd : e.depth c.limits.literalDepth ≤ n + 1) : Ends (v.visitExpr e) ctx s :=
  Regime.ends_of_ensures hc (hv.visitExpr (Regime.holds_ofConfig hctx s) e fun _ => hd)

theorem ends_visitStmt {t} (hd : t.depth c.limits.literalDepth ≤ n + 1) : Ends (v.visitStmt t) ctx s :=
  Regime.ends_of_ensures hc (hv.visitStmt (fun _ => .inl trivial) (Regime.holds_ofConfig hctx s) t (fun _ => hd)
    fun hsure => hsure.2.elim)

end Visitor.Tame

theorem totalVisitor_expr (hctx : ctx.config = c) (e : Expr) (s : State) :
    totalVisitor.expr e ctx s = (visitor (e.depth c.limits.literalDepth)).expr e ctx s := by
  subst hctx
  rfl

theorem totalVisitor_stmt (hctx : ctx.config = c) (t : Stmt) (s : State) :
    totalVisitor.stmt t ctx s = (visitor (t.depth c.limits.literalDepth)).stmt t ctx s := by
  subst hctx
  rfl

theorem totalVisitor_tame (c : Config) (n : Nat) : totalVisitor.Tame (Regime.ofConfig c) n where
  expr e h _ := ((visitor_tame _).expr e h fun _ => Nat.le_refl _).congr (totalVisitor_expr h.config e _)
  stmt t hU h _ ht := ((visitor_tame _).stmt t hU h (fun _ => Nat.le_refl _) ht).congr
    (totalVisitor_stmt h.config t _)

theorem Visitor.tame_below (hc : c.inlining = false) (n : Nat) :
    (totalVisitor.below (n + 1)).Tame (Regime.ofConfig c) n where
  expr e h hd :=
    ((totalVisitor_tame c n).expr e h hd).congr
      ((totalVisitor.agreesBelow_below c (n + 1)).expr e _ _ h.config (Nat.lt_succ_of_le (hd hc)))
  stmt t hU h hd ht :=
    ((totalVisitor_tame c n).stmt t hU h hd ht).congr
      ((totalVisitor.agreesBelow_below c (n + 1)).stmt t _ _ h.config (Nat.lt_succ_of_le (hd hc)))

theorem visitor_agreesBelow (hc : c.inlining = false) (n : Nat) : (visitor n).AgreesBelow c (n + 1) totalVisitor := by
  refine ⟨fun e ctx s hctx hd => ?_, fun t ctx s hctx hd => ?_⟩
  · have hends := (visitor_tame _).ends_expr hc hctx s (Nat.le_refl (e.depth c.limits.literalDepth))
    rw [totalVisitor_expr hctx]
    exact (((visitor_approximates (Nat.le_of_lt_succ hd)).expr e).eq_of_ends hctx hends).symm
  · have hends := (visitor_tame _).ends_stmt hc hctx s (Nat.le_refl (t.depth c.limits.literalDepth))
    rw [totalVisitor_stmt hctx]
    exact (((visitor_approximates (Nat.le_of_lt_succ hd)).stmt t).eq_of_ends hctx hends).symm

theorem visitor_approximates_total (hc : c.inlining = false) (n : Nat) : (visitor n).Approximates c totalVisitor := by
  refine ⟨fun e ctx s hctx => ?_, fun t ctx s hctx => ?_⟩
  · by_cases hd : e.depth c.limits.literalDepth < n + 1
    · exact .inr ((visitor_agreesBelow hc n).expr e ctx s hctx hd)
    · rw [totalVisitor_expr hctx]
      exact (visitor_approximates (by omega)).expr e ctx s hctx
  · by_cases hd : t.depth c.limits.literalDepth < n + 1
    · exact .inr ((visitor_agreesBelow hc n).stmt t ctx s hctx hd)
    · rw [totalVisitor_stmt hctx]
      exact (visitor_approximates (by omega)).stmt t ctx s hctx

theorem totalVisitor_recursive (hc : c.inlining = false) : totalVisitor.Recursive c := by
  -- both the given visitor and that of the depth before do what the visitor of less deep trees does
  refine ⟨fun e w ctx s hw hctx => ?_, fun t w ctx s hw hctx => ?_⟩
  · have hpositive : 1 ≤ e.depth c.limits.literalDepth := e.one_le_depth (by simp [Limits.literalDepth])
    obtain ⟨n, hn⟩ := Nat.exists_eq_add_of_le' hpositive
    have hends := (Visitor.tame_below hc n).ends_visitExpr hc hctx s (Nat.le_of_eq hn)
    rw [hn] at hw
    rw [totalVisitor_expr hctx, hn, ← (hw.approximates.visitExpr e).eq_of_ends hctx hends]
    exact (((visitor_agreesBelow hc n).approximates.visitExpr e).eq_of_ends hctx hends).symm
  · obtain ⟨n, hn⟩ := Nat.exists_eq_add_of_le' (t.one_le_depth (h := c.limits.literalDepth))
    have hends := (Visitor.tame_below hc n).ends_visitStmt hc hctx s (Nat.le_of_eq hn)
    rw [hn] at hw
    rw [totalVisitor_stmt hctx, hn, ← (hw.approximates.visitStmt t).eq_of_ends hctx hends]
    exact (((visitor_agreesBelow hc n).approximates.visitStmt t).eq_of_ends hctx hends).symm

/-! ### Modules -/

theorem Module.approximates_visit (h : v.Approximates c w) (m : Module) :
    Visit.Approximates c (m.visit v) (m.visit w) := by
  refine .bind (.refl _) fun config => ?_
  split
  · exact .refl _
  refine .bind (.refl _) fun vars => ?_
  cases vars with
  | none => exact .refl _
  | some vars => exact .bind (.refl _) fun _ => .bind (h.body _ _) fun _ => .refl _

/-- As long as nothing is inlined, the bound that is set for a module is not met. -/
theorem Module.ends_visit (m : Module) (hc : c.inlining = false) (hctx : ctx.config = c)
    (hknown : s.known.values = [])
    (hcopied : s.scope.copied = []) : Ends (m.visit (visitor (m.depthBound c.limits))) ctx s :=
  Regime.ends_of_ensures hc (m.ensures_visit (Regime.ofConfig c) (Nat.le_refl _) hctx hknown hcopied fun hsure =>
    hsure.2.elim)

/-- As long as nothing is inlined, optimizing a module does not fail for lack of depth. -/
theorem optimize_not_tooDeep (config : Config) (filename : String) (source : Option String) (m : Module)
    (hinlining : (config.overriddenBy m).inlining = false) {failure : Failure}
    (hfailure : (optimize config filename source m).result = .error failure) : ¬TooDeep failure := by
  have hends : Ends (m.visit (visitor (m.depthBound (config.overriddenBy m).limits)))
      (m.context config filename source) m.start := m.ends_visit hinlining rfl rfl rfl
  unfold optimize optimizeWith at hfailure
  cases hrun : m.visit (visitor (m.depthBound (config.overriddenBy m).limits))
      (m.context config filename source) m.start with
  | ok new s =>
    rw [hrun] at hfailure
    cases hfailure
  | error other s =>
    rw [hrun] at hfailure
    cases hfailure
    exact hends.of_error hrun

/-- As long as nothing is inlined, the visits without a bound are the only ones that are defined by recursion along
the depths of trees: loops are unrolled into less deep statements, and comprehensions into less deep displays.
Optimizing a module visits it in this way, and does not fail for lack of depth. -/
theorem optimize_terminates (c : Config) (hc : c.inlining = false) :
    totalVisitor.Recursive c ∧ (∀ v : Visitor, v.Recursive c → ∀ d, v.AgreesBelow c d totalVisitor) ∧
    (∀ ctx s, ctx.config = c → (∀ e, Ends (totalVisitor.expr e) ctx s) ∧ ∀ t, Ends (totalVisitor.stmt t) ctx s) ∧
    ∀ (config : Config) (filename : String) (source : Option String) (m : Module), config.overriddenBy m = c →
      optimize config filename source m = optimizeWith totalVisitor config filename source m ∧
      ∀ failure, (optimize config filename source m).result = .error failure → failure.cause ≠ .depthExceeded := by
  refine ⟨totalVisitor_recursive hc, fun v hv d => hv.agreesBelow (totalVisitor_recursive hc) d,
    fun ctx s hctx => ?_, ?_⟩
  · exact ⟨fun e => (totalVisitor_tame c _).ends_expr hc hctx s (Nat.le_refl _),
      fun t => (totalVisitor_tame c _).ends_stmt hc hctx s (Nat.le_refl _)⟩
  · intro config filename source m hconfig
    subst hconfig
    have hsame := (m.approximates_visit (visitor_approximates_total hc _)).eq_of_ends rfl
      (m.ends_visit hc (rfl : (m.context config filename source).config = _) (rfl : m.start.known.values = []) rfl)
    exact ⟨congrArg Report.ofResult hsame, fun failure hfailure =>
      optimize_not_tooDeep config filename source m hc hfailure⟩

set_option maxRecDepth 100000 in
/-- The loop `for i in (1, 2): [f(i, j) for j in (3, 4)]` is unrolled, and in both copies of its body the
comprehension is.  The visits without a bound do the same. -/
theorem optimize_terminates_nested :
    let name (id : Ident) : Expr := ⟨{}, .name id⟩
    let constants (a b : Int) : Expr := ⟨{}, .tuple [⟨{}, .const (.int a)⟩, ⟨{}, .const (.int b)⟩]⟩
    let item : Expr := ⟨{}, .call (name "f") [name "i", name "j"] []⟩
    let body : Stmt := ⟨{}, .expr ⟨{}, .listComp item [⟨name "j", constants 3 4, [], false⟩]⟩⟩
    let m : Module := ⟨[⟨{}, .forLoop (name "i") (constants 1 2) [body] [] false⟩]⟩
    ({} : Config).inlining = false ∧
      optimize {} "m.py" none m = optimizeWith totalVisitor {} "m.py" none m ∧
      (optimize {} "m.py" none m).result.toOption.map Module.code =
        some "i = 1\n[f(1, 3), f(1, 4)]\ni = 2\n[f(2, 3), f(2, 4)]" := by
  intro name constants item body m
  exact ⟨rfl, ((optimize_terminates {} rfl).2.2.2 {} "m.py" none m rfl).1, by decide +kernel⟩

/-! ### Failures -/

/-- A run that does not meet the bound of its visits does not depend on it. -/
theorem optimizeWith_eq_of_le {config : Config} {filename source} {m : Module} {n k : Nat} (hnk : n ≤ k)
    (hends : ∀ failure, (optimizeWith (visitor n) config filename source m).result = .error failure →
      ¬TooDeep failure) :
    optimizeWith (visitor k) config filename source m = optimizeWith (visitor n) config filename source m := by
  rcases m.approximates_visit (visitor_approximates hnk) (m.context config filename source) m.start rfl with
    ⟨failure, s, hrun, hdeep⟩ | hsame
  · refine (hends failure ?_ hdeep).elim
    rw [optimizeWith, hrun]
    rfl
  · rw [optimizeWith, optimizeWith, hsame]

/-- How optimizing a module with the standard catalog or the empty one ends, when the visits may go deeper and deeper.
From some depth on, the bound does not matter: then machine integers overrun, or there is a new module, or a store of
a function has become one that cannot be analyzed, which takes a module that is not settled or inlined calls.  Or
calls are inlined without end, so that every bound is met. -/
theorem optimize_failure (config : Config) (filename : String) (source : Option String) (m : Module)
    (hcatalog : config.catalog = Catalog.standard ∨ config.catalog = Catalog.empty) :
    let run (depth : Nat) := optimizeWith (visitor depth) config filename source m
    (∃ least, (∀ depth, least ≤ depth → run depth = run least) ∧
      ((run least).overrun = true ∨
        (run least).overrun = false ∧ ((∃ new, (run least).result = .ok new) ∨
          ∃ target line, (run least).result = .error (.unlocated (.complexAssignment target line)) ∧
            ¬((config.overriddenBy m).inlining = false ∧ m.Settled (config.overriddenBy m))))) ∨
    (config.overriddenBy m).inlining = true ∧
      ∀ depth, ∃ failure, (run depth).result = .error failure ∧ failure.cause = .depthExceeded := by
  intro run
  have htolerant : (config.overriddenBy m).catalog.Tolerant (config.overriddenBy m).limits := by
    rw [Config.overriddenBy, Config.catalog_override]
    rcases hcatalog with h | h
    · rw [h]
      exact Catalog.tolerant_standard _
    · rw [h]
      exact Catalog.tolerant_empty _
  let bound := m.depthBound (config.overriddenBy m).limits
  by_cases hdeep : ∀ depth, ∃ failure, (run depth).result = .error failure ∧ failure.cause = .depthExceeded
  · refine .inr ⟨?_, hdeep⟩
    obtain ⟨failure, hfailure, hcause⟩ := hdeep bound
    by_contra hinlining
    exact optimize_not_tooDeep config filename source m (by simpa using hinlining) hfailure hcause
  obtain ⟨n, hn⟩ := not_forall.mp hdeep
  have hends : ∀ failure, (run n).result = .error failure → ¬TooDeep failure :=
    fun failure hfailure hcause => hn ⟨failure, hfailure, hcause⟩
  have hsame : ∀ depth, n ≤ depth → run depth = run n := fun depth hdepth => optimizeWith_eq_of_le hdepth hends
  have hleast : run (max n bound) = run n := hsame _ (Nat.le_max_left _ _)
  refine .inl ⟨max n bound, fun depth hdepth => (hsame depth (by omega)).trans hleast.symm, ?_⟩
  cases hoverrun : (run (max n bound)).overrun with
  | true => exact .inl rfl
  | false =>
    refine .inr ⟨rfl, ?_⟩
    have hreport := Report.of_ensures (rfl : _ = run (max n bound)) fun ctx s hctx hs =>
      m.ensures_initial (Nat.le_max_right n bound) hctx hs
    cases hresult : (run (max n bound)).result with
    | ok new => exact .inl ⟨new, rfl⟩
    | error failure =>
      -- each failure that the regime allows comes with what did not hold
      rw [hresult] at hreport
      rcases hreport with ⟨hnot, _⟩ | ⟨hnot, target, line, rfl⟩ | ⟨_, hcause⟩
      · exact (hnot htolerant).elim
      · exact .inr ⟨target, line, rfl, hnot⟩
      · rw [hleast] at hresult
        exact (hends failure hresult hcause).elim

set_option maxRecDepth 100000 in
/-- In a function whose body is `x = 5` and `x.y.z = 1`, the value of `x` is put into the second store. -/
theorem optimize_failure_propagated :
    let x : Expr := ⟨{}, .name "x"⟩
    let f : FunctionDef := ⟨"f", ⟨[], none, [], [], none, []⟩, [⟨{}, .assign [x] ⟨{}, .const (.int 5)⟩⟩,
      ⟨{}, .assign [⟨{}, .attr ⟨{}, .attr x "y"⟩ "z"⟩] ⟨{}, .const (.int 1)⟩⟩], [], false⟩
    let m : Module := ⟨[⟨{}, .functionDef f⟩]⟩
    (optimize {} "m.py" none m).overrun = false ∧
      ∃ target line, (optimize {} "m.py" none m).result = .error (.unlocated (.complexAssignment target line)) := by
  intro x f m
  have hfails : (optimize {} "m.py" none m).overrun = false ∧
      (optimize {} "m.py" none m).result.toOption.isSome = false := by decide +kernel
  rcases optimize_failure {} "m.py" none m (.inl rfl) with ⟨least, hsame, hends⟩ | ⟨hinlining, _⟩
  · -- the bound that is set for the module does not matter either
    have hreport : optimizeWith (visitor least) {} "m.py" none m = optimize {} "m.py" none m :=
      (hsame _ (Nat.le_max_left least _)).symm.trans
        (optimizeWith_eq_of_le (Nat.le_max_right least _) fun _ => optimize_not_tooDeep {} "m.py" none m rfl)
    dsimp only at hends
    rw [hreport] at hends
    rcases hends with htrue | ⟨_, ⟨new, hrun⟩ | ⟨target, line, hrun, _⟩⟩
    · rw [hfails.1] at htrue
      cases htrue
    · rw [hrun] at hfails
      cases hfails.2
    · exact ⟨hfails.1, target, line, hrun⟩
  · cases hinlining

end Speculator
