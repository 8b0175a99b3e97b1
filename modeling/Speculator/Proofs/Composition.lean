import Speculator.Proofs.Ensures
import Speculator.Proofs.Nodes
import Speculator.Traversal

/-!
# Going over trees

What a pass does at a node is one of a few things, and most of the passes do nothing at most places.

Two visitors that differ in the visits of the parts of a tree only go over a tree in the same steps.  So a relation
between visits that is kept by putting visits together (`Visit.Compositional`) holds of what the visitors do with a
tree, if it holds of what they do with its parts.  The first visitor may be one of several ones; all of them are
compared with the second one.
-/

namespace Speculator

open List

/-! ### The passes of the stages -/

namespace Stage

/-- There are these passes, whatever the stage. -/
theorem forall_passes {P : Pass → Prop} (htracking : P .tracking) (hdebugConstant : P .debugConstant)
    (hpropagation : P .propagation) (hfolding : P .folding) (hpureMethod : P .pureMethod)
    (hconstantIterable : P .constantIterable) (hunrolling : P .unrolling) (hdeadCode : P .deadCode)
    (hinlining : P .inlining) (hpureBuiltin : P .pureBuiltin) (hrangeToTuple : P .rangeToTuple)
    (hplaceholder : P .placeholder) (stage : Stage) : ∀ p ∈ stage.passes, P p := by
  intro p hp
  cases stage with
  | specialize =>
    simp only [Stage.passes, mem_cons, not_mem_nil, or_false] at hp
    rcases hp with rfl | rfl | rfl | rfl
    exacts [hpureBuiltin, hrangeToTuple, hinlining, hplaceholder]
  | generic | restricted =>
    simp only [Stage.passes, mem_cons, not_mem_nil, or_false] at hp
    rcases hp with rfl | rfl | rfl | rfl | rfl | rfl | rfl | rfl | rfl
    exacts [htracking, hdebugConstant, hpropagation, hfolding, hpureMethod, hconstantIterable, hunrolling, hdeadCode,
      hinlining]

theorem forall_enterStmt {P : (Stmt → Visit Unit) → Prop} (hnothing : P fun _ => pure ())
    (htracking : P Tracking.enterStmt) (hinlining : P Inlining.enterStmt) (stage : Stage) :
    ∀ p ∈ stage.passes, P p.enterStmt :=
  stage.forall_passes (P := fun p => P p.enterStmt) htracking hnothing hnothing hnothing hnothing hnothing hnothing
    hnothing hinlining hnothing hnothing hnothing

theorem forall_enterExpr {P : (Expr → Visit (Option Expr)) → Prop} (hnone : P fun _ => pure none)
    (hunrolling : P Unrolling.enterExpr) (stage : Stage) : ∀ p ∈ stage.passes, P p.enterExpr :=
  stage.forall_passes (P := fun p => P p.enterExpr) hnone hnone hnone hnone hnone hnone hunrolling hnone hnone hnone
    hnone hnone

theorem forall_leaveStmt {P : (Stmt → Visit StmtStep) → Prop} (hkeep : P fun _ => pure .keep)
    (htracking : P Pass.tracking.leaveStmt) (hconstantIterable : P Pass.constantIterable.leaveStmt)
    (hunrolling : P Unrolling.leaveStmt) (hdeadCode : P DeadCode.leaveStmt)
    (hrangeToTuple : P (Iterable.leaveStmt Iterable.rangeTuple)) (stage : Stage) :
    ∀ p ∈ stage.passes, P p.leaveStmt :=
  stage.forall_passes (P := fun p => P p.leaveStmt) htracking hkeep hkeep hkeep hkeep hconstantIterable hunrolling
    hdeadCode hkeep hkeep hrangeToTuple hkeep

theorem forall_leaveExpr {P : (Expr → Visit ExprStep) → Prop} (hkeep : P fun _ => pure .keep)
    (hdebugConstant : P Propagation.debugConstant) (hpropagation : P Propagation.knownVariable)
    (hfolding : P Folding.leaveExpr) (hpureMethod : P PureCall.method) (hinlining : P Inlining.leaveExpr)
    (hpureBuiltin : P PureCall.builtin) (hplaceholder : P Pass.placeholder.leaveExpr) (stage : Stage) :
    ∀ p ∈ stage.passes, P p.leaveExpr :=
  stage.forall_passes (P := fun p => P p.leaveExpr) hkeep hdebugConstant hpropagation hfolding hpureMethod hkeep hkeep
    hkeep hinlining hpureBuiltin hkeep hplaceholder

end Stage

/-! ### Relations between visits -/

/-- A relation between the visits of a family and a visit that is kept by putting visits together. -/
structure Visit.Compositional {I : Type} (R : ∀ {α : Type}, (I → Visit α) → Visit α → Prop) : Prop where
  pure : ∀ {α : Type} (a : α), R (fun _ => Pure.pure a) (Pure.pure a)
  bind : ∀ {α β : Type} {x : I → Visit α} {y : Visit α} {f : I → α → Visit β} {g : α → Visit β}, R x y →
    (∀ a, R (fun i => f i a) (g a)) → R (fun i => x i >>= f i) (y >>= g)

namespace Visit.Compositional

attribute [local simp] Stmt.blocks

variable {I : Type} {R : ∀ {α : Type}, (I → Visit α) → Visit α → Prop} (hR : Compositional R)
include hR

section Lists

variable {α β : Type}

theorem mapM {f : I → α → Visit β} {g : α → Visit β} {as : List α} (hf : ∀ a ∈ as, R (fun i => f i a) (g a)) :
    R (fun i => as.mapM (f i)) (as.mapM g) := by
  induction as with
  | nil => exact hR.pure []
  | cons a as ih =>
    simp only [mapM_cons]
    refine hR.bind (hf a (by simp)) fun b => ?_
    exact hR.bind (ih fun a' ha' => hf a' (by simp [ha'])) fun bs => hR.pure _

theorem flatMapM {f : I → α → Visit (List β)} {g : α → Visit (List β)} {as : List α}
    (hf : ∀ a ∈ as, R (fun i => f i a) (g a)) : R (fun i => as.flatMapM (f i)) (as.flatMapM g) := by
  induction as with
  | nil => exact hR.pure []
  | cons a as ih =>
    simp only [flatMapM_cons]
    refine hR.bind (hf a (by simp)) fun b => ?_
    exact hR.bind (ih fun a' ha' => hf a' (by simp [ha'])) fun bs => hR.pure _

theorem optionM {f : I → α → Visit β} {g : α → Visit β} (hf : ∀ a, R (fun i => f i a) (g a)) (a : Option α) :
    R (fun i => a.mapM (f i)) (a.mapM g) := by
  cases a with
  | none => exact hR.pure none
  | some a => exact hR.bind (hf a) fun _ => hR.pure _

end Lists

variable {v : I → Visitor} {w : Visitor} (hv : ∀ e, R (fun i => (v i).expr e) (w.expr e))
include hv

/-! ### Parts of trees -/

theorem exprs (es : List Expr) : R (fun i => es.mapM (v i).expr) (es.mapM w.expr) := hR.mapM fun e _ => hv e

theorem option (e : Option Expr) : R (fun i => (v i).option e) (w.option e) := hR.optionM hv e

theorem keywords (ks : List Keyword) : R (fun i => ks.mapM (v i).keyword) (ks.mapM w.keyword) :=
  hR.mapM fun k _ => hR.bind (hv k.value) fun _ => hR.pure _

theorem params (p : Params) : R (fun i => (v i).params p) (w.params p) :=
  hR.bind (hR.exprs hv _) fun _ => hR.bind (hR.mapM fun e _ => hR.option hv e) fun _ => hR.pure _

theorem base (e : Expr) : R (fun i => (v i).base e) (w.base e) := by
  unfold Visitor.base
  split
  · exact hR.pure e
  · exact hv e

omit hR hv in
mutual

theorem target (hR : Compositional R) (hv : ∀ e, R (fun i => (v i).expr e) (w.expr e)) :
    (e : Expr) → R (fun i => (v i).target e) (w.target e)
  | ⟨_, kind⟩ => by
    cases kind with
    | name =>
      simp only [Visitor.target]
      exact hR.pure _
    | tuple items | list items =>
      simp only [Visitor.target]
      exact hR.bind (targets hR hv items) fun _ => hR.pure _
    | starred value =>
      simp only [Visitor.target]
      exact hR.bind (target hR hv value) fun _ => hR.pure _
    | attr value name =>
      simp only [Visitor.target]
      exact hR.bind (hR.base hv value) fun _ => hR.pure _
    | subscript value slice =>
      simp only [Visitor.target]
      exact hR.bind (hR.base hv value) fun _ => hR.bind (hv slice) fun _ => hR.pure _
    | _ =>
      simp only [Visitor.target]
      exact hv _

theorem targets (hR : Compositional R) (hv : ∀ e, R (fun i => (v i).expr e) (w.expr e)) :
    (es : List Expr) → R (fun i => (v i).targets es) (w.targets es)
  | [] => by
    simp only [Visitor.targets]
    exact hR.pure _
  | e :: es => by
    simp only [Visitor.targets]
    exact hR.bind (target hR hv e) fun _ => hR.bind (targets hR hv es) fun _ => hR.pure _

end

theorem exprChildren (e : Expr) : R (fun i => (v i).exprChildren e) (w.exprChildren e) := by
  obtain ⟨pos, kind⟩ := e
  cases kind with
  | boolOp | set | list | tuple => exact hR.bind (hR.exprs hv _) fun _ => hR.pure _
  | binOp | subscript => exact hR.bind (hv _) fun _ => hR.bind (hv _) fun _ => hR.pure _
  | unaryOp | await | yieldFrom | starred | attr => exact hR.bind (hv _) fun _ => hR.pure _
  | ifExp => exact hR.bind (hv _) fun _ => hR.bind (hv _) fun _ => hR.bind (hv _) fun _ => hR.pure _
  | dict => exact hR.bind (hR.exprs hv _) fun _ => hR.bind (hR.exprs hv _) fun _ => hR.pure _
  | yield => exact hR.bind (hR.option hv _) fun _ => hR.pure _
  | compare => exact hR.bind (hv _) fun _ => hR.bind (hR.exprs hv _) fun _ => hR.pure _
  | call =>
    refine hR.bind (hv _) fun _ => hR.bind (hR.exprs hv _) fun _ => ?_
    exact hR.bind (hR.keywords hv _) fun _ => hR.pure _
  | slice =>
    refine hR.bind (hR.option hv _) fun _ => hR.bind (hR.option hv _) fun _ => ?_
    exact hR.bind (hR.option hv _) fun _ => hR.pure _
  | const | name | lambda | listComp | setComp | generatorExp | dictComp => exact hR.pure _

theorem withItem (item : WithItem) : R (fun i => (v i).withItem item) (w.withItem item) :=
  hR.bind (hv _) fun _ => hR.bind (hR.optionM (hR.target hv) _) fun _ => hR.pure _

theorem stmtChildren
    (hconditionally : ∀ {α : Type} {x : I → Visit α} {y : Visit α}, R x y →
      R (fun i => Visit.conditionally (x i)) (Visit.conditionally y))
    {t} (hbody : t.isScope = false → ∀ required, ∀ body ∈ t.blocks,
      R (fun i => (v i).body required body) (w.body required body)) :
    R (fun i => (v i).stmtChildren t) (w.stmtChildren t) := by
  obtain ⟨pos, kind⟩ := t
  cases kind with
  | ret => exact hR.bind (hR.option hv _) fun _ => hR.pure _
  | delete => exact hR.bind (hR.targets hv _) fun _ => hR.pure _
  | assign => exact hR.bind (hv _) fun _ => hR.bind (hR.targets hv _) fun _ => hR.pure _
  | augAssign => exact hR.bind (hR.target hv _) fun _ => hR.bind (hv _) fun _ => hR.pure _
  | forLoop target iter body orelse =>
    refine hR.bind (hv _) fun _ => hconditionally (hR.bind (hR.target hv _) fun _ => ?_)
    refine hR.bind (hbody rfl _ body (by simp)) fun _ => ?_
    exact hR.bind (hbody rfl _ orelse (by simp)) fun _ => hR.pure _
  | whileLoop test body orelse =>
    refine hconditionally (hR.bind (hv _) fun _ => hR.bind (hbody rfl _ body (by simp)) fun _ => ?_)
    exact hR.bind (hbody rfl _ orelse (by simp)) fun _ => hR.pure _
  | cond test body orelse =>
    refine hR.bind (hv _) fun _ => hR.bind (hconditionally (hbody rfl _ body (by simp))) fun _ => ?_
    exact hR.bind (hconditionally (hbody rfl _ orelse (by simp))) fun _ => hR.pure _
  | withBlock items body =>
    refine hR.bind (hR.mapM fun item _ => hR.withItem hv item) fun _ => ?_
    exact hR.bind (hconditionally (hbody rfl _ body (by simp))) fun _ => hR.pure _
  | raise => exact hR.bind (hR.option hv _) fun _ => hR.bind (hR.option hv _) fun _ => hR.pure _
  | tryBlock body handlers orelse final =>
    have hhandlers : R (fun i => handlers.mapM (v i).handler) (handlers.mapM w.handler) := by
      refine hR.mapM fun handler hmem => hR.bind (hR.option hv _) fun _ =>
        hR.bind (hbody rfl _ handler.body ?_) fun _ => ?_
      · exact mem_append_left _ (mem_cons_of_mem _ (mem_map_of_mem hmem))
      · exact hR.pure _
    refine hR.bind (hconditionally (hR.bind (hbody rfl _ body (by simp)) fun _ => ?_)) fun _ =>
      hR.bind (hbody rfl _ final (by simp)) fun _ => hR.pure _
    exact hR.bind hhandlers fun _ => hR.bind (hbody rfl _ orelse (by simp)) fun _ => hR.pure _
  | expr => exact hR.bind (hv _) fun _ => hR.pure _
  | functionDef | classDef | importModules | importFrom | globals | nonlocals | pass | brk | cont => exact hR.pure _

theorem exprHeader (e : Expr) : R (fun i => (v i).exprHeader e) (w.exprHeader e) := by
  have hfirst : ∀ gens, R (fun i => (v i).firstIter gens) (w.firstIter gens) := by
    intro gens
    cases gens with
    | nil => exact hR.pure []
    | cons g gs => exact hR.bind (hv g.iter) fun _ => hR.pure _
  obtain ⟨pos, kind⟩ := e
  cases kind with
  | lambda => exact hR.bind (hR.params hv _) fun _ => hR.pure _
  | listComp | setComp | generatorExp | dictComp => exact hR.bind (hfirst _) fun _ => hR.pure _
  | _ => exact hR.pure _

theorem stmtHeader (t : Stmt) : R (fun i => (v i).stmtHeader t) (w.stmtHeader t) := by
  obtain ⟨pos, kind⟩ := t
  cases kind with
  | functionDef => exact hR.bind (hR.exprs hv _) fun _ => hR.bind (hR.params hv _) fun _ => hR.pure _
  | classDef =>
    refine hR.bind (hR.exprs hv _) fun _ => hR.bind (hR.exprs hv _) fun _ => ?_
    exact hR.bind (hR.keywords hv _) fun _ => hR.pure _
  | _ => exact hR.pure _

theorem generators (gens : List Generator) : R (fun i => (v i).generators gens) (w.generators gens) := by
  have hgenerator : ∀ isFirst g, R (fun i => (v i).generator isFirst g) (w.generator isFirst g) := by
    intro isFirst g
    refine hR.bind (hR.target hv _) fun _ => ?_
    cases isFirst with
    | true => exact hR.bind (hR.pure _) fun _ => hR.bind (hR.exprs hv _) fun _ => hR.pure _
    | false => exact hR.bind (hv _) fun _ => hR.bind (hR.exprs hv _) fun _ => hR.pure _
  cases gens with
  | nil => exact hR.pure []
  | cons g gs =>
    exact hR.bind (hgenerator true g) fun _ => hR.bind (hR.mapM fun g _ => hgenerator false g) fun _ => hR.pure _

theorem enterExpr {ps} (hps : ∀ p ∈ ps, ∀ e, R (fun _ => p.enterExpr e) (p.enterExpr e)) (e : Expr) :
    R (fun i => (v i).enterExpr ps e) (w.enterExpr ps e) := by
  induction ps with
  | nil => exact hR.pure none
  | cons p ps ih =>
    refine hR.bind (hps p (by simp) e) fun r => ?_
    cases r with
    | some new => exact hR.bind (hv new) fun _ => hR.pure _
    | none => exact ih fun q hq => hps q (by simp [hq])

theorem leaveExpr {ps} (hps : ∀ p ∈ ps, ∀ e, R (fun _ => p.leaveExpr e) (p.leaveExpr e)) (e : Expr) :
    R (fun i => (v i).leaveExpr ps e) (w.leaveExpr ps e) := by
  induction ps generalizing e with
  | nil => exact hR.pure e
  | cons p ps ih =>
    have hrest := ih fun q hq => hps q (by simp [hq])
    have hnext : ∀ new : Expr, R (fun i => if new.sameKind e then (v i).leaveExpr ps new else Pure.pure new)
        (if new.sameKind e then w.leaveExpr ps new else Pure.pure new) := by
      intro new
      split
      · exact hrest new
      · exact hR.pure new
    refine hR.bind (hps p (by simp) e) fun step => ?_
    cases step with
    | keep => exact hrest e
    | replace new => exact hnext new
    | revisit new => exact hR.bind (hv new) hnext

end Visit.Compositional

theorem Visitor.exprHeader_eq_pure (v : Visitor) {e} (he : e.isScope = false) : v.exprHeader e = pure e := by
  obtain ⟨pos, kind⟩ := e
  cases kind with
  | lambda | listComp | setComp | generatorExp | dictComp => cases he
  | _ => rfl

end Speculator
