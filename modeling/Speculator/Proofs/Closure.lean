import Speculator.Proofs.Composition

/-!
# Families of visits

The visits of expressions are put together from a few kinds of steps: reading the context and the scope, logging,
failing, putting guards on the scope, replacing known variables, choosing placeholders, and visiting the inside of
nested scopes. So a family of visits that has these steps and that is closed under putting visits together
(`Visit.Closed`) has the steps of all passes over expressions.
-/

namespace Speculator

open Visit

/-- A family of visits with the steps for expressions that is closed under putting visits together. -/
structure Visit.Closed (C : ∀ {α : Type}, Visit α → Prop) : Prop where
  pure : ∀ {α : Type} (a : α), C (Pure.pure a)
  bind : ∀ {α β : Type} {x : Visit α} {f : α → Visit β}, C x → (∀ a, C (f a)) → C (x >>= f)
  read : C (MonadReader.read : Visit Context)
  scope : C Visit.scope
  log : ∀ line message, C (Visit.log line message)
  logQuoting : ∀ line message, C (Visit.logQuoting line message)
  noteOverrun : ∀ overruns, C (Visit.noteOverrun overruns)
  fail : ∀ {α : Type} cause, C (Visit.fail cause : Visit α)
  addGuard : ∀ guard, C (Visit.addGuard guard)
  knownVariable : ∀ e, C (Propagation.knownVariable e)
  choose : ∀ id, C (Placeholder.choose id)
  mapFailure : ∀ {α : Type} {x : Visit α}, C x → ∀ g, C (x.mapFailure g)
  inside : ∀ {α : Type} {x : Visit α}, C x → ∀ kind vars, C (Visitor.inside kind vars x)

namespace Visit.Closed

variable {C : ∀ {α : Type}, Visit α → Prop} (hC : Closed C) {α : Type}
include hC

theorem config : C Visit.config := hC.bind hC.read fun _ => hC.pure _

theorem chain : C Visit.chain := by
  have hchain : Visit.chain = do return (← Visit.scope) :: (← MonadReader.read).enclosing := rfl
  rw [hchain]
  exact hC.bind hC.scope fun _ => hC.bind hC.read fun _ => hC.pure _

theorem isBuiltin (name : Ident) : C (Visit.isBuiltin name) := hC.bind hC.chain fun _ => hC.pure _

theorem ofExcept (r : Except Cause α) : C (Visit.ofExcept r) := by
  cases r with
  | ok a => exact hC.pure a
  | error cause => exact hC.fail cause

theorem compositional : Compositional (I := Unit) fun _ x => C x := ⟨hC.pure, hC.bind⟩

/-! ### The passes -/

theorem debugConstant (e : Expr) : C (Propagation.debugConstant e) := by
  unfold Propagation.debugConstant
  split
  · refine hC.bind hC.config fun config => hC.bind (hC.isBuiltin _) fun isBuiltin => ?_
    split <;> exact hC.pure _
  · exact hC.pure _

theorem folding (e : Expr) : C (Folding.leaveExpr e) := by
  unfold Folding.leaveExpr
  refine hC.bind hC.config fun config => ?_
  split
  · exact hC.pure _
  split
  · unfold Folding.foldBinary
    refine hC.bind hC.config fun config => ?_
    dsimp only
    split
    · refine hC.bind (hC.noteOverrun _) fun _ => ?_
      split
      · split
        · exact hC.bind (hC.logQuoting _ _) fun _ => hC.pure _
        · exact hC.pure _
      · exact hC.pure _
    · exact hC.pure _
  · exact hC.pure _
  · exact hC.bind (hC.noteOverrun _) fun _ => hC.pure _
  · exact hC.pure _
  · exact hC.pure _

theorem evaluate (c : Contract) (receiver : Option Value) (e : Expr) (args : List Expr) (keywords : List Keyword) :
    C (PureCall.evaluate c receiver e args keywords) := by
  unfold PureCall.evaluate
  refine hC.bind hC.config fun config => ?_
  split
  · refine hC.bind (hC.ofExcept _) fun result => ?_
    split <;> exact hC.pure _
  · exact hC.pure _

theorem pureMethod (e : Expr) : C (PureCall.method e) := by
  unfold PureCall.method
  split
  · refine hC.bind hC.config fun config => ?_
    split
    · exact hC.pure _
    · refine hC.bind (hC.evaluate _ _ _ _ _) fun result => ?_
      split
      · exact hC.pure _
      · exact hC.bind (hC.logQuoting _ _) fun _ => hC.pure _
  · exact hC.pure _

theorem pureBuiltin (e : Expr) : C (PureCall.builtin e) := by
  unfold PureCall.builtin
  split
  · refine hC.bind hC.config fun config => ?_
    split
    · exact hC.pure _
    refine hC.bind (hC.isBuiltin _) fun isBuiltin => ?_
    split
    · exact hC.pure _
    refine hC.bind (hC.evaluate _ _ _ _ _) fun result => ?_
    split
    · exact hC.pure _
    refine hC.bind (hC.addGuard _) fun allowed => ?_
    split
    · exact hC.pure _
    · exact hC.bind (hC.logQuoting _ _) fun _ => hC.pure _
  · exact hC.pure _

theorem inlining (e : Expr) : C (Inlining.leaveExpr e) := by
  unfold Inlining.leaveExpr
  refine hC.bind hC.config fun config => ?_
  split
  · exact hC.pure _
  split
  · refine hC.bind hC.chain fun chain => hC.bind hC.read fun ctx => ?_
    split
    · exact hC.pure _
    · rename_i new guard? _
      extract_lets proceed
      have hproceed : ∀ allowed, C (proceed allowed) := by
        intro allowed
        simp only [proceed]
        split
        · exact hC.pure _
        · exact hC.bind (hC.logQuoting _ _) fun _ => hC.pure _
      split
      · exact hC.bind (hC.addGuard _) hproceed
      · exact hC.bind (hC.pure _) hproceed
  · exact hC.pure _

theorem placeholder (e : Expr) : C (Pass.placeholder.leaveExpr e) := by
  simp only [Pass.placeholder]
  split
  · exact hC.bind (hC.choose _) fun _ => hC.pure _
  · exact hC.pure _

theorem unrolling (e : Expr) : C (Unrolling.enterExpr e) := by
  unfold Unrolling.enterExpr
  refine hC.bind hC.config fun config => hC.bind hC.scope fun scope => ?_
  split
  · exact hC.bind (hC.log _ _) fun _ => hC.pure _
  · exact hC.pure _

theorem passes (stage : Stage) : ∀ p ∈ stage.passes, (∀ e, C (p.enterExpr e)) ∧ ∀ e, C (p.leaveExpr e) := by
  intro p hp
  have henter := stage.forall_enterExpr (P := fun enter => ∀ e, C (enter e)) (fun _ => hC.pure none) hC.unrolling p hp
  exact ⟨henter, stage.forall_leaveExpr (P := fun leave => ∀ e, C (leave e)) (fun _ => hC.pure _) hC.debugConstant
    hC.knownVariable hC.folding hC.pureMethod hC.inlining hC.pureBuiltin hC.placeholder p hp⟩

/-! ### The visits -/

section Visits

variable {v : Visitor} (hv : ∀ e, C (v.expr e))
include hv

theorem target (e : Expr) : C (v.target e) := hC.compositional.target (v := fun _ => v) hv e

theorem stmtHeader (t : Stmt) : C (v.stmtHeader t) := hC.compositional.stmtHeader (v := fun _ => v) hv t

omit hv in
theorem analyzed (analysis : Except Cause Variables) : C (Visitor.analyzed analysis) := by
  unfold Visitor.analyzed
  split
  · exact hC.pure _
  · split
    · exact hC.bind (hC.log _ _) fun _ => hC.pure _
    · exact hC.fail _

theorem comprehension (e : Expr) (gens : List Generator) {visit : List Generator → Visit ExprKind}
    (hvisit : ∀ gens, C (visit gens)) : C (v.comprehension e gens visit) := by
  refine hC.bind (hC.analyzed _) fun vars => ?_
  split
  · exact hC.pure e
  · exact hC.bind (hC.inside (hC.bind (hC.compositional.generators (v := fun _ => v) hv gens) hvisit) _ _)
      fun _ => hC.pure _

theorem exprScope (e : Expr) : C (v.exprScope e) := by
  unfold Visitor.exprScope
  split
  case h_1 => exact hC.bind (hC.inside (hv _) _ _) fun _ => hC.pure _
  case h_2 | h_3 | h_4 => exact hC.comprehension hv _ _ fun _ => hC.bind (hv _) fun _ => hC.pure _
  case h_5 => exact hC.comprehension hv _ _ fun _ => hC.bind (hv _) fun _ => hC.bind (hv _) fun _ => hC.pure _
  case h_6 => exact hC.pure e

theorem exprInside (e : Expr) : C (v.exprInside e) := by
  unfold Visitor.exprInside
  split
  · exact hC.compositional.exprChildren (v := fun _ => v) hv e
  refine hC.bind hC.read fun ctx => ?_
  split
  · exact hC.exprScope hv e
  · exact hC.pure e

theorem visitExpr (e : Expr) : C (v.visitExpr e) := by
  have hparts := hC.compositional
  refine hC.mapFailure (hC.bind hC.read fun ctx => ?_) _
  have hps := hC.passes ctx.stage
  refine hC.bind (hparts.exprHeader (v := fun _ => v) hv e) fun e1 => ?_
  refine hC.bind (hparts.enterExpr (v := fun _ => v) hv (fun p hp => (hps p hp).1) e1) fun r => ?_
  cases r with
  | some new => exact hC.pure new
  | none =>
    refine hC.bind (hC.exprInside hv e1) fun e2 => ?_
    exact hparts.leaveExpr (v := fun _ => v) hv (fun p hp => (hps p hp).2) e2

end Visits

/-- A closed family has the visits of expressions of every depth. -/
theorem visitor (n : Nat) : ∀ e, C ((visitor n).expr e) := by
  induction n with
  | zero => exact fun _ => hC.fail _
  | succ n ih => exact hC.visitExpr ih

end Visit.Closed

end Speculator
