import Speculator.Proofs.Correspondence
import Speculator.Proofs.Flow
import Speculator.Proofs.Outcome.Modules

/-!
# The removal of dead code

If nothing but the removal of dead code is turned on, the visits of expressions change nothing, no function is
specialized, and the statements that a body becomes do the same as the body: for every oracle there are the same
events and the same completion (`Stmt.SameFlow`).  This is shown for each thing that the removal may do with a
statement, and is kept by putting statements together.
-/

namespace Speculator

open Visit

variable {s s' : State} {v : Visitor} {ctx : Context}

variable {t new : Stmt}

/-- No option is turned on but the removal of dead code, which may be. -/
structure Config.OnlyRemoves (c : Config) : Prop where
  catalog : c.catalog = Catalog.empty
  copying : c.copyBuiltinToConstant = false
  unrolling : c.unrollLoops = 0
  propagation : c.constantPropagation = false
  folding : c.constantFolding = false
  builtins : c.replaceBuiltinConstant = false
  iterables : c.simplifyIterable = false
  inlining : c.inlining = false

/-- Nothing has been done for which a function would be specialized, and no number has left the range of the
machine. -/
structure State.Quiet (s s' : State) : Prop where
  guards : s'.scope.guards = s.scope.guards
  copied : s'.scope.copied = s.scope.copied
  support : s'.needsSupport = s.needsSupport
  overrun : .overrun ∈ s'.log → .overrun ∈ s.log

namespace State.Quiet

variable {s'' : State}

theorem refl (s : State) : s.Quiet s := ⟨rfl, rfl, rfl, id⟩

theorem trans (h : s.Quiet s') (h' : s'.Quiet s'') : s.Quiet s'' :=
  ⟨h'.guards.trans h.guards, h'.copied.trans h.copied, h'.support.trans h.support, h.overrun ∘ h'.overrun⟩

theorem of_tracks (h : s.Tracks s') : s.Quiet s' := by
  obtain ⟨texts, known, rfl⟩ := h
  exact ⟨rfl, rfl, rfl, by simp⟩

theorem of_releases {removed} (h : s.Releases removed s') : s.Quiet s' := by
  obtain ⟨texts, vars, rfl, _⟩ := h
  exact ⟨rfl, rfl, rfl, by simp⟩

end State.Quiet

/-! ### Visits of expressions -/

namespace Visit

variable {α β : Type}

/-- Under such options the visit gives `a`, unless it is too deep. -/
def Returns (on : Config → Prop) (x : Visit α) (a : α) : Prop :=
  ∀ ctx s, on ctx.config → Ensures x TooDeep (fun b s' => b = a ∧ s.Quiet s') ctx s

namespace Returns

variable {on : Config → Prop} {x : Visit α} {f : α → Visit β} {a : α} {b : β}

theorem pure (a : α) : Returns on (Pure.pure a) a := fun _ s _ => .pure ⟨rfl, .refl s⟩

theorem bind (hx : Returns on x a) (hf : Returns on (f a) b) : Returns on (x >>= f) b := by
  intro ctx s hc
  refine (hx ctx s hc).bind fun a' s1 h1 => ?_
  obtain ⟨rfl, hquiet⟩ := h1
  exact (hf ctx s1 hc).imp fun b' s2 h2 => ⟨h2.1, hquiet.trans h2.2⟩

end Returns

/-- The visit changes nothing if nothing but the removal of dead code is turned on. -/
def Idle : Visit α → α → Prop := Returns Config.OnlyRemoves

namespace Idle

theorem config_bind {f : Config → Visit β} {b : β} (hf : ∀ c : Config, c.OnlyRemoves → Idle (f c) b) :
    Idle (Visit.config >>= f) b :=
  fun ctx s hc => ensures_config_bind.mpr (hf ctx.config hc ctx s hc)

theorem scope_bind {f : Scope → Visit β} {b : β} (hf : ∀ scope, Idle (f scope) b) : Idle (Visit.scope >>= f) b :=
  fun ctx s hc => ensures_scope_bind.mpr (hf s.scope ctx s hc)

theorem read_bind {f : Context → Visit β} {b : β} (hf : ∀ ctx, Idle (f ctx) b) : Idle (MonadReader.read >>= f) b :=
  fun ctx s hc => ensures_read_bind.mpr (hf ctx ctx s hc)

theorem atExpr {x : Visit α} {a : α} (hx : Idle x a) (e : Expr) : Idle (Visit.atExpr e x) a :=
  fun ctx s hc => (hx ctx s hc).atExpr fun _ => TooDeep.locate

end Idle

end Visit

structure Pass.Idle (p : Pass) : Prop where
  enter : ∀ e, Visit.Idle (p.enterExpr e) none
  leave : ∀ e, Visit.Idle (p.leaveExpr e) .keep

section Passes

theorem Propagation.idle_debugConstant (e : Expr) : Idle (debugConstant e) .keep := by
  unfold debugConstant
  split
  · refine .config_bind fun c hc => ?_
    intro ctx s _
    rw [ensures_isBuiltin_bind, hc.builtins]
    exact .pure ⟨rfl, .refl s⟩
  · exact .pure _

theorem Propagation.idle_knownVariable (e : Expr) : Idle (knownVariable e) .keep := by
  unfold knownVariable
  split
  · refine .config_bind fun c hc => .scope_bind fun scope => ?_
    rw [hc.propagation]
    exact .pure _
  · exact .pure _

theorem Folding.idle_leaveExpr (e : Expr) : Idle (leaveExpr e) .keep := by
  unfold leaveExpr
  refine .config_bind fun c hc => ?_
  rw [hc.folding]
  exact .pure _

theorem PureCall.idle_method (e : Expr) : Idle (method e) .keep := by
  unfold method
  split
  · refine .config_bind fun c hc => ?_
    rw [hc.catalog]
    exact .pure _
  · exact .pure _

theorem PureCall.idle_builtin (e : Expr) : Idle (builtin e) .keep := by
  unfold builtin
  split
  · refine .config_bind fun c hc => ?_
    rw [hc.catalog]
    exact .pure _
  · exact .pure _

theorem Inlining.idle_leaveExpr (e : Expr) : Idle (leaveExpr e) .keep := by
  unfold leaveExpr
  refine .config_bind fun c hc => ?_
  rw [hc.inlining]
  exact .pure _

theorem Placeholder.idle_choose (id : Ident) : Idle (choose id) () := by
  unfold choose
  refine .config_bind fun c hc => ?_
  rw [hc.copying]
  exact .pure _

theorem Placeholder.idle_leaveExpr (e : Expr) : Idle (Pass.placeholder.leaveExpr e) .keep := by
  simp only [Pass.placeholder]
  split
  · exact .bind (Placeholder.idle_choose _) (.pure _)
  · exact .pure _

theorem Unrolling.countAllowed_zero (items : List Value) : countAllowed 0 items = false := by
  cases items with
  | nil => rfl
  | cons => simp [countAllowed]

theorem Unrolling.idle_enterExpr (e : Expr) : Idle (enterExpr e) none := by
  unfold enterExpr
  refine .config_bind fun c hc => .scope_bind fun scope => ?_
  have hnone : unrolledComprehension? c scope.kind e = none := by
    unfold unrolledComprehension?
    rw [hc.unrolling]
    cases comprehension? e with
    | none => rfl
    | some comp =>
      change (constantItems? comp.iter).bind _ = none
      cases constantItems? comp.iter with
      | none => rfl
      | some items =>
        dsimp only [Option.bind_some]
        rw [countAllowed_zero, Bool.and_false]
        rfl
  rw [hnone]
  exact .pure _

theorem Stage.idle_passes (stage : Stage) : ∀ p ∈ stage.passes, p.Idle := by
  intro p hp
  have henter := stage.forall_enterExpr (P := fun enter => ∀ e, Idle (enter e) none) (fun _ => .pure none)
    Unrolling.idle_enterExpr p hp
  exact ⟨henter, stage.forall_leaveExpr (P := fun leave => ∀ e, Idle (leave e) .keep) (fun _ => .pure _)
    Propagation.idle_debugConstant Propagation.idle_knownVariable Folding.idle_leaveExpr PureCall.idle_method
    Inlining.idle_leaveExpr PureCall.idle_builtin Placeholder.idle_leaveExpr p hp⟩

theorem Iterable.idle_leaveStmt (simplify : Expr → Visit (Option Expr)) (t : Stmt) :
    Idle (leaveStmt simplify t) .keep := by
  unfold leaveStmt
  split
  · refine .config_bind fun c hc => ?_
    rw [hc.iterables]
    exact .pure _
  · exact .pure _

theorem Unrolling.idle_leaveStmt (t : Stmt) : Idle (leaveStmt t) .keep := by
  unfold leaveStmt
  split
  · refine .config_bind fun c hc => ?_
    rw [hc.unrolling]
    split
    · rw [countAllowed_zero]
      exact .pure _
    · exact .pure _
  · exact .pure _

theorem Stage.idle_leaveStmt (stage : Stage) :
    ∀ p ∈ stage.passes, p = .deadCode ∨ ∀ t, Idle (p.leaveStmt t) .keep := by
  have hkeep : ∀ _ : Stmt, Idle (Pure.pure .keep : Visit StmtStep) .keep := fun _ => .pure _
  refine stage.forall_passes ?_ (.inr hkeep) (.inr hkeep) (.inr hkeep) (.inr hkeep) (.inr (Iterable.idle_leaveStmt _))
    (.inr Unrolling.idle_leaveStmt) (.inl rfl) (.inr hkeep) (.inr hkeep) (.inr (Iterable.idle_leaveStmt _))
    (.inr hkeep)
  exact .inr fun t ctx s _ => Tracking.tracks_leaveStmt.bind fun _ s' h => .pure ⟨rfl, .of_tracks h⟩

end Passes

def Visitor.Idle (v : Visitor) : Prop := ∀ e, Visit.Idle (v.expr e) e

namespace Visitor.Idle

variable (hv : v.Idle)
include hv

theorem visits (ctx : Context) (hc : ctx.config.OnlyRemoves) (s : State) (e : Expr) :
    Logic.Visits (I := Unit) (fun x post ctx s => Ensures (x ()) TooDeep post ctx s) (fun _ => v)
      (fun e new => new = e)
      s.Quiet ctx e :=
  fun s1 hs1 => (hv e ctx s1 hc).imp fun _ _ h => ⟨h.1, hs1.trans h.2⟩

theorem target (e : Expr) : Visit.Idle (v.target e) e := by
  intro ctx s hc
  have hrules : Expr.TargetRules (fun e new => new = e) (fun e new => new = e) :=
    .of_rebuilds (fun _ => rfl) Expr.Rebuilds.eq
  exact (logic_ensures _).target (P := fun _ => True) (fun _ _ _ _ => trivial) hrules
    (fun e _ => hv.visits ctx hc s e)
    trivial (.refl s)

theorem exprHeader (e : Expr) : Visit.Idle (v.exprHeader e) e := by
  intro ctx s hc
  refine ((logic_ensures _).exprHeader (R := fun e new => new = e) (fun _ => rfl) (fun c _ => hv.visits ctx hc s c)
    (.refl s)).imp ?_
  exact fun _ _ h => ⟨h.1.1.eq, h.2⟩

theorem exprInside (e : Expr) : Visit.Idle (v.exprInside e) e := by
  intro ctx s hc
  -- the guards of the scope around are put back, and nothing inside asks for support
  have hnested : ∀ s1, s.Quiet s1 → Logic.VisitsNested (I := Unit)
      (fun x post ctx s => Ensures (x ()) TooDeep post ctx s) (fun _ => v) (fun e new => new = e) (fun _ => True)
      s.Quiet ctx s1 := fun s1 hs1 kind vars _ =>
    ⟨_, State.Quiet.refl _, fun s' h => hs1.trans ⟨rfl, rfl, h.support, h.overrun⟩,
      fun e _ => hv.visits (ctx.inside s1.scope .generic false) hc _ e⟩
  refine ((logic_ensures _).exprInside (R := fun e new => new = e) (fun _ _ _ _ => trivial) (fun _ => rfl)
    Expr.Rebuilds.eq (fun s1 s2 hs1 h => hs1.trans (.of_tracks h.tracks)) hnested (fun c _ => hv.visits ctx hc s c)
    (fun _ _ => trivial) (.refl s)).imp ?_
  exact fun _ _ h => ⟨h.1.eq, h.2⟩

theorem stmtHeader (t : Stmt) : Visit.Idle (v.stmtHeader t) t := by
  intro ctx s hc
  cases ht : t.isScope with
  | false =>
    rw [v.stmtHeader_of_not_scope ht]
    exact .pure ⟨rfl, .refl s⟩
  | true =>
    exact ((logic_ensures _).stmtHeader ht (fun c _ => hv.visits ctx hc s c) (.refl s)).imp fun _ _ h => ⟨h.1.eq, h.2⟩

omit hv in
theorem enterExpr {ps} (hps : ∀ p ∈ ps, p.Idle) (e : Expr) : Visit.Idle (v.enterExpr ps e) none := by
  induction ps with
  | nil => exact .pure none
  | cons p ps ih => exact .bind ((hps p (by simp)).enter e) (ih fun q hq => hps q (by simp [hq]))

omit hv in
theorem leaveExpr {ps} (hps : ∀ p ∈ ps, p.Idle) (e : Expr) : Visit.Idle (v.leaveExpr ps e) e := by
  induction ps with
  | nil => exact .pure e
  | cons p ps ih => exact .bind ((hps p (by simp)).leave e) (ih fun q hq => hps q (by simp [hq]))

theorem visitExpr (e : Expr) : Visit.Idle (v.visitExpr e) e := by
  refine .atExpr (.read_bind fun ctx => ?_) e
  have hps := Stage.idle_passes ctx.stage
  exact .bind (hv.exprHeader e) (.bind (enterExpr hps e) (.bind (hv.exprInside e) (leaveExpr hps e)))

end Visitor.Idle

/-- With nothing but the removal of dead code, the visits give back the expressions. -/
theorem visitor_idle (n : Nat) : (visitor n).Idle := by
  induction n with
  | zero => exact fun e ctx s _ => rfl
  | succ n ih => exact ih.visitExpr

/-! ### Definitions -/

/-- A definition with another body. -/
inductive Stmt.Remade (P : List Stmt → List Stmt → Prop) : Stmt → Stmt → Prop
  | function {pos fn body} (h : P fn.body body) :
    Remade P ⟨pos, .functionDef fn⟩ ⟨pos, .functionDef { fn with body := body }⟩
  | classDef {pos cls body} (h : P cls.body body) :
    Remade P ⟨pos, .classDef cls⟩ ⟨pos, .classDef { cls with body := body }⟩

theorem Stmt.Remade.isScope {P : List Stmt → List Stmt → Prop} (h : t.Remade P new) : new.isScope = true := by
  cases h with
  | function | classDef => rfl

/-- What becomes of the bodies in a configuration can be analyzed again, and become something else. -/
structure Visitor.Remakes (v : Visitor) (on : Config → Prop) (P : List Stmt → List Stmt → Prop) : Prop where
  removes : ∀ {c}, on c → c.OnlyRemoves
  refl : ∀ ts, P ts ts
  trans : ∀ {ts us vs}, P ts us → P us vs → P ts vs
  analyzable : ∀ {ts us}, P ts us → Stmt.Analyzable ts → Stmt.Analyzable us
  body : ∀ ctx, on ctx.config → ∀ ts s, Ensures (v.body true ts) TooDeep (fun news s' => P ts news ∧ s.Quiet s') ctx s

namespace Visitor.Remakes

variable {on : Config → Prop} {P : List Stmt → List Stmt → Prop} (h : v.Remakes on P) (hc : on ctx.config)
  {pos : Position}
include h

theorem remade_self (ht : t.isScope = true) : t.Remade P t := by
  obtain ⟨pos, kind⟩ := t
  cases kind with
  | functionDef fn =>
    cases fn
    exact .function (h.refl _)
  | classDef cls =>
    cases cls
    exact .classDef (h.refl _)
  | _ => cases ht

include hc

theorem functionStage (fn : FunctionDef) (stage : Stage) (allowGuards : Bool) (scope : Scope) {vars}
    (hvars : Variables.ofBody fn.body fn.params.names = .ok vars) :
    Ensures (v.functionStage stage allowGuards scope fn) TooDeep (fun r s' =>
      (∃ body, r.1 = { fn with body := body } ∧ P fn.body body) ∧ r.2.guards = scope.guards ∧
        r.2.copied = scope.copied ∧ s.Quiet s') ctx s := by
  refine Visitor.ensures_functionStage_of_ok hvars ((h.body _ ?_ fn.body _).imp fun body s' h' => ?_)
  · exact hc
  · exact ⟨⟨body, rfl, h'.1⟩, h'.2.guards, h'.2.copied, rfl, rfl, h'.2.support, h'.2.overrun⟩

theorem function (fn : FunctionDef) : Ensures (v.function ⟨pos, .functionDef fn⟩ fn) TooDeep
    (fun r s' => (∃ new, r = .inl new ∧ Stmt.Remade P ⟨pos, .functionDef fn⟩ new) ∧ s.Quiet s') ctx s := by
  refine Visitor.ensures_ofBody_bind (fun s' hs' => ?_) fun vars hvars => ?_
  · exact .pure ⟨⟨_, rfl, h.remade_self rfl⟩, .of_tracks hs'.tracks⟩
  refine (h.functionStage hc fn .restricted false _ hvars).bind fun r s1 h1 => ?_
  obtain ⟨slow, scope⟩ := r
  obtain ⟨⟨body1, rfl, hbody1⟩, hguards1, hcopied1, hquiet1⟩ := h1
  dsimp only
  split
  · exact ensures_log_bind.mpr (.pure ⟨⟨_, rfl, .function hbody1⟩, hquiet1.trans (.of_tracks ⟨[_], _, rfl⟩)⟩)
  obtain ⟨vars', hvars'⟩ :=
    Variables.ofBody_of_analyzable (h.analyzable hbody1 (Variables.analyzable_of_ofBody hvars)) fn.params.names
  refine (h.functionStage hc { fn with body := body1 } .specialize true scope hvars').bind fun r s2 h2 => ?_
  obtain ⟨fast, scope'⟩ := r
  obtain ⟨⟨body2, rfl, hbody2⟩, hguards2, hcopied2, hquiet2⟩ := h2
  dsimp only at hguards1 hcopied1 hguards2 hcopied2 ⊢
  rw [hguards2, hguards1, hcopied2, hcopied1]
  exact .pure ⟨⟨_, rfl, .function (h.trans hbody1 hbody2)⟩, hquiet1.trans hquiet2⟩

theorem classBody (cls : ClassDef) : Ensures (v.classBody ⟨pos, .classDef cls⟩ cls) TooDeep
    (fun new s' => Stmt.Remade P ⟨pos, .classDef cls⟩ new ∧ s.Quiet s') ctx s := by
  refine Visitor.ensures_classBody (fun s' hs' => ?_) fun vars => (h.body _ ?_ cls.body _).imp fun body s' h' => ?_
  · exact ⟨h.remade_self rfl, .of_tracks hs'.tracks⟩
  · exact hc
  · exact ⟨.classDef h'.1, rfl, rfl, h'.2.support, h'.2.overrun⟩

theorem definition (hv : v.Idle) (ht : t.isScope = true) : Ensures (v.visitStmt t) TooDeep
    (fun news s' => (∃ new, news = [new] ∧ t.Remade P new) ∧ s.Quiet s') ctx s := by
  refine Visitor.ensures_visitDefinition (fun _ _ _ => TooDeep.locate _ _)
    ((hv.stmtHeader t ctx s (h.removes hc)).imp fun new s1 h1 => ?_)
  obtain ⟨rfl, hquiet1⟩ := h1
  refine (Pass.ensures_enterAll new).imp fun _ s2 h2 => ?_
  have hquiet2 : s.Quiet s2 := hquiet1.trans ⟨h2.2.1, h2.2.2.1, h2.2.2.2.1, fun h => h2.2.2.2.2 ▸ h⟩
  refine Visitor.ensures_stmtInside ht ?_ (fun _ heq => ?_) fun _ heq => ?_
  · exact ⟨ht, ⟨new, rfl, h.remade_self ht⟩, hquiet2⟩
  · subst heq
    refine (h.function hc _).imp fun r s3 h3 => ?_
    obtain ⟨⟨new', rfl, hnew'⟩, hquiet3⟩ := h3
    exact ⟨hnew'.isScope, ⟨new', rfl, hnew'⟩, hquiet2.trans hquiet3⟩
  · subst heq
    refine (h.classBody hc _).imp fun new' s3 h3 => ?_
    exact ⟨h3.1.isScope, ⟨new', rfl, h3.1⟩, hquiet2.trans h3.2⟩

end Visitor.Remakes

/-! ### Statements that do the same -/

open Speculator.Flow

-- Computes the equations once, before the lemmas that all rewrite with them.
attribute [local simp] Stmt.act

/-- The new statements do what the statements do, and can be analyzed as well. -/
structure Stmt.SameFlow (ts news : List Stmt) : Prop where
  act : ∀ o fuel, Stmt.actList o fuel news = Stmt.actList o fuel ts
  analyzable : Stmt.Analyzable ts → Stmt.Analyzable news

structure Handler.SameFlow (hs news : List Handler) : Prop where
  act : ∀ o fuel, Handler.actList o fuel news = Handler.actList o fuel hs
  analyzable : Handler.Analyzable hs → Handler.Analyzable news

namespace Stmt.SameFlow

variable {ts ts' us vs news news' : List Stmt}

theorem refl (ts : List Stmt) : SameFlow ts ts := ⟨fun _ _ => rfl, id⟩

theorem trans (h : SameFlow ts us) (h' : SameFlow us vs) : SameFlow ts vs :=
  ⟨fun o fuel => (h'.act o fuel).trans (h.act o fuel), fun ha => h'.analyzable (h.analyzable ha)⟩

theorem append (h : SameFlow ts news) (h' : SameFlow ts' news') : SameFlow (ts ++ ts') (news ++ news') := by
  refine ⟨fun o fuel => ?_, fun ha => ?_⟩
  · rw [Stmt.actList_append, Stmt.actList_append, h.act, h'.act]
  · rw [Stmt.analyzable_append] at ha ⊢
    exact ⟨h.analyzable ha.1, h'.analyzable ha.2⟩

theorem single (hact : ∀ o fuel, new.act o fuel = t.act o fuel)
    (hanalyzable : Stmt.Analyzable [t] → Stmt.Analyzable [new]) : SameFlow [t] [new] :=
  ⟨fun o fuel => by rw [Stmt.actList_singleton, Stmt.actList_singleton, hact], hanalyzable⟩

theorem of_doesNothing {block} (h : DeadCode.doesNothing block = true) : SameFlow block [] := by
  refine ⟨fun o fuel => ?_, fun _ => Stmt.analyzable_nil⟩
  induction block with
  | nil => rfl
  | cons t block ih =>
    obtain ⟨ht, hblock⟩ := Bool.and_eq_true_iff.mp (List.all_cons.symm.trans h)
    obtain ⟨pos, kind⟩ := t
    cases kind with
    | pass => rw [Stmt.actList_cons, Stmt.act, Action.done_andThen, ih hblock]
    | _ => cases ht

theorem filled (h : SameFlow (t :: ts) []) : SameFlow (t :: ts) [t.withKind .pass] := by
  refine ⟨fun o fuel => ?_, fun _ => Stmt.analyzable_pass⟩
  rw [← h.act, Stmt.actList_singleton, Stmt.withKind, Stmt.act, Stmt.actList_nil]

theorem of_trims {dropped} (h : DeadCode.Trims ts dropped news) : SameFlow ts news := by
  cases h with
  | none => exact .refl _
  | @rest before last dropped hlast =>
    refine .append (.refl before) ⟨fun o fuel => ?_, fun ha => (Stmt.analyzable_cons.mp ha).1⟩
    rw [Stmt.actList_singleton, Stmt.actList_cons]
    obtain ⟨pos, kind⟩ := last
    cases kind with
    | ret value =>
      cases value with
      | none =>
        rw [Stmt.act]
        exact (Action.andThen_stop_andThen (.stop .done) _ (by simp)).symm
      | some value =>
        rw [Stmt.act]
        exact (Action.andThen_stop_andThen _ _ (by simp)).symm
    | raise exc cause =>
      rw [Stmt.act]
      exact (Action.andThen_stop_andThen _ _ (by simp)).symm
    | _ => cases hlast

end Stmt.SameFlow

theorem Handler.SameFlow.cons {h new hs news} (htype : new.type = h.type)
    (hbody : Stmt.SameFlow h.body new.body) (hrest : Handler.SameFlow hs news) :
    Handler.SameFlow (h :: hs) (new :: news) := by
  obtain ⟨pos, type, name, body⟩ := h
  obtain ⟨pos', type', name', body'⟩ := new
  cases htype
  refine ⟨fun o fuel => ?_, fun ha => ?_⟩
  · cases type with
    | none => rw [Handler.actList, Handler.actList, hbody.act]
    | some type => rw [Handler.actList, Handler.actList, hbody.act, hrest.act]
  · rw [Handler.analyzable_cons] at ha ⊢
    exact ⟨hbody.analyzable ha.1, hrest.analyzable ha.2⟩

theorem Handler.SameFlow.rebuilt {hs news}
    (h : List.Forall₂ (Handler.Rebuilds (fun e new => new = e) Stmt.SameFlow) hs news) :
    Handler.SameFlow hs news := by
  induction h with
  | nil => exact ⟨fun _ _ => rfl, id⟩
  | cons h _ ih => exact .cons (eq_of_rel id h.type) h.body ih

theorem Stmt.SameFlow.rebuilt (h : t.Rebuilds (fun e new => new = e) (fun e new => new = e) SameFlow new) :
    SameFlow [t] [new] := by
  have hsame : ∀ {new}, t.Rebuilds (fun e new => new = e) (fun e new => new = e) (fun ts us => us = ts) new →
      SameFlow [t] [new] := fun h => h.eq ▸ .refl _
  cases h with
  | same => exact .refl _
  | header h => exact hsame (.header h)
  | ret h => exact hsame (.ret h)
  | delete h => exact hsame (.delete h)
  | assign h h' => exact hsame (.assign h h')
  | augAssign h h' => exact hsame (.augAssign h h')
  | raise h h' => exact hsame (.raise h h')
  | expr h => exact hsame (.expr h)
  | cond h hbody horelse | whileLoop h hbody horelse =>
    subst h
    refine .single (fun o fuel => ?_) fun ha => ?_
    · rw [Stmt.act, Stmt.act, hbody.act, horelse.act]
    · simp only [Stmt.analyzable_cond, Stmt.analyzable_whileLoop] at ha ⊢
      exact ⟨hbody.analyzable ha.1, horelse.analyzable ha.2⟩
  | forLoop h h' hbody horelse =>
    subst h h'
    refine .single (fun o fuel => ?_) fun ha => ?_
    · rw [Stmt.act, Stmt.act, hbody.act, horelse.act]
    · rw [Stmt.analyzable_forLoop] at ha ⊢
      exact ⟨ha.1, hbody.analyzable ha.2.1, horelse.analyzable ha.2.2⟩
  | withBlock h hbody =>
    cases eq_of_forall₂ WithItem.Rebuilds.eq h
    refine .single (fun o fuel => ?_) fun ha => ?_
    · rw [Stmt.act, Stmt.act, hbody.act]
    · rw [Stmt.analyzable_withBlock] at ha ⊢
      exact ⟨ha.1, hbody.analyzable ha.2⟩
  | tryBlock hbody h horelse hfinal =>
    have hhandlers := Handler.SameFlow.rebuilt h
    refine .single (fun o fuel => ?_) fun ha => ?_
    · rw [Stmt.act, Stmt.act, hbody.act, hhandlers.act, horelse.act, hfinal.act]
    · rw [Stmt.analyzable_tryBlock] at ha ⊢
      exact ⟨hbody.analyzable ha.1, hhandlers.analyzable ha.2.1, horelse.analyzable ha.2.2.1,
        hfinal.analyzable ha.2.2.2⟩

/-! ### What dead code becomes -/

namespace DeadCode

theorem sameFlow_inPlaceOf {body} (h : Stmt.SameFlow [t] body) : Stmt.SameFlow [t] ((inPlaceOf t body).stmts t) := by
  unfold inPlaceOf
  split
  · rename_i hempty
    rw [List.isEmpty_iff.mp hempty] at h
    exact h.filled
  · exact h

/-- What the removal makes of a statement does the same as the statement. -/
theorem Discards.sameFlow {removed step} (h : Discards t removed step) : Stmt.SameFlow [t] (step.stmts t) := by
  cases h with
  | always htest hv =>
    refine sameFlow_inPlaceOf ⟨fun o fuel => ?_, fun ha => (Stmt.analyzable_cond.mp ha).1⟩
    rw [Stmt.actList_singleton, Stmt.act, Oracle.branch_of_constant htest, hv, if_pos rfl]
  | never htest hv =>
    refine sameFlow_inPlaceOf ⟨fun o fuel => ?_, fun ha => (Stmt.analyzable_cond.mp ha).2⟩
    rw [Stmt.actList_singleton, Stmt.act, Oracle.branch_of_constant htest, hv, if_neg (by simp)]
  | negated hbody =>
    rename_i pos test body orelse _
    have hidle : ∀ o fuel, Stmt.actList o fuel [] = Stmt.actList o fuel body :=
      (Stmt.SameFlow.of_doesNothing hbody).act
    refine .single (fun o fuel => ?_) fun ha => ?_
    · -- the blocks are swapped and the test is negated
      rw [Stmt.act, Stmt.act, Expr.withKind, Oracle.branch_not, hidle]
      congr
      funext b
      cases b <;> rfl
    · rw [Stmt.analyzable_cond] at ha ⊢
      exact ⟨ha.2, Stmt.analyzable_nil⟩
  | condElse horelse => exact .rebuilt (.cond rfl (.refl _) (.of_doesNothing horelse))
  | idleWhile htest hv =>
    refine sameFlow_inPlaceOf ⟨fun o fuel => ?_, fun ha => (Stmt.analyzable_whileLoop.mp ha).2⟩
    rw [Stmt.actList_singleton, Stmt.act]
    cases fuel with
    | zero => rw [Oracle.whileTrue, Oracle.branch_of_constant htest, hv, if_neg (by simp)]
    | succ fuel => rw [Oracle.whileTrue, Oracle.branch_of_constant htest, hv, if_neg (by simp)]
  | whileElse horelse => exact .rebuilt (.whileLoop rfl (.refl _) (.of_doesNothing horelse))
  | idleFor hiter =>
    refine sameFlow_inPlaceOf ⟨fun o fuel => ?_, fun ha => (Stmt.analyzable_forLoop.mp ha).2.2⟩
    rw [Stmt.actList_singleton, Stmt.act, Oracle.items, hiter]
    rfl
  | forElse horelse => exact .rebuilt (.forLoop rfl rfl (.refl _) (.of_doesNothing horelse))
  | tryFinal hbody horelse =>
    have hidle := (Stmt.SameFlow.of_doesNothing hbody).act
    have hidle' := (Stmt.SameFlow.of_doesNothing horelse).act
    refine sameFlow_inPlaceOf ⟨fun o fuel => ?_, fun ha => (Stmt.analyzable_tryBlock.mp ha).2.2.2⟩
    rw [Stmt.actList_singleton, Stmt.act, ← hidle, ← hidle', Stmt.actList_nil, Action.done_guarded,
      Action.done_finishing]
  | tryElse hbody hfinal =>
    have hidle := (Stmt.SameFlow.of_doesNothing hbody).act
    have hidle' := (Stmt.SameFlow.of_doesNothing hfinal).act
    refine sameFlow_inPlaceOf ⟨fun o fuel => ?_, fun ha => (Stmt.analyzable_tryBlock.mp ha).2.2.1⟩
    rw [Stmt.actList_singleton, Stmt.act, ← hidle, ← hidle', Stmt.actList_nil, Action.done_guarded,
      Action.finishing_done]
  | tryMoved hbody =>
    have hidle := (Stmt.SameFlow.of_doesNothing hbody).act
    refine .single (fun o fuel => ?_) fun ha => ?_
    · rw [Stmt.act, Stmt.act, ← hidle, Stmt.actList_nil, Handler.actList, Action.done_guarded,
        Action.guarded_raised_done]
    · rw [Stmt.analyzable_tryBlock] at ha ⊢
      exact ⟨ha.2.2.1, Handler.analyzable_nil, Stmt.analyzable_nil, ha.2.2.2⟩
  | tryWithoutElse horelse =>
    refine .rebuilt (.tryBlock (.refl _) (forall₂_refl (fun h => ?_) _) (.of_doesNothing horelse) (.refl _))
    exact ⟨rfl, rfl, Expr.optionRel_refl (R := fun e new => new = e) (fun _ => rfl) _, .refl h.body⟩

end DeadCode

/-! ### Visits of statements -/

def Flow.correspondence : Correspondence where
  expr s e new s' := new = e ∧ s.Quiet s'
  target s e new s' := new = e ∧ s.Quiet s'
  stmts s ts news s' := Stmt.SameFlow ts news ∧ s.Quiet s'

namespace Flow

/-- Statements whose parts do the same do the same. -/
theorem rebuilding : correspondence.Rebuilding State.Quiet (fun _ => True) (fun e new => new = e)
    (fun e new => new = e) Stmt.SameFlow where
  expr := ⟨fun h _ hs => ⟨h.1, hs.trans h.2⟩, fun h => h _ (.refl _)⟩
  target := ⟨fun h _ hs => ⟨h.1, hs.trans h.2⟩, fun h => h _ (.refl _)⟩
  stmts := ⟨fun h _ hs _ => ⟨h.1, hs.trans h.2⟩, fun h => h _ (.refl _) trivial⟩
  known _ hs := ⟨hs.guards, hs.copied, hs.support, hs.overrun⟩
  releases h hs := hs.trans (.of_releases h)
  fit_block _ _ := trivial
  fit_append _ := ⟨trivial, trivial⟩
  fit_of _ _ := trivial
  refl := .refl
  trans := .trans
  append := .append
  rebuilt := .rebuilt
  trims := .of_trims
  filled _ h := h.filled

variable (hc : ctx.config.OnlyRemoves)
include hc

theorem exprs_correspondence (n : Nat) : correspondence.Exprs (visitor n) TooDeep ctx :=
  ⟨fun e s => visitor_idle n e ctx s hc, fun e s => (visitor_idle n).target e ctx s hc⟩

theorem passes_correspondence : correspondence.Passes TooDeep ctx := by
  intro p hp t s
  rcases ctx.stage.idle_leaveStmt p hp with rfl | hidle
  · refine DeadCode.ensures_leaveStmt.imp fun step s' h => ?_
    cases h with
    | kept hs => exact ⟨.refl _, .of_tracks hs.tracks⟩
    | discarded h hs =>
      have hflow := h.sameFlow
      obtain ⟨new, rfl⟩ | ⟨body, rfl⟩ := h.cases_step
      · exact ⟨hflow, .of_releases hs⟩
      · exact ⟨hflow, .of_releases hs⟩
  · refine (hidle t ctx s hc).imp fun step s' h => ?_
    obtain ⟨rfl, hquiet⟩ := h
    exact ⟨.refl _, hquiet⟩

omit hc in
theorem remakes {v : Visitor}
    (hstmt : ∀ ctx, ctx.config.OnlyRemoves → ∀ t s, Ensures (v.stmt t) TooDeep (correspondence.stmts s [t]) ctx s) :
    v.Remakes Config.OnlyRemoves Stmt.SameFlow where
  removes h := h
  refl := .refl
  trans := .trans
  analyzable h := h.analyzable
  body ctx hc ts _ := Correspondence.ensures_body rebuilding.bodies (hstmt ctx hc) true ts

end Flow

theorem visitor_sameFlow (n : Nat) : ∀ ctx : Context, ctx.config.OnlyRemoves → ∀ t s,
    Ensures ((visitor n).stmt t) TooDeep (Flow.correspondence.stmts s [t]) ctx s := by
  induction n with
  | zero => exact fun ctx hc t s => rfl
  | succ n ih =>
    intro ctx hc t s
    cases ht : t.isScope with
    | false =>
      exact Flow.rebuilding.visitStmt (Flow.exprs_correspondence hc n) (ih ctx hc) (Flow.passes_correspondence hc)
        (fun _ _ _ => TooDeep.locate _ _) ht
    | true =>
      refine ((Flow.remakes ih).definition hc (visitor_idle n) ht).imp fun news s' h => ?_
      obtain ⟨⟨new, rfl, hnew⟩, hquiet⟩ := h
      refine ⟨?_, hquiet⟩
      cases hnew with
      | function =>
        refine .single (fun o fuel => ?_) fun _ => Stmt.analyzable_of_scope rfl
        rw [Stmt.act, Stmt.act]
      | @classDef _ cls _ hflow =>
        cases cls
        refine .single (fun o fuel => ?_) fun _ => Stmt.analyzable_of_scope rfl
        rw [Stmt.act, Stmt.act, hflow.act]

theorem Module.ensures_sameFlow (pos : Position) (fn : FunctionDef) (n : Nat) {ctx s}
    (hc : ctx.config.OnlyRemoves) (hs : s.Initial) :
    Ensures (Module.visit (visitor n) ⟨[⟨pos, .functionDef fn⟩]⟩) TooDeep
      (fun new s' => (∃ body, new = ⟨[⟨pos, .functionDef { fn with body := body }⟩]⟩ ∧ Stmt.SameFlow fn.body body) ∧
        s.Quiet s') ctx s := by
  have hsame : ∃ body, (⟨[⟨pos, .functionDef fn⟩]⟩ : Module) = ⟨[⟨pos, .functionDef { fn with body := body }⟩]⟩ ∧
      Stmt.SameFlow fn.body body := ⟨fn.body, by cases fn; rfl, .refl _⟩
  refine Module.ensures_visit_of_body (fun _ hlogs => ⟨hsame, .of_tracks hlogs.tracks⟩) fun vars => ?_
  have hbody : Ensures ((visitor n).body false [⟨pos, .functionDef fn⟩]) TooDeep (fun news s' =>
      (∃ body, news = [⟨pos, .functionDef { fn with body := body }⟩] ∧ Stmt.SameFlow fn.body body) ∧ s.Quiet s') ctx
        { s with scope := { s.scope with vars := vars } } := by
    refine Visitor.ensures_body_of_kept ?_
    rw [List.flatMapM_cons]
    cases n with
    | zero => rfl
    | succ n =>
      refine ((Flow.remakes (visitor_sameFlow n)).definition hc (visitor_idle n) rfl).bind fun news s' h => ?_
      obtain ⟨⟨new, rfl, ⟨hflow⟩⟩, hquiet⟩ := h
      refine .pure ⟨fun t ht => by simp at ht, ⟨_, rfl, hflow⟩, ?_⟩
      exact ⟨hquiet.guards, hquiet.copied, hquiet.support, hquiet.overrun⟩
  refine hbody.imp fun news s' h => ?_
  obtain ⟨⟨body, rfl, hflow⟩, hquiet⟩ := h
  rw [hquiet.support, hs.support]
  exact ⟨⟨body, rfl, hflow⟩, hquiet⟩

/-- A report of a quiet run. -/
theorem State.Quiet.overrun_eq_false {report : Report} (h : s.Quiet s') (hs : s.Initial)
    (hreport : report.overrun = true ↔ .overrun ∈ s'.log) : report.overrun = false := by
  refine Bool.eq_false_iff.mpr fun htrue => ?_
  have hmem := h.overrun (hreport.mp htrue)
  rw [hs.log] at hmem
  cases hmem

/-- If nothing but the removal of dead code is turned on, optimizing a function succeeds and leaves its header as it
is, and the body does the same as before: for every oracle and every bound on the iterations of its loops there are
the same events and the same completion. -/
theorem optimize_flow (config : Config) (filename : String) (source : Option String) (pos : Position)
    (fn : FunctionDef)
    (hconfig : config.OnlyRemoves) :
    (optimize config filename source ⟨[⟨pos, .functionDef fn⟩]⟩).overrun = false ∧
    ∃ body, (optimize config filename source ⟨[⟨pos, .functionDef fn⟩]⟩).result =
        .ok ⟨[⟨pos, .functionDef { fn with body := body }⟩]⟩ ∧
      ∀ o : Flow.Oracle, (∀ fuel, Stmt.actList o fuel body = Stmt.actList o fuel fn.body) ∧
        (∀ c events, o.Completes body c events ↔ o.Completes fn.body c events) ∧
        (o.Diverges body ↔ o.Diverges fn.body) := by
  have hmod : config.overriddenBy ⟨[⟨pos, .functionDef fn⟩]⟩ = config := rfl
  obtain ⟨_, s', hresult, ⟨⟨body, rfl, hflow⟩, s, hs, hquiet⟩, hoverrun⟩ :=
    optimize_ok_of_tooDeep filename source (hmod ▸ hconfig.inlining) fun n ctx s hctx hs =>
      (Module.ensures_sameFlow pos fn n (by rw [hctx.config, hmod]; exact hconfig) hs).imp fun _ _ h =>
        (⟨h.1, s, hs, h.2⟩ : _ ∧ ∃ s : State, s.Initial ∧ s.Quiet _)
  refine ⟨hquiet.overrun_eq_false hs hoverrun, body, hresult, fun o => ⟨hflow.act o, fun c events => ?_, ?_⟩⟩
  · simp only [Flow.Oracle.Completes, hflow.act]
  · simp only [Flow.Oracle.Diverges, hflow.act]

set_option maxRecDepth 100000 in
/-- A `try` statement whose body does nothing, with an `else` block that loops and with a `finally` block that always
raises.  Its handler goes, the branch in the loop is negated, and nothing is left after the `return` and after the
`raise`, so that eleven of the 27 nodes are left. -/
theorem optimize_flow_try :
    let config : Config := { Config.disableAll {} with removeDeadCode := true }
    let x : Expr := ⟨{}, .name "x"⟩
    let call : Stmt := ⟨{}, .expr ⟨{}, .call x [] []⟩⟩
    let body : List Stmt := [⟨{}, .tryBlock [⟨{}, .pass⟩] [⟨{}, none, none, [call]⟩]
      [⟨{}, .whileLoop x [⟨{}, .cond x [⟨{}, .pass⟩] [⟨{}, .ret (some x)⟩, call]⟩] [⟨{}, .pass⟩]⟩]
      [⟨{}, .cond ⟨{}, .const (.int 0)⟩ [call] []⟩, ⟨{}, .raise (some x) none⟩, call]⟩]
    let fn : FunctionDef := ⟨"f", ⟨[], none, [], [], none, []⟩, body, [], false⟩
    config.OnlyRemoves ∧ (Stmt.nodesList Node.everywhere body).length = 27 ∧
      ∃ new, (optimize config "m.py" none ⟨[⟨{}, .functionDef fn⟩]⟩).result =
          .ok ⟨[⟨{}, .functionDef { fn with body := new }⟩]⟩ ∧ (Stmt.nodesList Node.everywhere new).length = 11 ∧
        ∀ o : Flow.Oracle, (∀ c events, o.Completes new c events ↔ o.Completes body c events) ∧
          (o.Diverges new ↔ o.Diverges body) := by
  intro config x call body fn
  have hconfig : config.OnlyRemoves := ⟨rfl, rfl, rfl, rfl, rfl, rfl, rfl, rfl⟩
  have hlength : (optimize config "m.py" none ⟨[⟨{}, .functionDef fn⟩]⟩).result.toOption.map
      (fun m => (Stmt.nodesList Node.everywhere m.body).length) = some 12 := by decide +kernel
  obtain ⟨_, new, hrun, hflow⟩ := optimize_flow config "m.py" none {} fn hconfig
  rw [hrun] at hlength
  refine ⟨hconfig, by decide +kernel, new, hrun, ?_, fun o => (hflow o).2⟩
  simpa [Except.toOption, Stmt.nodesList, Stmt.nodes, Node.everywhere, StmtKind.nodes, FunctionDef.nodes, fn,
    Params.nodes, Expr.nodesList, Expr.nodesOptions] using hlength

end Speculator
