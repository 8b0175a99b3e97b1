import Speculator.Proofs.Parts
import Speculator.Proofs.Steps

/-!
# Correspondences of trees

A correspondence relates trees to what visits make of them, together with the states before and after.  Visiting goes
through statements in the same way whatever is said about them: the parts are visited in their order, what has become
of them is put together again, the passes look at it, and bodies are trimmed and filled.  So a correspondence that is
kept by bodies (`Correspondence.Bodies`) and by the passes (`Correspondence.Passes`) holds between a statement and the
result of visiting it, if it holds between the statement and what its visited parts make. Where the relation does not
depend on the states, it has to be kept by exchanging the parts of statements (`Correspondence.Rebuilding`).
-/

namespace Speculator

open Visit

def StmtStep.stmts (t : Stmt) : StmtStep → List Stmt
  | .keep => [t]
  | .replace new => [new]
  | .splice body | .revisit body => body

/-- What visits make of expressions, targets and statements, and how they change the state. -/
structure Correspondence where
  expr : State → Expr → Expr → State → Prop
  target : State → Expr → Expr → State → Prop
  stmts : State → List Stmt → List Stmt → State → Prop

namespace Correspondence

variable (K : Correspondence)

def step (s : State) (t : Stmt) : StmtStep → State → Prop
  | .keep, s' => K.stmts s [t] [t] s'
  | .replace new, s' => K.stmts s [t] [new] s'
  | .splice body, s' => K.stmts s [t] body s'
  | .revisit body, s' => K.stmts s [t] body s'

theorem step_iff {s s' t step} : K.step s t step s' ↔ K.stmts s [t] (step.stmts t) s' := by
  cases step with
  | keep | replace | splice | revisit => exact Iff.rfl

/-- The correspondence is kept by putting bodies together, and by trimming and filling them. -/
structure Bodies : Prop where
  refl : ∀ s ts, K.stmts s ts ts s
  trans : ∀ {s s₁ s₂ ts us vs}, K.stmts s ts us s₁ → K.stmts s₁ us vs s₂ → K.stmts s ts vs s₂
  append : ∀ {s s₁ s₂ ts ts' us us'}, K.stmts s ts us s₁ → K.stmts s₁ ts' us' s₂ →
    K.stmts s (ts ++ ts') (us ++ us') s₂
  trims : ∀ {s s' ts dropped news}, DeadCode.Trims ts dropped news → s.Releases dropped s' → K.stmts s ts news s'
  filled : ∀ {s s' t ts}, K.stmts s (t :: ts) [] s' → K.stmts s (t :: ts) [t.withKind .pass] s'

def Passes (bad : Failure → Prop) (ctx : Context) : Prop :=
  ∀ p ∈ ctx.stage.passes, ∀ t s, Ensures (p.leaveStmt t) bad (K.step s t) ctx s

/-- The visits of expressions and targets give what corresponds to them. -/
structure Exprs (v : Visitor) (bad : Failure → Prop) (ctx : Context) : Prop where
  expr : ∀ e s, Ensures (v.expr e) bad (K.expr s e) ctx s
  target : ∀ e s, Ensures (v.target e) bad (K.target s e) ctx s

variable {K} {v : Visitor} {bad : Failure → Prop} {ctx : Context} {s : State}

/-! ### Bodies -/

section Bodies

variable (hK : K.Bodies) (hstmt : ∀ t s, Ensures (v.stmt t) bad (K.stmts s [t]) ctx s)
include hK

theorem Bodies.filled_stmts {ts news s'} (h : K.stmts s ts news s') (required : Bool) :
    K.stmts s ts (Stmt.filled required ts news) s' := by
  unfold Stmt.filled
  split
  · rename_i hempty
    obtain rfl : news = [] := List.isEmpty_iff.mp (Bool.and_eq_true_iff.mp hempty).2
    exact hK.filled h
  · exact h

include hstmt

theorem ensures_flatMapM (ts : List Stmt) : Ensures (ts.flatMapM v.stmt) bad (K.stmts s ts) ctx s := by
  induction ts generalizing s with
  | nil => exact hK.refl s []
  | cons t ts ih =>
    rw [List.flatMapM_cons]
    refine (hstmt t s).bind fun us s1 h1 => ih.bind fun vs s2 h2 => ?_
    exact .pure (hK.append h1 h2)

theorem ensures_body (required : Bool) (ts : List Stmt) : Ensures (v.body required ts) bad (K.stmts s ts) ctx s := by
  refine Visitor.ensures_body ((ensures_flatMapM hK hstmt ts).imp fun visited s1 h1 => ⟨?_, ?_⟩)
  · refine (DeadCode.ensures_trimBody visited).imp fun trimmed s2 h2 => ?_
    obtain ⟨dropped, htrims, hs⟩ := h2
    exact hK.filled_stmts (hK.trans h1 (hK.trims htrims hs)) required
  · exact hK.filled_stmts h1 required

theorem ensures_leaveStmt {ps} (hps : ∀ p ∈ ps, ∀ t s, Ensures (p.leaveStmt t) bad (K.step s t) ctx s) (t : Stmt) :
    Ensures (v.leaveStmt ps t) bad (K.stmts s [t]) ctx s := by
  induction ps generalizing t s with
  | nil => exact .pure (hK.refl s [t])
  | cons p ps ih =>
    have hrest := fun t s => ih (fun q hq => hps q (by simp [hq])) t (s := s)
    unfold Visitor.leaveStmt
    refine (hps p (by simp) t s).bind fun step s1 h1 => ?_
    cases step with
    | keep => exact (hrest t s1).imp fun news s2 h2 => hK.trans h1 h2
    | replace new =>
      dsimp only
      split
      · exact (hrest new s1).imp fun news s2 h2 => hK.trans h1 h2
      · exact .pure h1
    | splice body => exact .pure h1
    | revisit body => exact (ensures_body hK hstmt false body).imp fun news s2 h2 => hK.trans h1 h2

/-- A statement that opens no scope corresponds to what it becomes, if it corresponds to what its visited parts make.
-/
theorem Bodies.visitStmt (hpasses : K.Passes bad ctx)
    (hchildren : ∀ t s, Ensures (v.stmtChildren t) bad (fun new => K.stmts s [t] [new]) ctx s)
    (hbad : Unlocated bad) {t} (ht : t.isScope = false) : Ensures (v.visitStmt t) bad (K.stmts s [t]) ctx s := by
  refine Visitor.ensures_visitStmt ht hbad ?_
  refine (hchildren t s).bind fun new s1 h1 => ?_
  exact (ensures_leaveStmt hK hstmt hpasses new).imp fun news s2 h2 => hK.trans h1 h2

end Bodies

/-! ### Relations between trees -/

/-- A correspondence that relates expressions by `R`, targets by `T` and statements by `B`, whatever the state is,
while what is known about the state stays true.  Statements may have to be fit for it.  It is kept by exchanging parts
of statements, and by trimming and filling bodies. -/
structure Rebuilding (K : Correspondence) {ι : Type} (good : ι → State → Prop) (fit : List Stmt → Prop)
    (R T : Expr → Expr → Prop) (B : List Stmt → List Stmt → Prop) : Prop where
  expr : ∀ {s e new s'}, K.expr s e new s' ↔ ∀ i, good i s → R e new ∧ good i s'
  target : ∀ {s e new s'}, K.target s e new s' ↔ ∀ i, good i s → T e new ∧ good i s'
  stmts : ∀ {s ts us s'}, K.stmts s ts us s' ↔ ∀ i, good i s → fit ts → B ts us ∧ good i s'
  known : ∀ {i s} ns, good i s → good i { s with known := ns }
  releases : ∀ {i s s' removed}, s.Releases removed s' → good i s → good i s'
  fit_block : ∀ {t block}, fit [t] → block ∈ t.blocks → fit block
  fit_append : ∀ {ts us}, fit (ts ++ us) → fit ts ∧ fit us
  fit_of : ∀ {ts us}, B ts us → fit ts → fit us
  refl : ∀ ts, B ts ts
  trans : ∀ {ts us vs}, B ts us → B us vs → B ts vs
  append : ∀ {ts ts' us us'}, B ts us → B ts' us' → B (ts ++ ts') (us ++ us')
  rebuilt : ∀ {t new}, t.Rebuilds R T B new → B [t] [new]
  trims : ∀ {ts dropped us}, DeadCode.Trims ts dropped us → B ts us
  filled : ∀ {t ts}, fit (t :: ts) → B (t :: ts) [] → B (t :: ts) [t.withKind .pass]

namespace Rebuilding

variable {ι : Type} {good : ι → State → Prop} {fit : List Stmt → Prop} {R T : Expr → Expr → Prop}
  {B : List Stmt → List Stmt → Prop}

theorem of_plain (hK : K = ⟨fun _ e new _ => R e new, fun _ e new _ => T e new, fun _ ts us _ => B ts us⟩)
    (refl : ∀ ts, B ts ts) (trans : ∀ {ts us vs}, B ts us → B us vs → B ts vs)
    (append : ∀ {ts ts' us us'}, B ts us → B ts' us' → B (ts ++ ts') (us ++ us'))
    (rebuilt : ∀ {t new}, t.Rebuilds R T B new → B [t] [new])
    (trims : ∀ {ts dropped us}, DeadCode.Trims ts dropped us → B ts us)
    (filled : ∀ {t ts}, B (t :: ts) [] → B (t :: ts) [t.withKind .pass]) :
    K.Rebuilding (fun (_ : Unit) _ => True) (fun _ => True) R T B := by
  subst hK
  exact ⟨⟨fun h _ _ => ⟨h, trivial⟩, fun h => (h () trivial).1⟩,
    ⟨fun h _ _ => ⟨h, trivial⟩, fun h => (h () trivial).1⟩,
    ⟨fun h _ _ _ => ⟨h, trivial⟩, fun h => (h () trivial trivial).1⟩, fun _ _ => trivial, fun _ _ => trivial,
    fun _ _ => trivial, fun _ => ⟨trivial, trivial⟩, fun _ _ => trivial, refl, trans, append, rebuilt, trims,
    fun _ => filled⟩

variable (hK : K.Rebuilding good fit R T B)
include hK

theorem bodies : K.Bodies where
  refl s ts := hK.stmts.mpr fun i hs _ => ⟨hK.refl ts, hs⟩
  trans h1 h2 := hK.stmts.mpr fun i hs hfit => by
    obtain ⟨hus, hs1⟩ := hK.stmts.mp h1 i hs hfit
    obtain ⟨hvs, hs2⟩ := hK.stmts.mp h2 i hs1 (hK.fit_of hus hfit)
    exact ⟨hK.trans hus hvs, hs2⟩
  append h1 h2 := hK.stmts.mpr fun i hs hfit => by
    obtain ⟨hus, hs1⟩ := hK.stmts.mp h1 i hs (hK.fit_append hfit).1
    obtain ⟨hus', hs2⟩ := hK.stmts.mp h2 i hs1 (hK.fit_append hfit).2
    exact ⟨hK.append hus hus', hs2⟩
  trims h hs := hK.stmts.mpr fun i hgood _ => ⟨hK.trims h, hK.releases hs hgood⟩
  filled h := hK.stmts.mpr fun i hs hfit => by
    obtain ⟨hempty, hs'⟩ := hK.stmts.mp h i hs hfit
    exact ⟨hK.filled hfit hempty, hs'⟩

variable (hexpr : K.Exprs v bad ctx) (hstmt : ∀ t s, Ensures (v.stmt t) bad (K.stmts s [t]) ctx s)
include hexpr hstmt

theorem stmtChildren (t : Stmt) : Ensures (v.stmtChildren t) bad (fun new => K.stmts s [t] [new]) ctx s := by
  have hbody := fun required ts s => ensures_body hK.bodies hstmt required ts (s := s)
  have hexprs : ∀ e ∈ t.exprs, Logic.Visits (I := Unit) (fun x post ctx s => Ensures (x ()) bad post ctx s)
      (fun _ => v)
      (fun _ _ => True) (fun _ => True) ctx e :=
    fun e _ s _ => (hexpr.expr e s).imp fun _ _ _ => ⟨trivial, trivial⟩
  -- how the visit fails does not depend on what is known about the state
  have hany := (logic_ensures bad).stmtChildren (T := fun _ _ => True) (B := fun _ _ => True) (s := s)
    (fun _ _ => trivial) (fun _ _ _ => trivial) hexprs
    (fun e _ s _ => (hexpr.target e s).imp fun _ _ _ => ⟨trivial, trivial⟩)
    (fun required ts _ s _ => (hbody required ts s).imp fun _ _ _ => ⟨trivial, trivial⟩) trivial
  refine Ensures.of_run hany fun new s' hok => hK.stmts.mpr fun i hs hfit => ?_
  have hparts := (logic_ensures bad).stmtChildren (w := fun _ => v) (t := t) (fun _ => hK.known _)
    (fun _ _ => hK.known _) (fun e _ s hs => (hexpr.expr e s).imp fun _ _ h => hK.expr.mp h i hs)
    (fun e _ s hs => (hexpr.target e s).imp fun _ _ h => hK.target.mp h i hs)
    (fun required ts hts s hs => (hbody required ts s).imp fun _ _ h => hK.stmts.mp h i hs (hK.fit_block hfit hts)) hs
  exact ⟨hK.rebuilt (hparts.of_ok hok).1, (hparts.of_ok hok).2⟩

theorem visitStmt (hpasses : K.Passes bad ctx) (hbad : Unlocated bad) {t} (ht : t.isScope = false) :
    Ensures (v.visitStmt t) bad (K.stmts s [t]) ctx s :=
  hK.bodies.visitStmt hstmt hpasses (fun t _ => hK.stmtChildren hexpr hstmt t) hbad ht

end Rebuilding

end Correspondence

end Speculator
