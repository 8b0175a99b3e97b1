import Speculator.Proofs.Composition
import Speculator.Proofs.Stores

/-!
# Visits of statements and bodies

How the visit of a statement is put together.  A function is visited in stages, each of which gives a version of it
(`Visitor.ensures_function_of_stages`).
-/

namespace Speculator

open Visit

variable {v : Visitor} {ctx : Context} {s : State} {bad : Failure → Prop} {t : Stmt}

/-- Whether all passes leave the statement as it is once its children are visited, and record nothing. -/
def Stmt.isInert (t : Stmt) : Bool :=
  match t.kind with
  | .functionDef _ | .classDef _ | .ret _ | .raise _ _ | .globals _ | .nonlocals _ | .expr _
  | .pass | .brk | .cont => true
  | _ => false

theorem Stmt.isInert_of_isScope (ht : t.isScope = true) : t.isInert = true := by
  obtain ⟨pos, kind⟩ := t
  cases kind with
  | functionDef | classDef => rfl
  | _ => cases ht

namespace Pass

theorem enterStmt_of_not_scope (stage : Stage) (ht : t.isScope = false) :
    ∀ p ∈ stage.passes, p.enterStmt t = pure () := by
  have htracking : Tracking.enterStmt t = pure () := by
    obtain ⟨pos, kind⟩ := t
    cases kind with
    | functionDef | classDef => cases ht
    | _ => rfl
  have hinlining : Inlining.enterStmt t = pure () := by
    obtain ⟨pos, kind⟩ := t
    cases kind with
    | functionDef | classDef => cases ht
    | _ => rfl
  exact stage.forall_enterStmt (P := fun enter => enter t = pure ()) rfl htracking hinlining

/-- Most kinds of statements are left alone by the passes. -/
theorem leaveStmt_of_inert (stage : Stage) (ht : t.isInert = true) :
    ∀ p ∈ stage.passes, ∀ ctx s, p.leaveStmt t ctx s = .ok .keep s := by
  obtain ⟨pos, kind⟩ := t
  have htracking : ∀ ctx s, Pass.tracking.leaveStmt ⟨pos, kind⟩ ctx s = .ok .keep s := by
    cases kind with
    | functionDef | classDef | ret | raise | globals | nonlocals | expr | pass | brk | cont => exact fun _ _ => rfl
    | _ => cases ht
  have hiterable : ∀ simplify ctx s, Iterable.leaveStmt simplify ⟨pos, kind⟩ ctx s = .ok .keep s := by
    cases kind with
    | functionDef | classDef | ret | raise | globals | nonlocals | expr | pass | brk | cont => exact fun _ _ _ => rfl
    | _ => cases ht
  have hunrolling : ∀ ctx s, Unrolling.leaveStmt ⟨pos, kind⟩ ctx s = .ok .keep s := by
    cases kind with
    | functionDef | classDef | ret | raise | globals | nonlocals | expr | pass | brk | cont => exact fun _ _ => rfl
    | _ => cases ht
  have hdeadCode : ∀ ctx s, DeadCode.leaveStmt ⟨pos, kind⟩ ctx s = .ok .keep s := by
    intro ctx s
    change (if !ctx.config.removeDeadCode then pure StmtStep.keep else _ : Visit StmtStep) ctx s = _
    split
    · rfl
    · cases kind with
      | functionDef | classDef | ret | raise | globals | nonlocals | expr | pass | brk | cont => rfl
      | _ => cases ht
  exact stage.forall_leaveStmt (P := fun leave => ∀ ctx s, leave ⟨pos, kind⟩ ctx s = .ok .keep s) (fun _ _ => rfl)
    htracking (hiterable _) hunrolling hdeadCode (hiterable _)

/-- What the passes record of a definition before its inside is visited. -/
inductive Enters (t : Stmt) (s : State) : State → Prop
  | same : Enters t s s
  | forgets (known : Namespace) : Enters t s { s with known := known }
  | defines {fn} (h : t.kind = .functionDef fn) : Enters t s { s with scope := s.scope.define fn }

theorem ensures_enterStmt (stage : Stage) {p} (hp : p ∈ stage.passes) :
    Ensures (p.enterStmt t) bad (fun _ s' => Enters t s s') ctx s := by
  refine stage.forall_enterStmt (P := fun enter => Ensures (enter t) bad (fun _ s' => Enters t s s') ctx s)
    (.pure .same) ?_ ?_ p hp
  · unfold Tracking.enterStmt
    split
    · exact ensures_modifyKnown.mpr (.forgets _)
    · exact ensures_modifyKnown.mpr (.forgets _)
    · exact .pure .same
  · unfold Inlining.enterStmt
    split
    · rename_i hkind
      rw [ensures_get_bind]
      split
      · exact .pure .same
      · exact ensures_modifyScope.mpr (.defines hkind)
    · exact .pure .same

theorem ensures_enterAll (t : Stmt) : Ensures (ctx.stage.passes.forM fun p => p.enterStmt t) bad
    (fun _ s' => (s'.scope.kind = s.scope.kind ∧ s'.scope.vars = s.scope.vars) ∧ s'.scope.guards = s.scope.guards ∧
      s'.scope.copied = s.scope.copied ∧ s'.needsSupport = s.needsSupport ∧ s'.log = s.log) ctx s := by
  refine ensures_forM ⟨⟨rfl, rfl⟩, rfl, rfl, rfl, rfl⟩ fun p hp s' hs' =>
    (ensures_enterStmt _ hp).imp fun _ s'' h => ?_
  cases h <;> exact hs'

end Pass

namespace Visitor

theorem ensures_any {α : Type} {x : Visit α} : Ensures x (fun _ => True) (fun _ _ => True) ctx s := by
  unfold Ensures
  cases x ctx s <;> trivial

variable {post : List Stmt → State → Prop}

theorem ensures_leaveStmt_of_inert (ht : t.isInert = true) {stage : Stage} (h : post [t] s) :
    Ensures (v.leaveStmt stage.passes t) bad post ctx s := by
  have hpasses := Pass.leaveStmt_of_inert stage ht
  generalize stage.passes = ps at hpasses
  induction ps with
  | nil => exact .pure h
  | cons p ps ih =>
    have hkeep : Ensures (p.leaveStmt t) bad (fun step s' => step = .keep ∧ s' = s) ctx s := by
      unfold Ensures
      rw [hpasses p (by simp) ctx s]
      exact ⟨rfl, rfl⟩
    unfold Visitor.leaveStmt
    refine hkeep.bind fun step s' h' => ?_
    obtain ⟨rfl, rfl⟩ := h'
    exact ih fun q hq => hpasses q (by simp [hq])

theorem stmtHeader_of_not_scope (v : Visitor) (ht : t.isScope = false) : v.stmtHeader t = pure t := by
  obtain ⟨pos, kind⟩ := t
  cases kind with
  | functionDef | classDef => cases ht
  | _ => rfl

theorem stmtInside_of_not_scope (v : Visitor) (ht : t.isScope = false) :
    v.stmtInside t = (do return .inl (← v.stmtChildren t)) := by
  obtain ⟨pos, kind⟩ := t
  cases kind with
  | functionDef | classDef => cases ht
  | _ => rfl

/-- A statement that opens no scope has no header, and no pass looks at it before its children are visited. -/
theorem ensures_visitStmt (ht : t.isScope = false) (hbad : Unlocated bad)
    (h : Ensures (v.stmtChildren t >>= v.leaveStmt ctx.stage.passes) bad post ctx s) :
    Ensures (v.visitStmt t) bad post ctx s := by
  refine Ensures.atStmt ?_ hbad
  have hinside : Ensures (v.stmtInside t) bad
      (fun r s' => ∃ new, r = .inl new ∧ Ensures (v.leaveStmt ctx.stage.passes new) bad post ctx s') ctx s := by
    rw [v.stmtInside_of_not_scope ht]
    refine (ensures_bind_iff.mp h).bind fun new s' h' => ?_
    exact .pure ⟨new, rfl, h'⟩
  simp only [ensures_read_bind, v.stmtHeader_of_not_scope ht, pure_bind]
  have henter : Ensures (ctx.stage.passes.forM fun p => p.enterStmt t) bad (fun _ s' => s' = s) ctx s := by
    refine ensures_forM rfl fun p hp s' hs' => ?_
    rw [Pass.enterStmt_of_not_scope ctx.stage ht p hp]
    exact .pure hs'
  refine henter.bind fun _ s' hs' => ?_
  subst hs'
  refine hinside.bind fun r s1 h1 => ?_
  obtain ⟨new, rfl, h1⟩ := h1
  exact h1

/-! ### Visits of definitions -/

/-- What holds of what a definition becomes: another definition, or several statements. -/
def Gives (post : List Stmt → Prop) : Stmt ⊕ List Stmt → Prop
  | .inl new => new.isScope = true ∧ post [new]
  | .inr ts => post ts

theorem ensures_stmtInside {post : Stmt ⊕ List Stmt → State → Prop} (ht : t.isScope = true) (hsame : post (.inl t) s)
    (hfunction : ∀ {pos fn}, ctx.stage.entersScopes = true → t = ⟨pos, .functionDef fn⟩ →
      Ensures (v.function t fn) bad post ctx s)
    (hclass : ∀ {pos cls}, ctx.stage.entersScopes = true → t = ⟨pos, .classDef cls⟩ →
      Ensures (v.classBody t cls) bad (fun new s' => post (.inl new) s') ctx s) :
    Ensures (v.stmtInside t) bad post ctx s := by
  obtain ⟨pos, kind⟩ := t
  unfold stmtInside
  rw [ensures_read_bind]
  cases kind with
  | functionDef fn =>
    dsimp only
    split
    case isTrue henters => exact hfunction henters rfl
    case isFalse => exact .pure hsame
  | classDef cls =>
    dsimp only
    split
    case isTrue henters => exact (hclass henters rfl).bind fun new s' h => .pure h
    case isFalse => exact .pure hsame
  | _ => cases ht

theorem ensures_visitDefinition (hbad : Unlocated bad)
    (h : Ensures (v.stmtHeader t) bad (fun new s1 =>
      Ensures (ctx.stage.passes.forM fun p => p.enterStmt new) bad (fun _ s2 =>
        Ensures (v.stmtInside new) bad (fun r s3 => Gives (post · s3) r) ctx s2) ctx s1) ctx s) :
    Ensures (v.visitStmt t) bad post ctx s := by
  refine Ensures.atStmt ?_ hbad
  rw [ensures_read_bind]
  refine h.bind fun new s1 h1 => h1.bind fun _ s2 h2 => h2.bind fun r s3 h3 => ?_
  cases r with
  | inl new => exact ensures_leaveStmt_of_inert (Stmt.isInert_of_isScope h3.1) h3.2
  | inr ts => exact .pure h3

end Visitor

/-! ### Bodies -/

theorem DeadCode.trimBody_eq_pure {ts} (h : ∀ t ∈ ts.dropLast, t.endsBody = false) :
    DeadCode.trimBody ts = pure ts := by
  induction ts with
  | nil => rfl
  | cons t ts ih =>
    unfold DeadCode.trimBody
    cases ts with
    | nil => simp [DeadCode.trimBody]
    | cons t' ts =>
      have ht : t.endsBody = false := h t (by simp)
      rw [ih fun u hu => h u (by simp [hu])]
      simp [ht]

def Stmt.filled (required : Bool) (body new : List Stmt) : List Stmt :=
  match required && new.isEmpty, body with
  | true, first :: _ => [first.withKind .pass]
  | _, _ => new

variable {post : List Stmt → State → Prop} {required : Bool} {body : List Stmt} {vars : Variables}

/-- A body is the visited statements one after another, unless some are dropped after the end of the body. -/
theorem Visitor.ensures_body (h : Ensures (body.flatMapM v.stmt) bad (fun visited s' =>
      Ensures (DeadCode.trimBody visited) bad (fun new => post (Stmt.filled required body new)) ctx s' ∧
        post (Stmt.filled required body visited) s') ctx s) : Ensures (v.body required body) bad post ctx s := by
  unfold Visitor.body
  refine h.bind fun visited s' h' => ?_
  rw [ensures_read_bind]
  have hfilled : ∀ {new s'}, post (Stmt.filled required body new) s' →
      Ensures (match required && new.isEmpty, body with
        | true, first :: _ => pure [first.withKind .pass]
        | _, _ => pure new) bad post ctx s' := by
    intro new s' hpost
    unfold Stmt.filled at hpost
    split at hpost <;> exact .pure hpost
  split
  · exact h'.1.bind fun new s'' => hfilled
  · exact hfilled h'.2

/-- A body is the visited statements, if none ends it before the last one. -/
theorem Visitor.ensures_body_of_kept
    (h : Ensures (body.flatMapM v.stmt) bad (fun new s' => (∀ t ∈ new.dropLast, t.endsBody = false) ∧
      post (Stmt.filled required body new) s') ctx s) : Ensures (v.body required body) bad post ctx s := by
  refine Visitor.ensures_body (h.imp fun visited s' h' => ⟨?_, h'.2⟩)
  rw [DeadCode.trimBody_eq_pure h'.1]
  exact .pure h'.2

theorem Visitor.ensures_inside {α : Type} {x : Visit α} {kind} {post : α → State → Prop} :
    Ensures (Visitor.inside kind vars x) bad post ctx s ↔
      Ensures x bad (fun a s' => post a { s' with scope := s.scope, known := s.known })
        (ctx.inside s.scope .generic false)
        (s.inside { kind := kind, vars := vars }) := by
  unfold Visitor.inside
  rw [ensures_bind_iff, ensures_inScope]
  rfl

theorem Visitor.ensures_analyzed {r} {post : Option Variables → State → Prop}
    (hr : ∀ cause, r = .error cause → ∃ target line, cause = .complexAssignment target line)
    (hnone : ∀ s', s.Logs s' → post none s')
    (hsome : ∀ vars, r = .ok vars → post (some vars) s) :
    Ensures (Visitor.analyzed r) bad post ctx s := by
  cases r with
  | ok vars => exact .pure (hsome vars rfl)
  | error cause =>
    obtain ⟨target, line, rfl⟩ := hr cause rfl
    unfold Visitor.analyzed
    simp only [ensures_log_bind, ensures_pure]
    exact hnone _ ⟨[_], rfl⟩

theorem Visitor.ensures_functionStage_of_ok {stage} {allowGuards : Bool} {scope fn}
    {post : FunctionDef × Scope → State → Prop} (hvars : Variables.ofBody fn.body fn.params.names = .ok vars)
    (h : Ensures (v.body true fn.body) bad
      (fun body s' => post ({ fn with body := body }, s'.scope) { s' with scope := s.scope, known := s.known })
      (ctx.inside s.scope stage allowGuards) (s.inside { scope with vars := vars, functions := [] })) :
    Ensures (v.functionStage stage allowGuards scope fn) bad post ctx s := by
  unfold Visitor.functionStage
  rw [hvars, ensures_bind_iff, ensures_ofExcept_ok, ensures_bind_iff, ensures_inScope]
  exact h.imp fun body s' h' => .pure h'

theorem Visitor.ensures_ofBody_bind {α : Type} {f : Option Variables → Visit α} {post : α → State → Prop} {params}
    (hnone : ∀ s', s.Logs s' → Ensures (f none) bad post ctx s')
    (hsome : ∀ vars, Variables.ofBody body params = .ok vars → Ensures (f (some vars)) bad post ctx s) :
    Ensures (Visitor.analyzed (Variables.ofBody body params) >>= f) bad post ctx s :=
  ensures_bind_iff.mpr (ensures_analyzed (fun _ h => Variables.cause_of_ofBody h) hnone hsome)

theorem Visitor.ensures_classBody {cls} {post : Stmt → State → Prop} (hnone : ∀ s', s.Logs s' → post t s')
    (hbody : ∀ vars, Ensures (v.body true cls.body) bad (fun body s' =>
      post (t.withKind (.classDef { cls with body := body })) { s' with scope := s.scope, known := s.known })
      (ctx.inside s.scope .generic false) (s.inside { kind := .classBody, vars := vars })) :
    Ensures (v.classBody t cls) bad post ctx s := by
  refine ensures_ofBody_bind (fun s' hs' => .pure (hnone s' hs')) fun vars _ => ?_
  dsimp only
  rw [ensures_bind_iff, ensures_inside]
  exact (hbody vars).imp fun body s' h => .pure h

/-- The stages give versions of a function, and keep what is known of them.  The function becomes one of the versions,
or it is specialized from two of them. -/
theorem Visitor.ensures_function_of_stages {fn} {post : Stmt ⊕ List Stmt → State → Prop}
    {I : FunctionDef → Scope → State → Prop} (hnone : ∀ s', s.Logs s' → post (.inl t) s')
    (hstart : ∀ vars, Variables.ofBody fn.body fn.params.names = .ok vars →
      I fn { kind := .function, vars := vars } s)
    (hstage : ∀ {version scope s'} stage allowGuards, I version scope s' →
      Ensures (v.functionStage stage allowGuards scope version) bad (fun r s'' => I r.1 r.2 s'') ctx s')
    (hone : ∀ {version scope s' s''}, I version scope s' → s'.Logs s'' →
      post (.inl (t.withKind (.functionDef version))) s'')
    (hpair : ∀ {slow scope s' fast scope' s''}, I slow scope s' → I fast scope' s'' →
      Ensures (Specialize.specialize scope' (t.withKind (.functionDef slow)) fast) bad
        (fun ts => post (.inr ts)) ctx s'') :
    Ensures (v.function t fn) bad post ctx s := by
  refine ensures_ofBody_bind (fun s' hs' => .pure (hnone s' hs')) fun vars hvars => ?_
  refine (hstage .restricted false (hstart vars hvars)).bind fun r1 s1 hslow => ?_
  obtain ⟨slow, scope1⟩ := r1
  dsimp only at hslow ⊢
  split
  · exact ensures_log_bind.mpr (.pure (hone hslow ⟨[_], rfl⟩))
  refine (hstage .specialize true hslow).bind fun r2 s2 hfast => ?_
  obtain ⟨fast, scope2⟩ := r2
  dsimp only at hfast ⊢
  split
  · split
    · exact .pure (hone hfast (.refl s2))
    · exact (hpair hslow hfast).bind fun ts s' h => .pure h
  · refine (hstage .restricted true hfast).bind fun r3 s3 hlast => ?_
    exact (hpair hslow hlast).bind fun ts s' h => .pure h

end Speculator
