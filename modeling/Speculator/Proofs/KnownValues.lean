import Speculator.Proofs.ControlFlow
import Speculator.Proofs.Outcome.Modules

/-!
# Known values describe the variables

Visits of simple statements keep what the statements do.  The known values describe the variables at each point
outside of conditional regions: what is recorded there holds after the statement (`Preserves.known`).  Within a
conditional region nothing is known, so that the rewriting holds for all variables; and what is still known at its end
was known before and is not changed in it (`Preserves.shrinks`).  So a branch or a loop leaves what is known valid.

For modules of simple statements this gives that optimizing keeps the executions (`optimize_simple`).
-/

namespace Speculator

open List Visit

variable {ε : Type} {m : Meaning ε} {ctx : Context} {s s' s₁ s₂ : State} {v : Visitor} {t : Stmt}

/-! ### Known values -/

namespace Namespace

def Describes (ns : Namespace) (env : Env) : Prop := ns.conditional = false → ∀ p ∈ ns.values, env p.1 = some p.2

variable {ns : Namespace} {env : Env}

theorem mem_of_get? {id value} (h : ns.get? id = some value) : ns.conditional = false ∧ (id, value) ∈ ns.values := by
  unfold get? at h
  split at h
  · cases h
  · rename_i hcond
    refine ⟨by simpa using hcond, ?_⟩
    obtain ⟨before, after, hvalues, _⟩ := lookup_eq_some_iff.mp h
    simp [hvalues]

theorem set_of_conditional (hunknown : ns.unknown = false) (hcond : ns.conditional = true) (name : Ident)
    (value : Option Value) : ns.set name value = ns.forget name := by
  cases value with
  | none => rfl
  | some v => simp [set, hunknown, hcond]

theorem Describes.forget (h : ns.Describes env) (name : Ident) (value : Option Value) :
    (ns.forget name).Describes (Function.update env name value) := by
  intro hcond p hp
  obtain ⟨hp, hname⟩ := mem_forget.mp hp
  rw [Function.update_of_ne hname]
  exact h hcond p hp

theorem Describes.set (h : ns.Describes env) (hknown : ns.unknown = false) (name : Ident) {value new}
    (hvalue : ∀ v, value = some v → v = new) :
    (ns.set name value).Describes (Function.update env name (some new)) := by
  rcases ns.set_cases name value with ⟨hunknown, -⟩ | ⟨-, hset⟩ | ⟨v, rfl, -, -, hset⟩
  · cases hknown.symm.trans hunknown
  · rw [hset]
    exact h.forget name _
  · rw [hset]
    intro hcond p hp
    rcases mem_cons.mp hp with rfl | hp
    · rw [Function.update_self, hvalue v rfl]
    · exact h.forget name (some new) hcond p hp

end Namespace

/-- What holds of the state of a visit: the known values are constants, and there are no guards. -/
structure State.Tracked (s : State) : Prop where
  unknown : s.known.unknown = false
  constant : ∀ p ∈ s.known.values, p.2.isConstant = true
  unguarded : s.scope.guards.builtinNames = []
  support : s.needsSupport = false

namespace State.Tracked

theorem ready (h : s.Tracked) : Ready .simple s :=
  ⟨fun _ hid => hid.elim, fun id v _ hv => h.constant (id, v) (Namespace.mem_of_get? hv).2⟩

theorem frees (h : s.Tracked) (hs : s.Frees s') : s'.Tracked := by
  obtain ⟨log, vars, rfl⟩ := hs
  exact ⟨h.unknown, h.constant, h.unguarded, h.support⟩

theorem forgetting (h : s.Tracked) {ns} (hunknown : ns.unknown = s.known.unknown)
    (hvalues : ∀ p ∈ ns.values, p ∈ s.known.values) : { s with known := ns }.Tracked :=
  ⟨hunknown.trans h.unknown, fun p hp => h.constant p (hvalues p hp), h.unguarded, h.support⟩

theorem grows (h : s.Tracked) (hs : Grows .simple ctx s s') : s'.Tracked := by
  refine ⟨?_, ?_, ?_, hs.support.trans h.support⟩
  · rw [hs.known]
    exact h.unknown
  · rw [hs.known]
    exact h.constant
  · rw [hs.unguarded fun _ _ hid => hid]
    exact h.unguarded

end State.Tracked

/-! ### What visits keep -/

/-- What a visit makes of a body in the state `s`, with the state `s'` at the end. -/
structure Preserves (m : Meaning ε) (body : List Stmt) (s : State) (new : List Stmt) (s' : State) : Prop where
  simple : ∀ t ∈ new, t.Simple
  run : ∀ fuel env, s.known.Describes env → Stmt.runList m fuel new env = Stmt.runList m fuel body env
  known : ∀ fuel env, s.known.Describes env → (Stmt.runList m fuel body env).signal = .done →
    s'.known.Describes (Stmt.runList m fuel body env).env
  shrinks : s.known.conditional = true →
    ∀ p ∈ s'.known.values, p ∈ s.known.values ∧ ∀ fuel, Keeps p.1 (Stmt.runList m fuel body)
  tracked : s'.Tracked
  conditional : s'.known.conditional = s.known.conditional

namespace Preserves

variable {body new : List Stmt}

theorem nil (hs : s.Tracked) : Preserves m [] s [] s := by
  refine ⟨by simp, fun _ _ _ => rfl, fun fuel env h _ => ?_, fun _ p hp => ⟨hp, fun fuel env => ?_⟩, hs, rfl⟩
  · rw [Stmt.runList_nil]
    exact h
  · rw [Stmt.runList_nil]

theorem cons {rest ts us} (h : Preserves m [t] s ts s₁) (h' : Preserves m rest s₁ us s₂) :
    Preserves m (t :: rest) s (ts ++ us) s₂ := by
  have hfirst : ∀ fuel env, s.known.Describes env → (t.run m fuel env).signal = .done →
      s₁.known.Describes (t.run m fuel env).env := by
    intro fuel env henv hdone
    have hknown := h.known fuel env henv
    rw [Stmt.runList_singleton] at hknown
    exact hknown hdone
  refine ⟨fun u hu => ?_, fun fuel env henv => ?_, fun fuel env henv hdone => ?_, fun hcond p hp => ?_, h'.tracked,
    h'.conditional.trans h.conditional⟩
  · rcases mem_append.mp hu with hu | hu
    · exact h.simple u hu
    · exact h'.simple u hu
  · rw [Stmt.runList_append, h.run fuel env henv, Stmt.runList_singleton, Stmt.runList_cons]
    exact Execution.next_congr fun hdone => h'.run fuel _ (hfirst fuel env henv hdone)
  · rw [Stmt.runList_cons] at hdone ⊢
    by_cases hdone1 : (t.run m fuel env).signal = .done
    · rw [Execution.next_of_done hdone1] at hdone ⊢
      exact h'.known fuel _ (hfirst fuel env henv hdone1) hdone
    · rw [Execution.next_of_not_done hdone1] at hdone
      exact (hdone1 hdone).elim
  · obtain ⟨hp1, hrest⟩ := h'.shrinks (h.conditional.trans hcond) p hp
    obtain ⟨hp, hkeeps⟩ := h.shrinks hcond p hp1
    refine ⟨hp, fun fuel => ?_⟩
    have hkeeps := hkeeps fuel
    rw [Stmt.runList_singleton] at hkeeps
    rw [Stmt.runList]
    exact hkeeps.next (hrest fuel)

theorem congr {new'} (h : Preserves m body s new s') (hs : s'.Frees s₁) (hsimple : ∀ t ∈ new', t.Simple)
    (hrun : ∀ fuel, Stmt.runList m fuel new' = Stmt.runList m fuel new) : Preserves m body s new' s₁ := by
  have htracked := h.tracked.frees hs
  obtain ⟨log, vars, rfl⟩ := hs
  exact ⟨hsimple, fun fuel env henv => by rw [hrun, h.run fuel env henv], h.known, h.shrinks, htracked, h.conditional⟩

theorem of_shrinks (hsimple : ∀ t ∈ new, t.Simple)
    (hrun : ∀ fuel env, s.known.Describes env → Stmt.runList m fuel new env = Stmt.runList m fuel body env)
    (hshrinks : ∀ p ∈ s'.known.values, p ∈ s.known.values ∧ ∀ fuel, Keeps p.1 (Stmt.runList m fuel body))
    (htracked : s'.Tracked) (hcond : s'.known.conditional = s.known.conditional) : Preserves m body s new s' := by
  refine ⟨hsimple, hrun, fun fuel env henv _ hcond' p hp => ?_, fun _ => hshrinks, htracked, hcond⟩
  obtain ⟨hp, hkeeps⟩ := hshrinks p hp
  rw [hkeeps fuel env]
  exact henv (hcond.symm.trans hcond') p hp

theorem single_of_shrinks {new} (hsimple : new.Simple)
    (hrun : ∀ fuel env, s.known.Describes env → new.run m fuel env = t.run m fuel env)
    (hshrinks : ∀ p ∈ s'.known.values, p ∈ s.known.values ∧ ∀ fuel, Keeps p.1 (t.run m fuel)) (htracked : s'.Tracked)
    (hcond : s'.known.conditional = s.known.conditional) : Preserves m [t] s [new] s' := by
  refine .of_shrinks (by simpa using hsimple) (fun fuel env henv => ?_) (fun p hp => ?_) htracked hcond
  · rw [Stmt.runList_singleton, Stmt.runList_singleton, hrun fuel env henv]
  · simp only [Stmt.runList_singleton]
    exact hshrinks p hp

theorem filled (h : Preserves m body s new s') (required : Bool) :
    Preserves m body s (Stmt.filled required body new) s' := by
  unfold Stmt.filled
  split
  · rename_i first rest hempty
    rw [isEmpty_iff.mp (Bool.and_eq_true_iff.mp hempty).2] at h
    refine h.congr (.refl s') (by simpa using .pass) fun fuel => ?_
    rw [Stmt.runList_singleton, Stmt.withKind, Stmt.run, Stmt.runList_nil]
  · exact h

theorem again {last} (h : Preserves m body s new s₁) (hforgot : ∀ p ∈ s₁.known.values, p ∈ s.known.values)
    (h' : Preserves m new s₁ last s₂) : Preserves m body s last s₂ := by
  have hdescribes : ∀ env, s.known.Describes env → s₁.known.Describes env :=
    fun env henv hcond p hp => henv (h.conditional.symm.trans hcond) p (hforgot p hp)
  refine ⟨h'.simple, fun fuel env henv => ?_, fun fuel env henv hdone => ?_, fun hcond p hp => ?_, h'.tracked,
    h'.conditional.trans h.conditional⟩
  · rw [h'.run fuel env (hdescribes env henv), h.run fuel env henv]
  · rw [← h.run fuel env henv] at hdone ⊢
    exact h'.known fuel env (hdescribes env henv) hdone
  · exact h.shrinks hcond p (h'.shrinks (h.conditional.trans hcond) p hp).1

end Preserves

/-- What a visit makes of an expression. -/
structure Evaluates (m : Meaning ε) (e : Expr) (s : State) (new : Expr) (s' : State) : Prop where
  plain : new.Plain .simple
  eval : ∀ env, s.known.Describes env → new.eval m env = e.eval m env
  known : s'.known = s.known
  tracked : s'.Tracked

/-- What a visit makes of a block that is a conditional region. -/
structure Region (m : Meaning ε) (body : List Stmt) (s : State) (new : List Stmt) (s' : State) : Prop where
  simple : ∀ t ∈ new, t.Simple
  run : ∀ fuel, Stmt.runList m fuel new = Stmt.runList m fuel body
  shrinks : ∀ p ∈ s'.known.values, p ∈ s.known.values ∧ ∀ fuel, Keeps p.1 (Stmt.runList m fuel body)
  tracked : s'.Tracked
  conditional : s'.known.conditional = s.known.conditional

theorem Region.shrinks_both {body body' orelse orelse' s3} (hbody : Region m body s₁ body' s₂)
    (horelse : Region m orelse s₂ orelse' s3) :
    ∀ p ∈ s3.known.values, p ∈ s₁.known.values ∧
      ∀ fuel, Keeps p.1 (Stmt.runList m fuel body) ∧ Keeps p.1 (Stmt.runList m fuel orelse) := by
  intro p hp
  obtain ⟨hp, hkeeps'⟩ := horelse.shrinks p hp
  obtain ⟨hp, hkeeps⟩ := hbody.shrinks p hp
  exact ⟨hp, fun fuel => ⟨hkeeps fuel, hkeeps' fuel⟩⟩

/-! ### What is recorded of a statement -/

namespace Tracking

/-- What the children of a statement become, before its effect is recorded.  A loop over values only makes the visit
forget. -/
def Records (m : Meaning ε) (ctx : Context) (t : Stmt) (s : State) (new : Stmt) (s₁ : State) : Prop :=
  Ensures (Tracking.leaveStmt new) TooDeep (fun _ s₂ => Preserves m [t] s [new] s₂ ∧
    (new.isFor = true → ∀ p ∈ s₂.known.values, p ∈ s.known.values)) ctx s₁

section Names

variable {pos at' : Position} {id : Ident} {e new : Expr}

theorem records_expr (h : Evaluates m e s new s₁) : Records m ctx ⟨pos, .expr e⟩ s ⟨pos, .expr new⟩ s₁ := by
  refine .pure ⟨.single_of_shrinks (.expr h.plain) (fun fuel env henv => ?_) (fun p hp => ?_) h.tracked
    (by rw [h.known]), fun hfor => by cases hfor⟩
  · rw [Stmt.run_expr, Stmt.run_expr, h.eval env henv]
  · rw [h.known] at hp
    refine ⟨hp, fun fuel => ?_⟩
    rw [Stmt.run]
    exact .given fun _ _ => rfl

theorem records_assign (h : Evaluates m e s new s₁) :
    Records m ctx ⟨pos, .assign [⟨at', .name id⟩] e⟩ s ⟨pos, .assign [⟨at', .name id⟩] new⟩ s₁ := by
  have hvalue : ∀ env, s.known.Describes env → ∀ v w, e.eval m env = .ok v → new.constant? = some w → w = v := by
    intro env henv v w hv hw
    have heval := Expr.eval_of_constant m env hw
    rw [h.eval env henv, hv] at heval
    exact (Except.ok.inj heval).symm
  have hunknown : s.known.unknown = false := by
    rw [← h.known]
    exact h.tracked.unknown
  change Ensures (Visit.modifyKnown (fun ns => ns.set id new.constant?) >>= fun _ => pure ()) _ _ ctx s₁
  refine ensures_modifyKnown_bind.mpr (.pure ⟨⟨by simpa using .assign h.plain, fun fuel env henv => ?_,
    fun fuel env henv hdone => ?_, fun hcond p hp => ?_, ⟨?_, fun p hp => ?_, h.tracked.unguarded, h.tracked.support⟩,
    ?_⟩, fun hfor => by cases hfor⟩)
  · rw [Stmt.runList_singleton, Stmt.runList_singleton, Stmt.run_assign, Stmt.run_assign, h.eval env henv]
  · rw [Stmt.runList_singleton, Stmt.run_assign] at hdone ⊢
    cases hv : e.eval m env with
    | error exception =>
      rw [hv] at hdone
      cases hdone
    | ok v =>
      rw [h.known]
      exact henv.set hunknown id fun w hw => hvalue env henv v w hv hw
  -- in a conditional region the variable is forgotten, and the others are not changed
  · rw [h.known, Namespace.set_of_conditional hunknown hcond] at hp
    obtain ⟨hp, hid⟩ := Namespace.mem_forget.mp hp
    refine ⟨hp, fun fuel => ?_⟩
    rw [Stmt.runList_singleton, Stmt.run]
    exact .given fun v env => Function.update_of_ne hid _ env
  · rw [Namespace.unknown_set]
    exact h.tracked.unknown
  · rcases Namespace.mem_of_mem_set hp with hp | ⟨w, hw, rfl⟩
    · exact h.tracked.constant p hp
    · exact Expr.isConstant_of_constant new h.plain hw
  · rw [Namespace.conditional_set, h.known]

theorem preserves_forget {new} (hs : s₁.Tracked) (hknown : s₁.known = s.known) (hsimple : new.Simple)
    (hrun : ∀ fuel env, s.known.Describes env → new.run m fuel env = t.run m fuel env)
    (hkeeps : ∀ fuel name, name ≠ id → Keeps name (t.run m fuel)) :
    Preserves m [t] s [new] { s₁ with known := s₁.known.forget id } := by
  refine .single_of_shrinks hsimple hrun (fun p hp => ?_) ?_ ?_
  · rw [hknown] at hp
    obtain ⟨hp, hid⟩ := Namespace.mem_forget.mp hp
    exact ⟨hp, fun fuel => hkeeps fuel p.1 hid⟩
  · exact hs.forgetting rfl fun p hp => (Namespace.mem_forget.mp hp).1
  · rw [hknown]
    rfl

theorem records_augAssign {op} (h : Evaluates m e s new s₁) :
    Records m ctx ⟨pos, .augAssign ⟨at', .name id⟩ op e⟩ s ⟨pos, .augAssign ⟨at', .name id⟩ op new⟩ s₁ := by
  change Ensures (Visit.modifyKnown (fun ns => ns.forget id)) _ _ ctx s₁
  refine ensures_modifyKnown.mpr ⟨preserves_forget h.tracked h.known (.augAssign h.plain) (fun fuel env henv => ?_)
    fun fuel name hname => ?_, fun hfor => by cases hfor⟩
  · simp only [Stmt.run_augAssign, h.eval env henv]
  · rw [Stmt.run]
    exact .given fun _ => .given fun _ => .given fun _ env => Function.update_of_ne hname _ env

theorem records_delete (hs : s.Tracked) :
    Records m ctx ⟨pos, .delete [⟨at', .name id⟩]⟩ s ⟨pos, .delete [⟨at', .name id⟩]⟩ s := by
  change Ensures (Visit.modifyKnown (fun ns => ns.forget id) >>= fun _ => pure ()) _ _ ctx s
  refine ensures_modifyKnown_bind.mpr (.pure ⟨preserves_forget hs rfl .delete (fun _ _ _ => rfl)
    fun fuel name hname => ?_, fun hfor => by cases hfor⟩)
  rw [Stmt.run]
  exact .given fun _ env => Function.update_of_ne hname _ env

theorem records_idle (hs : s.Tracked) (ht : t.Simple) (hkeeps : ∀ fuel name, Keeps name (t.run m fuel))
    (hidle : Tracking.leaveStmt t = pure ()) (hfor : t.isFor = false) : Records m ctx t s t s := by
  unfold Records
  rw [hidle]
  refine .pure ⟨.single_of_shrinks ht (fun _ _ _ => rfl) (fun p hp => ⟨hp, fun fuel => hkeeps fuel p.1⟩) hs
    rfl, fun h => ?_⟩
  rw [hfor] at h
  cases h

end Names

section Blocks

variable {pos : Position} {test test' : Expr} {body body' orelse orelse' : List Stmt} {s3 : State}

theorem records_cond (htest : Evaluates m test s test' s₁) (hbody : Region m body s₁ body' s₂)
    (horelse : Region m orelse s₂ orelse' s3) :
    Records m ctx ⟨pos, .cond test body orelse⟩ s ⟨pos, .cond test' body' orelse'⟩ s3 := by
  refine .pure ⟨.single_of_shrinks (.cond htest.plain hbody.simple horelse.simple) (fun fuel env henv => ?_)
    (fun p hp => ?_) horelse.tracked ?_, fun hfor => by cases hfor⟩
  · rw [Stmt.run_cond, Stmt.run_cond, htest.eval env henv, hbody.run, horelse.run]
  · obtain ⟨hp, hkeeps⟩ := Region.shrinks_both hbody horelse p hp
    rw [htest.known] at hp
    refine ⟨hp, fun fuel => ?_⟩
    rw [Stmt.run]
    refine .given fun v env => ?_
    split
    · exact (hkeeps fuel).1 env
    · exact (hkeeps fuel).2 env
  · rw [horelse.conditional, hbody.conditional, htest.known]

theorem records_while (htest : Evaluates m test { s with known := s.known.enterCond } test' s₁)
    (hbody : Region m body s₁ body' s₂) (horelse : Region m orelse s₂ orelse' s3) :
    Records m ctx ⟨pos, .whileLoop test body orelse⟩ s ⟨pos, .whileLoop test' body' orelse'⟩
      { s3 with known := s3.known.leaveCond s.known.conditional } := by
  have heval : test'.eval m = test.eval m := funext fun env => htest.eval env fun hcond => by cases hcond
  have hvalues : s₁.known.values = s.known.values := by rw [htest.known]; rfl
  refine .pure ⟨.single_of_shrinks (.whileLoop htest.plain hbody.simple horelse.simple)
    (fun fuel env _ => ?_) (fun p hp => ?_) (horelse.tracked.forgetting rfl fun _ hp => hp) rfl,
    fun hfor => by cases hfor⟩
  · rw [Stmt.run, Stmt.run, heval, hbody.run, horelse.run]
  · obtain ⟨hp, hkeeps⟩ := Region.shrinks_both hbody horelse p hp
    rw [hvalues] at hp
    refine ⟨hp, fun fuel => ?_⟩
    rw [Stmt.run]
    exact (hkeeps fuel).1.whileTrue (hkeeps fuel).2 fuel

theorem records_for {at' id iter iter'} (hiter : Evaluates m iter s iter' s₁)
    (hbody : Region m body { s₁ with known := s₁.known.enterCond } body' s₂)
    (horelse : Region m orelse s₂ orelse' s3) :
    Records m ctx ⟨pos, .forLoop ⟨at', .name id⟩ iter body orelse false⟩ s
      ⟨pos, .forLoop ⟨at', .name id⟩ iter' body' orelse' false⟩
      { s3 with known := s3.known.leaveCond s₁.known.conditional } := by
  have hshrinks : ∀ p ∈ (s3.known.forget id).values, p ∈ s.known.values ∧ p.1 ≠ id ∧
      ∀ fuel, Keeps p.1 (Stmt.runList m fuel body) ∧ Keeps p.1 (Stmt.runList m fuel orelse) := by
    intro p hp
    obtain ⟨hp, hid⟩ := Namespace.mem_forget.mp hp
    obtain ⟨hp, hkeeps⟩ := Region.shrinks_both hbody horelse p hp
    have hvalues : s₁.known.values = s.known.values := by rw [hiter.known]
    exact ⟨hvalues ▸ hp, hid, hkeeps⟩
  change Ensures (Visit.modifyKnown (fun ns => ns.forget id)) _ _ ctx _
  refine ensures_modifyKnown.mpr ⟨.single_of_shrinks (.forLoop hiter.plain hbody.simple horelse.simple)
    (fun fuel env henv => ?_) (fun p hp => ?_) ?_ ?_, fun _ p hp => (hshrinks p hp).1⟩
  · rw [Stmt.run_forLoop, Stmt.run_forLoop, hiter.eval env henv, hbody.run, horelse.run]
  · obtain ⟨hp, hid, hkeeps⟩ := hshrinks p hp
    refine ⟨hp, fun fuel => ?_⟩
    rw [Stmt.run]
    exact .given fun items => (hkeeps fuel).1.forItems hid (hkeeps fuel).2 items
  · exact horelse.tracked.forgetting rfl fun p hp => (Namespace.mem_forget.mp hp).1
  · change s₁.known.conditional = _
    rw [hiter.known]

end Blocks

end Tracking

/-! ### Visits -/

/-- The visits keep what expressions and statements do. -/
structure Visitor.Faithful (v : Visitor) (m : Meaning ε) (ctx : Context) : Prop where
  expr : ∀ e s, e.Plain .simple → s.Tracked → Ensures (v.expr e) TooDeep (Evaluates m e s) ctx s
  stmt : ∀ t s, t.Simple → s.Tracked → Ensures (v.stmt t) TooDeep (Preserves m [t] s) ctx s

namespace Visitor.Faithful

variable (hv : v.Faithful m ctx)

include hv

theorem body {required : Bool} {body} (hbody : ∀ t ∈ body, t.Simple) (hs : s.Tracked) :
    Ensures (v.body required body) TooDeep (Preserves m body s) ctx s := by
  have hvisited : Ensures (body.flatMapM v.stmt) TooDeep (Preserves m body s) ctx s := by
    induction body generalizing s with
    | nil => exact .pure (.nil hs)
    | cons t body ih =>
      rw [flatMapM_cons]
      refine (hv.stmt t s (hbody t (by simp)) hs).bind fun ts s₁ h1 => ?_
      refine (ih (fun u hu => hbody u (by simp [hu])) h1.tracked).bind fun us s₂ h2 => ?_
      exact .pure (h1.cons h2)
  refine Visitor.ensures_body_of_kept (hvisited.imp fun new s' h => ⟨fun t ht => ?_, h.filled required⟩)
  exact (h.simple t ((dropLast_sublist new).subset ht)).endsBody

variable {required : Bool} {body : List Stmt}

theorem region (hbody : ∀ t ∈ body, t.Simple) (hs : s.Tracked) (hcond : s.known.conditional = true) :
    Ensures (v.body required body) TooDeep (Region m body s) ctx s := by
  refine (hv.body hbody hs).imp fun new s' h =>
    ⟨h.simple, fun fuel => funext fun env => ?_, h.shrinks hcond, h.tracked,
    h.conditional⟩
  exact h.run fuel env fun hcond' => by rw [hcond] at hcond'; cases hcond'

theorem conditionally (hbody : ∀ t ∈ body, t.Simple) (hs : s.Tracked) :
    Ensures (Visit.conditionally (v.body required body)) TooDeep (Region m body s) ctx s := by
  rw [ensures_conditionally]
  have henter : { s with known := s.known.enterCond }.Tracked := hs.forgetting rfl fun _ hp => hp
  refine (hv.region hbody henter rfl).imp fun new s' h => ⟨h.simple, h.run, h.shrinks, ?_, rfl⟩
  exact h.tracked.forgetting rfl fun _ hp => hp

theorem leaveStmt {ps} (hps : ∀ p ∈ ps, p.KeepsExecution m) {new s0}
    (h : Preserves m [t] s0 [new] s) (hfor : new.isFor = true → ∀ p ∈ s.known.values, p ∈ s0.known.values) :
    Ensures (v.leaveStmt ps new) TooDeep (Preserves m [t] s0) ctx s := by
  induction ps generalizing new s with
  | nil => exact .pure h
  | cons p ps ih =>
    have hps' : ∀ q ∈ ps, q.KeepsExecution m := fun q hq => hps q (by simp [hq])
    rw [Visitor.leaveStmt]
    refine (hps p (by simp) new (h.simple new (by simp))).bind fun step s₁ hstep => ?_
    obtain ⟨hmeans, hfrees⟩ := hstep
    have hknown : s₁.known = s.known := by
      obtain ⟨log, vars, rfl⟩ := hfrees
      rfl
    have hreplaced : ∀ {body}, Stmt.Replaces m body new → Preserves m [t] s0 body s₁ := fun hbody =>
      h.congr hfrees hbody.simple fun fuel => by rw [hbody.run, Stmt.runList_singleton]
    rw [← hknown] at hfor
    cases step with
    | keep => exact ih hps' (h.congr hfrees h.simple fun _ => rfl) hfor
    | replace last =>
      dsimp only
      split
      · exact ih hps' (hreplaced hmeans.1) fun hlast => hfor (hmeans.2 hlast)
      · exact .pure (hreplaced hmeans.1)
    | splice body => exact .pure (hreplaced hmeans)
    | revisit body =>
      have h1 := hreplaced hmeans.1
      exact (hv.body hmeans.1.simple h1.tracked).imp fun last s₂ h2 => h1.again (hfor hmeans.2) h2

theorem stmtChildren (ht : t.Simple) (hs : s.Tracked) :
    Ensures (v.stmtChildren t) TooDeep (Tracking.Records m ctx t s) ctx s := by
  have hregion : { s with known := s.known.enterCond }.Tracked := hs.forgetting rfl fun _ hp => hp
  cases ht with
  | expr he => exact (hv.expr _ s he hs).bind fun e' s₁ h => .pure (Tracking.records_expr h)
  | assign he => exact (hv.expr _ s he hs).bind fun e' s₁ h => .pure (Tracking.records_assign h)
  | augAssign he => exact (hv.expr _ s he hs).bind fun e' s₁ h => .pure (Tracking.records_augAssign h)
  | delete => exact .pure (Tracking.records_delete hs)
  | cond htest hbody horelse =>
    refine (hv.expr _ s htest hs).bind fun test' s₁ h1 => ?_
    refine (hv.conditionally hbody h1.tracked).bind fun body' s₂ h2 => ?_
    refine (hv.conditionally horelse h2.tracked).bind fun orelse' s3 h3 => ?_
    exact .pure (Tracking.records_cond h1 h2 h3)
  | whileLoop htest hbody horelse =>
    refine ensures_conditionally.mpr ?_
    refine (hv.expr _ _ htest hregion).bind fun test' s₁ h1 => ?_
    have hcond : s₁.known.conditional = true := by rw [h1.known]; rfl
    refine (hv.region hbody h1.tracked hcond).bind fun body' s₂ h2 => ?_
    refine (hv.region horelse h2.tracked (h2.conditional.trans hcond)).bind fun orelse' s3 h3 => ?_
    exact .pure (Tracking.records_while h1 h2 h3)
  | forLoop hiter hbody horelse =>
    refine (hv.expr _ s hiter hs).bind fun iter' s₁ h1 => ?_
    refine ensures_conditionally.mpr ?_
    have hregion1 : { s₁ with known := s₁.known.enterCond }.Tracked := h1.tracked.forgetting rfl fun _ hp => hp
    refine (hv.region hbody hregion1 rfl).bind fun body' s₂ h2 => ?_
    refine (hv.region horelse h2.tracked h2.conditional).bind fun orelse' s3 h3 => ?_
    exact .pure (Tracking.records_for h1 h2 h3)
  | pass | brk | cont =>
    refine .pure (Tracking.records_idle hs (by constructor) (fun fuel name => ?_) rfl rfl)
    rw [Stmt.run]
    exact fun _ => rfl

theorem visitStmt (hstage : ctx.stage = .generic) (ht : t.Simple) (hs : s.Tracked) :
    Ensures (v.visitStmt t) TooDeep (Preserves m [t] s) ctx s := by
  refine Visitor.ensures_visitStmt ht.isScope (fun _ => TooDeep.locate) ?_
  refine (hv.stmtChildren ht hs).bind fun new s₁ h1 => ?_
  rw [hstage]
  change Ensures ((do Tracking.leaveStmt new; return StmtStep.keep) >>= _) _ _ ctx s₁
  rw [bind_assoc]
  refine Ensures.bind h1 fun _ s₂ h2 => ?_
  exact hv.leaveStmt Pass.keepsExecution_passes h2.1 h2.2

end Visitor.Faithful

/-- The visits of simple statements keep what they do, where `None` is itself and calls are not inlined. -/
theorem visitor_faithful (hid : m.identical .none .none = .ok true) (hstage : ctx.stage = .generic)
    (hinlining : ctx.config.inlining = false) (depth : Nat) : (visitor depth).Faithful m ctx := by
  have hsuits : Suits .simple ctx := by
    refine ⟨fun _ => hinlining, fun _ h => ?_, fun _ hcall => hcall.elim, fun hdebug => hdebug rfl,
      fun _ _ _ _ hcall => hcall.elim⟩
    rw [hstage] at h
    cases h
  have hexpr : ∀ depth e s, e.Plain .simple → s.Tracked →
      Ensures ((visitor depth).expr e) TooDeep (Evaluates m e s) ctx s := by
    intro depth e s he hs
    refine (visitor_rewrites hsuits (Nat.le_refl 1) depth e s he hs.ready).mono
      (fun _ h => (h.tooDeep fun _ hcall => hcall).2) fun new s' h => ?_
    obtain ⟨hrewrites, hgrows⟩ := h
    refine ⟨hrewrites.plain, fun env henv => (hrewrites.alike m env ⟨hid, fun hcalls => ?_, fun id v _ hv => ?_⟩).1,
      hgrows.known, hs.grows hgrows⟩
    · exact hcalls.elim fun _ hcall => hcall.elim
    · rw [hgrows.known] at hv
      obtain ⟨hcond, hmem⟩ := Namespace.mem_of_get? hv
      exact henv hcond _ hmem
  induction depth with
  | zero => exact ⟨fun _ _ _ _ => rfl, fun _ _ _ _ => rfl⟩
  | succ depth ih => exact ⟨hexpr (depth + 1), fun t s ht hs => ih.visitStmt hstage ht hs⟩

/-! ### Modules -/

variable {config : Config} {mod : Module}

theorem Config.overriddenBy_simple (hmod : ∀ t ∈ mod.body, t.Simple) :
    config.overriddenBy mod = config := by
  have hoverrides : ∀ t ∈ mod.body, t.overrides = [] := by
    intro t ht
    cases hmod t ht with
    | assign he =>
      unfold Stmt.overrides
      dsimp only
      split
      · split
        · rename_i hdict
          have hregular := Expr.regular_of_literal _ he hdict
          rw [Value.Regular] at hregular
          cases hregular.1
        · rfl
      · rfl
    | _ => rfl
  rw [Config.overriddenBy, flatMap_eq_nil_iff.mpr hoverrides]
  rfl

theorem Module.ensures_visit_simple (n : Nat) (hctx : ctx.Initial config) (hs : s.Initial)
    (hid : m.identical .none .none = .ok true) (hinlining : config.inlining = false)
    (hmod : ∀ t ∈ mod.body, t.Simple) :
    Ensures (mod.visit (visitor n)) TooDeep (fun new _ => ∀ fuel env,
      Stmt.runList m fuel new.body env = Stmt.runList m fuel mod.body env) ctx s := by
  have hstart : ∀ vars, { s with scope := { s.scope with vars := vars } }.Tracked := by
    intro vars
    refine ⟨?_, ?_, ?_, hs.support⟩
    · rw [hs.known]
    · rw [hs.known]
      simp
    · rw [hs.scope]
      rfl
  have hv := visitor_faithful hid hctx.stage (by rw [hctx.config]; exact hinlining)
  refine Module.ensures_visit_of_body (fun _ _ _ _ => rfl) fun vars => ?_
  refine ((hv _).body hmod (hstart vars)).imp fun body s' h fuel env => ?_
  rw [if_neg (by simp [h.tracked.support])]
  -- nothing is known at the start, which describes all variables
  refine h.run fuel env fun _ p hp => ?_
  rw [hs.known] at hp
  cases hp

/-- Optimizing a module of simple statements gives a module that does the same, wherever `None` is itself: it shows
the same values and ends with the same variables or the same exception, and it diverges if the original does.  Or
machine integers overrun in folding an operation, and there is no result. -/
theorem optimize_simple (config : Config) (filename : String) (source : Option String) {mod : Module}
    (hinlining : config.inlining = false) (hmod : ∀ t ∈ mod.body, t.Simple) :
    let report := optimize config filename source mod
    report.overrun = true ∨ ∃ new, report.result = .ok new ∧
      ∀ {ε : Type} (m : Meaning ε), m.identical .none .none = .ok true → ∀ env,
        (∀ fuel, Stmt.runList m fuel new.body env = Stmt.runList m fuel mod.body env) ∧
        (∀ x, Stmt.Finishes m new.body env x ↔ Stmt.Finishes m mod.body env x) ∧
        (Stmt.Diverges m new.body env ↔ Stmt.Diverges m mod.body env) := by
  intro report
  have hoff : (config.overriddenBy mod).inlining = false := by
    rw [Config.overriddenBy_simple hmod]
    exact hinlining
  -- whatever the meaning is, a visit can only be too deep
  let m : Meaning Fault := ⟨id, fun _ => .typeError, fun _ _ => .error .typeError, fun _ _ => .ok true⟩
  obtain ⟨new, _, hrun, _⟩ := optimize_ok_of_tooDeep filename source hoff fun n ctx s hctx hs =>
    Module.ensures_visit_simple (m := m) n hctx hs rfl hoff hmod
  refine .inr ⟨new, hrun, fun m hid env => ?_⟩
  have hreport := Report.of_ensures (rfl : _ = report) fun ctx s hctx hs =>
    Module.ensures_visit_simple _ hctx hs hid hoff hmod
  rw [hrun] at hreport
  obtain ⟨_, hsame, _⟩ := hreport
  refine ⟨fun fuel => hsame fuel env, fun x => ?_, ?_⟩
  · simp only [Stmt.Finishes, hsame]
  · simp only [Stmt.Diverges, hsame]

set_option maxRecDepth 100000 in
/-- `x = 0`, a loop that adds `1` and `2` to `x`, and `x`: the loop is unrolled. -/
theorem optimize_simple_unrolled :
    let x : Expr := ⟨{}, .name "x"⟩
    let mod : Module := ⟨[⟨{}, .assign [x] ⟨{}, .const (.int 0)⟩⟩,
      ⟨{}, .forLoop ⟨{}, .name "i"⟩ ⟨{}, .list [⟨{}, .const (.int 1)⟩, ⟨{}, .const (.int 2)⟩]⟩
        [⟨{}, .augAssign x .add ⟨{}, .name "i"⟩⟩] [] false⟩, ⟨{}, .expr x⟩]⟩
    (optimize {} "m.py" none mod).overrun = false ∧
    ∃ new, (optimize {} "m.py" none mod).result = .ok new ∧ new.body.length = 6 ∧
      ∀ {ε : Type} (m : Meaning ε), m.identical .none .none = .ok true → ∀ env,
        ∀ x, Stmt.Finishes m new.body env x ↔ Stmt.Finishes m mod.body env x := by
  intro x mod
  have hrun : (optimize {} "m.py" none mod).overrun = false ∧
      (optimize {} "m.py" none mod).result.toOption.map (·.body.length) = some 6 := by decide +kernel
  obtain ⟨hoverrun, hlength⟩ := hrun
  have hmod : ∀ t ∈ mod.body, t.Simple := by
    simp only [mod, List.mem_cons, List.not_mem_nil, or_false, forall_eq_or_imp, forall_eq]
    refine ⟨.assign ?_, .forLoop ?_ ?_ (by simp), .expr ?_⟩
    · simp [Expr.Plain, Value.isConstant]
    · simp [Expr.Plain, Expr.AllPlain, Value.isConstant]
    · intro t ht
      rw [List.mem_singleton.mp ht]
      exact .augAssign (by simp [Expr.Plain, Fragment.simple])
    · simp [x, Expr.Plain, Fragment.simple]
  rcases optimize_simple {} "m.py" none rfl hmod with htrue | ⟨new, hrun, hsame⟩
  · rw [hoverrun] at htrue
    cases htrue
  rw [hrun] at hlength
  exact ⟨hoverrun, new, hrun, Option.some.inj hlength, fun m hid env => (hsame m hid env).2.1⟩

set_option maxRecDepth 100000 in
/-- The statement `None is None` becomes `True`, which does something else where values cannot be compared for
identity. -/
theorem optimize_simple_identity :
    let t : Stmt := ⟨{}, .expr ⟨{}, .compare ⟨{}, .const .none⟩ [.is] [⟨{}, .const .none⟩]⟩⟩
    let m : Meaning Fault := ⟨id, fun _ => .typeError, fun _ _ => .error .typeError, Value.compare .is⟩
    ∃ new, (optimize {} "m.py" none ⟨[t]⟩).result = .ok new ∧
      Stmt.runList m 0 new.body (fun _ => none) = ⟨[.bool true], fun _ => none, .done⟩ ∧
      Stmt.runList m 0 [t] (fun _ => none) = ⟨[], fun _ => none, .raised .typeError⟩ := by
  intro t m
  refine ⟨⟨[⟨{}, .expr ⟨{}, .const (.bool true)⟩⟩]⟩, rfl, ?_, ?_⟩
  · rw [Stmt.runList_singleton, Stmt.run_expr, Expr.eval, Execution.given_ok]
  · rw [Stmt.runList_singleton, Stmt.run_expr]
    simp only [Expr.eval]
    rfl

end Speculator
