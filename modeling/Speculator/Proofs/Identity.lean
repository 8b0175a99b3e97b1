import Speculator.Proofs.DeadCode

/-!
# Nothing turned on

If no option is turned on, the visits give back what they are given: expressions, and statements as well, since no
pass changes them and no body is trimmed.  Functions are analyzed several times, but always with the same body.  So
optimizing a module gives the module itself (`optimize_disableAll`).
-/

namespace Speculator

open Visit

/-- No option is turned on. -/
structure Config.Off (c : Config) : Prop extends c.OnlyRemoves where
  removal : c.removeDeadCode = false

namespace Visit

variable {α : Type}

def Still : Visit α → α → Prop := Returns Config.Off

theorem Idle.still {x : Visit α} {a : α} (hx : Idle x a) : Still x a := fun ctx s hc => hx ctx s hc.toOnlyRemoves

end Visit

theorem Stage.still_leaveStmt (stage : Stage) : ∀ p ∈ stage.passes, ∀ t, Still (p.leaveStmt t) .keep := by
  intro p hp t
  rcases stage.idle_leaveStmt p hp with rfl | hidle
  · intro ctx s hc
    change Ensures (DeadCode.leaveStmt t) _ _ ctx s
    unfold DeadCode.leaveStmt
    rw [ensures_config_bind, hc.removal]
    exact .pure ⟨rfl, .refl s⟩
  · exact (hidle t).still

namespace Visitor

variable {v : Visitor} (hv : v.Idle) (hstmt : ∀ t, Visit.Still (v.stmt t) [t])
include hstmt

theorem still_body (required : Bool) (ts : List Stmt) : Visit.Still (v.body required ts) ts := by
  have hvisited : Visit.Still (ts.flatMapM v.stmt) ts := by
    induction ts with
    | nil => exact .pure []
    | cons t ts ih =>
      rw [List.flatMapM_cons]
      exact .bind (hstmt t) (.bind ih (.pure _))
  intro ctx s hc
  unfold Visitor.body
  refine (hvisited ctx s hc).bind fun visited s1 h1 => ?_
  obtain ⟨rfl, hquiet⟩ := h1
  rw [ensures_read_bind, hc.removal, Bool.and_false]
  -- a body without statements is not filled either
  cases visited with
  | nil => cases required <;> exact .pure ⟨rfl, hquiet⟩
  | cons =>
    simp only [Bool.false_eq_true, if_false, pure_bind, List.isEmpty_cons, Bool.and_false]
    exact .pure ⟨rfl, hquiet⟩

include hv in
theorem still_stmtChildren (t : Stmt) : Visit.Still (v.stmtChildren t) t := by
  intro ctx s hc
  have hidle := hc.toOnlyRemoves
  refine ((logic_ensures _).stmtChildren
    (fun _ hs => ⟨hs.guards, hs.copied, hs.support, hs.overrun⟩)
    (fun _ _ hs => ⟨hs.guards, hs.copied, hs.support, hs.overrun⟩)
    (fun e _ => hv.visits ctx hidle s e)
    (fun e _ s1 hs1 => (hv.target e ctx s1 hidle).imp fun _ _ h => ⟨h.1, hs1.trans h.2⟩)
    (fun required ts _ s1 hs1 => (still_body hstmt required ts ctx s1 hc).imp fun _ _ h => ⟨h.1, hs1.trans h.2⟩)
    (.refl s)).imp fun new s' h => ⟨h.1.eq, h.2⟩

omit hstmt in
theorem still_leaveStmt {ps} (hps : ∀ p ∈ ps, ∀ t, Visit.Still (p.leaveStmt t) .keep) (t : Stmt) :
    Visit.Still (v.leaveStmt ps t) [t] := by
  induction ps with
  | nil => exact .pure [t]
  | cons p ps ih => exact .bind (hps p (by simp) t) (ih fun q hq => hps q (by simp [hq]))

theorem still_remakes : v.Remakes Config.Off fun ts news => news = ts where
  removes h := h.toOnlyRemoves
  refl _ := rfl
  trans h h' := h'.trans h
  analyzable h ha := h ▸ ha
  body ctx hc ts s := still_body hstmt true ts ctx s hc

include hv in
theorem still_visitStmt (t : Stmt) : Visit.Still (v.visitStmt t) [t] := by
  intro ctx s hc
  cases ht : t.isScope with
  | false =>
    refine Visitor.ensures_visitStmt ht (fun _ _ _ => TooDeep.locate _ _) ?_
    exact Visit.Returns.bind (still_stmtChildren hv hstmt t) (still_leaveStmt ctx.stage.still_leaveStmt t) ctx s hc
  | true =>
    refine ((still_remakes hstmt).definition hc hv ht).imp fun news s' h => ?_
    obtain ⟨⟨new, rfl, hnew⟩, hquiet⟩ := h
    refine ⟨congrArg ([·]) ?_, hquiet⟩
    cases hnew with
    | @function _ fn _ h =>
      cases fn
      rw [h]
    | @classDef _ cls _ h =>
      cases cls
      rw [h]

end Visitor

/-- With nothing turned on, the visits give back the statements. -/
theorem visitor_still (n : Nat) : ∀ t, Visit.Still ((visitor n).stmt t) [t] := by
  induction n with
  | zero => exact fun t ctx s _ => rfl
  | succ n ih => exact Visitor.still_visitStmt (visitor_idle n) ih

theorem Module.ensures_still (m : Module) (n : Nat) {ctx s} (hc : ctx.config.Off) (hs : s.Initial) :
    Ensures (m.visit (visitor n)) TooDeep (fun new s' => new = m ∧ s.Quiet s') ctx s := by
  refine Module.ensures_visit_of_body (fun _ hlogs => ⟨rfl, .of_tracks hlogs.tracks⟩) fun vars => ?_
  refine (Visitor.still_body (visitor_still n) false m.body ctx _ hc).imp fun body s' h => ?_
  obtain ⟨rfl, hquiet⟩ := h
  have hsupport : s'.needsSupport = false := hquiet.support.trans hs.support
  rw [hsupport]
  exact ⟨rfl, hquiet.guards, hquiet.copied, hquiet.support, hquiet.overrun⟩

theorem Config.off_disableAll (c : Config) : c.disableAll.Off := ⟨⟨rfl, rfl, rfl, rfl, rfl, rfl, rfl, rfl⟩, rfl⟩

/-- With every optimization turned off, and unless the module itself sets options, optimizing succeeds and gives the
module itself. -/
theorem optimize_disableAll (config : Config) (filename : String) (source : Option String) (m : Module)
    (hm : ∀ t ∈ m.body, t.overrides = []) :
    (optimize config.disableAll filename source m).result = .ok m ∧
      (optimize config.disableAll filename source m).overrun = false := by
  have hmod : config.disableAll.overriddenBy m = config.disableAll := by
    rw [Config.overriddenBy, List.flatMap_eq_nil_iff.mpr hm]
    rfl
  have hoff := config.off_disableAll
  obtain ⟨_, s', hresult, ⟨rfl, s, hs, hquiet⟩, hoverrun⟩ :=
    optimize_ok_of_tooDeep filename source (by rw [hmod]; exact hoff.inlining) fun n ctx s hctx hs =>
      (m.ensures_still n (by rw [hctx.config, hmod]; exact hoff) hs).imp fun _ _ h =>
        (⟨h.1, s, hs, h.2⟩ : _ ∧ ∃ s : State, s.Initial ∧ s.Quiet _)
  exact ⟨hresult, hquiet.overrun_eq_false hs hoverrun⟩

/-- An unreachable store into an attribute of a literal, which cannot be analyzed, in a function inside of a class,
and a loop over nothing after a text and an assignment of options that are no dictionary. -/
theorem optimize_disableAll_unanalyzable :
    let int (n : Int) : Expr := ⟨⟨2, 3⟩, .const (.int n)⟩
    let store : Stmt := ⟨⟨4, 9⟩, .assign [⟨{}, .attr ⟨{}, .attr (int 5) "y"⟩ "z"⟩] ⟨{}, .binOp (int 1) .add (int 2)⟩⟩
    let f : FunctionDef := ⟨"f", .empty, [⟨⟨3, 9⟩, .ret none⟩, store], [⟨{}, .name "d"⟩], true⟩
    let m : Module := ⟨[⟨{}, .expr ⟨{}, .const (.str "text")⟩⟩, ⟨{}, .assign [⟨{}, .name configName⟩] (int 0)⟩,
      ⟨⟨2, 1⟩, .classDef ⟨"A", [], [⟨none, int 7⟩], [⟨⟨3, 5⟩, .functionDef f⟩], []⟩⟩,
      ⟨⟨9, 1⟩, .forLoop ⟨{}, .name "x"⟩ ⟨{}, .tuple []⟩ [⟨{}, .pass⟩] [⟨{}, .cont⟩] false⟩]⟩
    (∀ t ∈ m.body, t.overrides = []) ∧ (optimize (Config.disableAll {}) "m.py" none m).result = .ok m ∧
      (optimize (Config.disableAll {}) "m.py" none m).overrun = false := by
  intro int store f m
  have hm : ∀ t ∈ m.body, t.overrides = [] := by
    simp [m, Stmt.overrides, int, Expr.literal?, ExprKind.scalar?]
  exact ⟨hm, optimize_disableAll {} "m.py" none m hm⟩

end Speculator
