import Speculator.Proofs.Outcome.Modules

/-!
# Closed expressions

A closed expression is made of constants, displays, operators, comparisons, items and slices, conditional expressions
and junctions.  It reads no variable and calls no function.  Visiting it does not fail, and what it becomes evaluates
to the same value or raises the same exception, unless machine integers overrun in folding one of its operations
(`eval_of_visited`); this may be an operation that is never evaluated (`eval_of_visited_overrun`).
-/

namespace Speculator

open List Visit

variable {e : Expr} {ctx : Context} {s : State}

/-- Nothing is read and nothing is called. -/
def Fragment.closed : Fragment := { reads := fun _ => False, calls := fun _ => False, sets := true }

def Expr.IsClosed (e : Expr) : Prop := e.Plain .closed

/-- Two expressions have the same value or raise the same exception, wherever `None` is itself. -/
def Expr.SameValue (e new : Expr) : Prop :=
  ∀ {ε : Type} (m : Meaning ε) (env : Env), m.identical .none .none = .ok true → new.eval m env = e.eval m env

theorem Expr.IsClosed.ensures_visit (he : e.IsClosed) {h n : Nat} (hh : 1 ≤ h) (hd : e.depth h ≤ n) :
    Ensures ((visitor n).expr e) (fun _ => False) (fun new s' => e.SameValue new ∧ Grows .closed ctx s s') ctx s := by
  have hsuits : Suits .closed ctx :=
    ⟨fun h => h.elim fun _ h => h.elim, fun h => h.elim fun _ h => h.elim, fun _ h => h, id, fun _ _ _ _ h => h.elim⟩
  have hready : Ready .closed s := ⟨fun _ h => h.elim, fun _ _ h => h.elim⟩
  refine (visitor_rewrites hsuits hh n e s he hready).mono (fun _ hstops => ?_) fun new s' hnew => ⟨?_, hnew.2⟩
  · have hdeep := (hstops.tooDeep fun _ h => h).1
    omega
  · intro ε m env hid
    exact (hnew.1.alike m env ⟨hid, fun h => h.elim fun _ h => h.elim, fun _ _ h => h.elim⟩).1

/-- The visit of a module that consists of a closed expression. -/
theorem Module.ensures_closed (he : e.IsClosed) (pos : Position) {n : Nat}
    (hn : Module.depthBound ⟨[⟨pos, .expr e⟩]⟩ ctx.config.limits ≤ n) (hs : s.Initial) :
    Ensures (Module.visit (visitor n) ⟨[⟨pos, .expr e⟩]⟩) (fun _ => False)
      (fun m _ => ∃ new, e.SameValue new ∧ m = ⟨[⟨pos, .expr new⟩]⟩) ctx s := by
  refine Module.ensures_visit_of_body (fun _ _ => ⟨e, fun _ _ _ => rfl, rfl⟩) fun vars => ?_
  have hbound := Nat.le_trans (Module.depth_le_bound ⟨[⟨pos, .expr e⟩]⟩ ctx.config.limits) hn
  rw [Stmt.depthList_le_iff] at hbound
  have hdepth := hbound _ mem_cons_self
  rw [Stmt.depth, StmtKind.depth] at hdepth
  obtain ⟨n, rfl⟩ : ∃ k, n = k + 1 := Nat.exists_eq_add_one_of_ne_zero (by omega)
  have hstmt : ∀ s', Ensures ((visitor (n + 1)).stmt ⟨pos, .expr e⟩) (fun _ => False) (fun news s'' =>
      ∃ new, e.SameValue new ∧ news = [⟨pos, .expr new⟩] ∧ s''.needsSupport = s'.needsSupport) ctx s' := by
    intro s'
    refine Visitor.ensures_visitStmt rfl (fun _ _ _ h => h) ?_
    have hchildren : Ensures ((visitor n).stmtChildren ⟨pos, .expr e⟩) (fun _ => False) (fun t s'' =>
        ∃ new, e.SameValue new ∧ t = ⟨pos, .expr new⟩ ∧ s''.needsSupport = s'.needsSupport) ctx s' := by
      have hheight : 1 ≤ ctx.config.limits.literalDepth := by simp [Limits.literalDepth]
      exact (he.ensures_visit hheight (by omega)).bind fun new s1 h1 => .pure ⟨new, h1.1, rfl, h1.2.support⟩
    refine hchildren.bind fun t s1 h1 => ?_
    obtain ⟨new, hnew, rfl, hsupport⟩ := h1
    exact Visitor.ensures_leaveStmt_of_inert rfl ⟨new, hnew, rfl, hsupport⟩
  refine Visitor.ensures_body_of_kept ?_
  rw [flatMapM_cons]
  refine (hstmt _).bind fun news s1 h1 => .pure ⟨?_, ?_⟩
  · obtain ⟨new, _, rfl, _⟩ := h1
    exact fun t ht => by cases ht
  · obtain ⟨new, hnew, rfl, hsupport⟩ := h1
    refine ⟨new, hnew, ?_⟩
    rw [hsupport, hs.support]
    rfl

/-- Visiting a closed expression gives an expression that evaluates to the same value or raises the same exception, in
every context and state in which the depth of the visits suffices for it; and so does optimizing a module that
consists of the expression.  Or machine integers overrun on the way, and there is no result. -/
theorem eval_of_visited (e : Expr) (he : e.IsClosed) :
    (∀ n ctx s, e.depth 1 ≤ n → Ensures ((visitor n).expr e) (fun _ => False)
      (fun new s' => .overrun ∈ s'.log ∨ e.SameValue new) ctx s) ∧
    ∀ config filename source pos,
      let report := optimize config filename source ⟨[⟨pos, .expr e⟩]⟩
      report.overrun = true ∨ ∃ new, report.result = .ok ⟨[⟨pos, .expr new⟩]⟩ ∧ e.SameValue new := by
  refine ⟨fun n ctx s hd => (he.ensures_visit (Nat.le_refl 1) hd).imp fun new _ h => .inr h.1,
    fun config filename source pos => ?_⟩
  intro report
  have hreport := Report.of_ensures (rfl : _ = report) fun ctx s hctx hs =>
    Module.ensures_closed he pos (by rw [hctx.config]) hs
  cases hresult : report.result with
  | ok m =>
    rw [hresult] at hreport
    obtain ⟨_, ⟨new, hnew, rfl⟩, _⟩ := hreport
    exact .inr ⟨new, rfl, hnew⟩
  | error failure =>
    rw [hresult] at hreport
    exact hreport.elim

/-- Negated membership, an item of a dictionary and a reversed slice in a conditional expression, with a division by
zero in a display. -/
theorem eval_of_visited_conditional :
    let int (n : Int) : Expr := ⟨{}, .const (.int n)⟩
    let text : Expr := ⟨{}, .subscript ⟨{}, .dict [int 5] [⟨{}, .const (.str "abc")⟩]⟩ (int 5)⟩
    let reversed : Expr := ⟨{}, .subscript text ⟨{}, .slice none none (some ⟨{}, .unaryOp .minus (int 1)⟩)⟩⟩
    let test : Expr := ⟨{}, .unaryOp .not ⟨{}, .compare ⟨{}, .binOp (int 4) .add (int 4)⟩ [.isIn]
      [⟨{}, .list [int 8, int 9]⟩]⟩⟩
    let e : Expr := ⟨{}, .ifExp ⟨{}, .boolOp .or [test, reversed]⟩
      ⟨{}, .set [reversed, ⟨{}, .binOp (int 1) .div (int 0)⟩]⟩ test⟩
    e.IsClosed ∧ (optimize {} "m.py" none ⟨[⟨{}, .expr e⟩]⟩).overrun = false ∧
      ∃ new, (optimize {} "m.py" none ⟨[⟨{}, .expr e⟩]⟩).result = .ok ⟨[⟨{}, .expr new⟩]⟩ ∧ e.SameValue new := by
  intro int text reversed test e
  have he : e.IsClosed := by
    simp [e, test, reversed, text, int, Expr.IsClosed, Expr.Plain, Expr.AllPlain, Expr.PlainOption, Value.isConstant,
      Fragment.closed]
  have hoverrun : (optimize {} "m.py" none ⟨[⟨{}, .expr e⟩]⟩).overrun = false := by decide +kernel
  rcases (eval_of_visited e he).2 {} "m.py" none {} with htrue | hsame
  · rw [hoverrun] at htrue
    cases htrue
  · exact ⟨he, hoverrun, hsame⟩

/-- `1 if True else 'abc'[1:3:2**127-1]` has the value `1`, but folding the other branch overruns. -/
theorem eval_of_visited_overrun :
    let int (n : Int) : Expr := ⟨{}, .const (.int n)⟩
    let walk : Expr := ⟨{}, .subscript ⟨{}, .const (.str "abc")⟩
      ⟨{}, .slice (some (int 1)) (some (int 3)) (some (int 170141183460469231731687303715884105727))⟩⟩
    let e : Expr := ⟨{}, .ifExp ⟨{}, .const (.bool true)⟩ (int 1) walk⟩
    e.IsClosed ∧ (∀ {ε : Type} (m : Meaning ε) env, e.eval m env = .ok (.int 1)) ∧
      (optimize {} "m.py" none ⟨[⟨{}, .expr e⟩]⟩).overrun = true := by
  intro int walk e
  refine ⟨?_, fun m env => ?_, by decide +kernel⟩
  · simp [e, walk, int, Expr.IsClosed, Expr.Plain, Expr.PlainOption, Value.isConstant]
  · simp only [e, int, Expr.eval]
    rfl

end Speculator
