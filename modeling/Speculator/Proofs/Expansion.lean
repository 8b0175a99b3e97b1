import Speculator.Proofs.Outcome.Expressions
import Speculator.Proofs.Rewriting

/-!
# Finite expansion

An inlined call is visited once more, and the calls in it may be inlined in turn.  `Settles` says that this comes to
an end: all visits that may go deep enough have one and the same outcome, which is not a lack of depth.

The names for which inlining is known to end (`Inlining.Ends`) are found along the calls between functions
(`wellFounded_brings`).  `visitor_settles` puts this together for first-order functions: there the visit of every
expression comes to an end.  The check for recursion does not see calls of parameters, and `visitor_self_application`
is a visit without end.
-/

namespace Speculator

open List

variable {ctx : Context} {s s' : State} {e : Expr} {h d : Nat}

namespace Visit

variable {α β : Type}

/-- The visits that may go deep enough all end alike, and not for lack of depth. -/
def Settles (x : Nat → Visit α) (post : α → State → Prop) (ctx : Context) (s : State) : Prop :=
  ∃ depth end', (∀ n, depth ≤ n → x n ctx s = end' ctx s) ∧
    Ensures end' (fun failure => failure.cause ≠ .depthExceeded) post ctx s

namespace Settles

variable {x y : Nat → Visit α} {post post' : α → State → Prop}

theorem of_run (end' : Visit α) (depth : Nat) (hrun : ∀ n, depth ≤ n → x n ctx s = end' ctx s)
    (h : Ensures end' (fun failure => failure.cause ≠ .depthExceeded) post ctx s) : Settles x post ctx s :=
  ⟨depth, end', hrun, h⟩

theorem of_ensures {x : Visit α} (h : Ensures x (fun failure => failure.cause ≠ .depthExceeded) post ctx s) :
    Settles (fun _ => x) post ctx s := ⟨0, x, fun _ _ => rfl, h⟩

theorem pure {a : α} (h : post a s) : Settles (fun _ => Pure.pure a) post ctx s := of_ensures h

theorem imp (h : Settles x post ctx s) (hpost : ∀ a s', post a s' → post' a s') : Settles x post' ctx s := by
  obtain ⟨depth, end', hrun, hensures⟩ := h
  exact ⟨depth, end', hrun, hensures.imp hpost⟩

theorem congr (h : Settles x post ctx s) (hsame : ∀ n, y n ctx s = x n ctx s) : Settles y post ctx s := by
  obtain ⟨depth, end', hrun, hensures⟩ := h
  exact ⟨depth, end', fun n hn => (hsame n).trans (hrun n hn), hensures⟩

theorem also (h : Settles x post ctx s)
    (h' : ∀ n, Ensures (x n) (fun _ => True) post' ctx s) : Settles x (fun a s' => post a s' ∧ post' a s') ctx s := by
  obtain ⟨depth, end', hrun, hensures⟩ := h
  refine ⟨depth, end', hrun, ?_⟩
  have hpost' := h' depth
  unfold Ensures at hensures hpost' ⊢
  rw [hrun depth (Nat.le_refl _)] at hpost'
  cases hend : end' ctx s with
  | ok a s' =>
    rw [hend] at hensures hpost'
    exact ⟨hensures, hpost'⟩
  | error failure s' =>
    rw [hend] at hensures
    exact hensures

theorem bind {f : Nat → α → Visit β} {post' : β → State → Prop} (hx : Settles x post ctx s)
    (hf : ∀ a s', post a s' → Settles (fun n => f n a) post' ctx s') :
    Settles (fun n => x n >>= f n) post' ctx s := by
  obtain ⟨depth, end', hrun, hensures⟩ := hx
  cases hend : end' ctx s with
  | ok a s1 =>
    obtain ⟨depth', last, hrun', hensures'⟩ := hf a s1 (hensures.of_ok hend)
    refine of_run (fun ctx _ => last ctx s1) (max depth depth') (fun n hn => ?_) hensures'
    rw [run_bind, hrun n (by omega), hend]
    exact hrun' n (by omega)
  | error failure s1 =>
    refine of_run (fun _ _ => .error failure s1) depth (fun n hn => ?_) (hensures.of_error hend)
    rw [run_bind, hrun n hn, hend]

theorem read_bind {f : Nat → Context → Visit α} (h : Settles (fun n => f n ctx) post ctx s) :
    Settles (fun n => read >>= f n) post ctx s :=
  h.congr fun _ => rfl

theorem atExpr {e} (h : Settles x post ctx s) : Settles (fun n => Visit.atExpr e (x n)) post ctx s := by
  obtain ⟨depth, end', hrun, hensures⟩ := h
  have hcause : ∀ (failure : Failure) (location node : String), failure.cause ≠ .depthExceeded →
      (failure.locate location node).cause ≠ .depthExceeded := by
    intro failure location node h
    rwa [failure.cause_locate]
  refine of_run (Visit.atExpr e end') depth (fun n hn => ?_) (hensures.atExpr hcause)
  unfold Visit.atExpr mapFailure
  rw [hrun n hn]

theorem inScope {scope stage} {allowGuards : Bool} {post : α × Scope → State → Prop}
    (h : Settles x (fun a s' => post (a, s'.scope) { s' with scope := s.scope, known := s.known })
      (ctx.inside s.scope stage allowGuards) (s.inside scope)) :
    Settles (fun n => Visit.inScope scope stage allowGuards (x n)) post ctx s := by
  obtain ⟨depth, end', hrun, hensures⟩ := h
  refine of_run (Visit.inScope scope stage allowGuards end') depth (fun n hn => ?_) (ensures_inScope.mpr hensures)
  rw [run_inScope, run_inScope, hrun n hn]

theorem logic : Visit.Logic fun x post ctx s => Settles x post ctx s where
  pure := .pure
  bind := .bind
  ofEnsures h := .of_ensures (h.mono (fun _ h => h.elim) fun _ _ h => h)
  inScope := .inScope

end Settles

end Visit

open Visit

def Expr.Refers (e new : Expr) : Prop := ∀ id, new.name? = some id → e.name? = some id ∨ e.isCall = true

/-- The visits of an expression settle, from each state in which the variables are as in `s`. -/
def Settled (ctx : Context) (s : State) (e : Expr) : Prop :=
  ∀ s', s.Frame s' → Settles (fun n => (visitor n).expr e) (fun new s'' => e.Refers new ∧ s.Frame s'') ctx s'

/-- What the visits of its children make of an expression. -/
structure Expr.Rebuilt (e new : Expr) : Prop where
  name : new.name? = e.name?
  call : ∀ func args keywords, new.kind = .call func args keywords →
    ∃ func₀ args₀ keywords₀, e.kind = .call func₀ args₀ keywords₀ ∧ func₀.Refers func

variable {new : Expr}

theorem Expr.Refers.of_name_eq_none (h : new.name? = none) : e.Refers new := by
  intro id hid
  rw [h] at hid
  cases hid

section

theorem Expr.Rebuilds.name?_eq {R : Expr → Expr → Prop} (h : e.Rebuilds R new) : new.name? = e.name? := by
  cases h <;> rfl

theorem Expr.Rebuilds.rebuilt (h : e.Rebuilds Expr.Refers new) : e.Rebuilt new := by
  refine ⟨h.name?_eq, fun func args keywords hkind => ?_⟩
  cases h with
  | call hfunc =>
    cases hkind
    exact ⟨_, _, _, rfl, hfunc⟩
  | _ => cases hkind

theorem settles_children (he : e.isScope = false) (h : ∀ c ∈ e.children, Settled ctx s c) (hs : s.Frame s') :
    Settles (fun n => (visitor n).exprChildren e) (fun new s'' => e.Rebuilt new ∧ s.Frame s'') ctx s' :=
  (Settles.logic.exprChildren he h hs).imp fun _ _ h1 => ⟨h1.1.rebuilt, h1.2⟩

end

/-! ### Passes that ask for no further visit -/

def Expr.isInert (e : Expr) : Bool :=
  match e.kind with
  | .name _ | .call .. => false
  | _ => true

theorem Expr.name?_of_isInert (h : e.isInert = true) : e.name? = none := by
  obtain ⟨pos, kind⟩ := e
  cases kind with
  | name => cases h
  | _ => rfl

theorem Expr.isCall_of_isInert (h : e.isInert = true) : e.isCall = false := by
  obtain ⟨pos, kind⟩ := e
  cases kind with
  | call => cases h
  | _ => rfl

theorem Expr.calls_of_isInert {func args keywords} {p : Prop}
    (h : e.isInert = true) (hkind : e.kind = .call func args keywords) : p := by
  rw [Expr.isInert, hkind] at h
  cases h

theorem Expr.Refers.name?_eq_none (h : e.Refers new) (he : e.isInert = true) : new.name? = none := by
  cases hnew : new.name? with
  | none => rfl
  | some id =>
    rcases h id hnew with hname | hcall
    · rw [Expr.name?_of_isInert he] at hname
      cases hname
    · rw [Expr.isCall_of_isInert he] at hcall
      cases hcall

theorem Limits.isInert_literal? {l : Limits} {v : Value} {pos : Position} (h : l.literal? v pos = some new) :
    new.isInert = true := by
  cases Limits.eq_toExpr_of_literal? h
  cases v with
  | tuple | frozenSet =>
    rw [Value.toExpr]
    split <;> rfl
  | _ => rfl

def ExprStep.IsPlain : ExprStep → Prop
  | .keep => True
  | .replace new => new.isInert = true
  | .revisit _ => False

def Pass.Plain (p : Pass) : Prop :=
  ∀ e ctx s, Ensures (p.leaveExpr e) (fun failure => failure.cause ≠ .depthExceeded)
    (fun step _ => step.IsPlain) ctx s

theorem Folding.Folded.isInert {limits} (h : Folded limits e new) : new.isInert = true := by
  cases h with
  | negated | searched => rfl
  | _ => exact Limits.isInert_literal? ‹limits.literal? _ _ = some new›

namespace Pass

theorem Leaving.plain {p : Pass} (h : p.Leaving) : p.Plain := by
  intro e ctx s
  refine (h e ctx s).mono (fun failure hf => ?_) fun step s' hstep => ?_
  · cases hf <;> exact fun hcause => by cases hcause
  · cases hstep with
    | keep => trivial
    | debug => rfl
    | folded hnew => exact hnew.isInert
    | known _ _ hnew | method _ hnew | builtin _ _ _ hnew => exact Limits.isInert_literal? hnew

theorem plain_placeholder : Pass.placeholder.Plain := fun _ _ _ =>
  Placeholder.ensures_leaveExpr.mono (fun _ h => h.elim) fun step _ h => by rw [h.1]; trivial

theorem split_passes (stage : Stage) : ∃ before after, stage.passes = before ++ Pass.inlining :: after ∧
    (∀ p ∈ before, p.Plain) ∧ ∀ p ∈ after, p.Plain := by
  cases stage with
  | specialize =>
    refine ⟨[Pass.pureBuiltin, Pass.rangeToTuple], [Pass.placeholder], rfl, ?_, ?_⟩
    · simp only [forall_mem_cons, not_mem_nil, false_implies, implies_true, and_true]
      exact ⟨PureCall.leaving_pureBuiltin.plain, (leaving_of_stmts rfl).plain⟩
    · simpa using plain_placeholder
  | generic | restricted =>
    refine ⟨[Pass.tracking, Pass.debugConstant, Pass.propagation, Pass.folding, Pass.pureMethod,
      Pass.constantIterable,
      Pass.unrolling, Pass.deadCode], [], rfl, ?_, by simp⟩
    simp only [forall_mem_cons, not_mem_nil, false_implies, implies_true, and_true]
    exact ⟨(leaving_of_stmts rfl).plain, Propagation.leaving_debugConstant.plain,
      Propagation.leaving_propagation.plain,
      Folding.leaving_folding.plain, PureCall.leaving_pureMethod.plain, (leaving_of_stmts rfl).plain,
      (leaving_of_stmts rfl).plain, (leaving_of_stmts rfl).plain⟩

end Pass

/-! ### Inlined calls -/

namespace Inlining

theorem ensures_revisit (e : Expr) (ctx : Context) (s : State) :
    Ensures (leaveExpr e) (fun failure => failure.cause ≠ .depthExceeded) (fun step _ => match step with
      | .keep => True
      | .replace _ => False
      | .revisit new => ∃ pos id args keywords guard?, e.kind = .call ⟨pos, .name id⟩ args keywords ∧
        inlined? (s.scope :: ctx.enclosing) ctx.allowGuards e id args keywords = some (new, guard?)) ctx s := by
  refine ensures_leaveExpr.mono (fun _ h => h.elim) fun step s' h => ?_
  cases h with
  | keep => trivial
  | inlined _ hnew => exact ⟨_, _, _, _, _, rfl, hnew⟩

theorem inlined?_congr {scope scope'} (hkind : scope'.kind = scope.kind) (hvars : scope'.vars = scope.vars)
    (hfunctions : scope'.functions = scope.functions) (enclosing : List Scope) :
    inlined? (scope' :: enclosing) = inlined? (scope :: enclosing) := by
  have hbelow : Scope.bindsBelowModule (scope' :: enclosing) = Scope.bindsBelowModule (scope :: enclosing) := by
    funext name
    simp only [Scope.bindsBelowModule, takeWhile_cons, hkind]
    cases scope.kind != .module with
    | true => simp only [if_true, any_cons, hvars]
    | false => rfl
  have hbinds : Scope.moduleBinds (scope' :: enclosing) = Scope.moduleBinds (scope :: enclosing) := by
    funext name
    cases enclosing with
    | nil => simp [Scope.moduleBinds, Scope.moduleOf?, hvars]
    | cons => rfl
  have hglobal : Scope.isModuleGlobal (scope' :: enclosing) = Scope.isModuleGlobal (scope :: enclosing) := by
    funext name
    unfold Scope.isModuleGlobal
    rw [hbinds]
    simp only [Scope.findsInModule, hkind, hvars]
  have hmodule : moduleCallee? (scope' :: enclosing) = moduleCallee? (scope :: enclosing) := by
    funext id
    unfold moduleCallee?
    rw [hbelow, hglobal]
    cases enclosing with
    | nil => simp [Scope.moduleOf?, hvars, hfunctions]
    | cons => rfl
  have honce : bindsOnce scope' = bindsOnce scope := by
    funext id
    simp only [bindsOnce, hkind, hvars]
  have hcallee : callee? (scope' :: enclosing) = callee? (scope :: enclosing) := by
    funext allowGuards id
    unfold callee?
    dsimp only
    rw [hfunctions, hkind, hmodule, honce]
  have hcaptures : captures (scope' :: enclosing) = captures (scope :: enclosing) := by
    funext table e
    unfold captures
    rw [hbelow]
  funext allowGuards e id args keywords
  unfold inlined?
  rw [hcallee, hcaptures]

/-- The visits of inlined calls of a name settle. -/
def Ends (ctx : Context) (s : State) (id : Ident) : Prop :=
  ∀ e args keywords new guard?,
    inlined? (s.scope :: ctx.enclosing) ctx.allowGuards e id args keywords = some (new, guard?) → Settled ctx s new

theorem ends_of_functions_eq_nil (hfunctions : s.scope.functions = [])
    (hkind : s.scope.kind ≠ .function) (id : Ident) :
    Ends ctx s id := by
  intro e args keywords new guard? h
  have hnone : callee? (s.scope :: ctx.enclosing) ctx.allowGuards id = none := by
    have hkind' : (s.scope.kind == .function) = false := by simpa using hkind
    simp only [callee?, hfunctions, lookup_nil, hkind', Bool.false_and, Bool.false_eq_true, if_false]
  rw [inlined?, hnone] at h
  cases h

end Inlining

/-! ### Leaving an expression -/

section

variable {ps : List Pass}

theorem Pass.Plain.settles_leave {p} (hp : p.Plain) (hsteady : p.Steady)
    (hrest : ∀ (new : Expr) {s' : State}, new = e ∨ new.isInert = true → s.Frame s' →
      Settles (fun n => (visitor n).leaveExpr ps new) (fun last s'' => new.Refers last ∧ s.Frame s'') ctx s')
    (hs : s.Frame s') :
    Settles (fun n => (visitor n).leaveExpr (p :: ps) e) (fun new s'' => e.Refers new ∧ s.Frame s'') ctx s' := by
  have hstep : Settles (fun _ => p.leaveExpr e) (fun step _ => step.IsPlain) ctx s' := .of_ensures (hp e ctx s')
  refine (hstep.also fun _ => (hsteady.leave e).ensures_frame).bind fun step s1 h1 => ?_
  have hs1 : s.Frame s1 := hs.trans h1.2
  cases step with
  | keep => exact hrest e (.inl rfl) hs1
  | replace new =>
    dsimp only
    split
    · exact (hrest new (.inr h1.1) hs1).imp fun _ _ h2 => ⟨.of_name_eq_none (h2.1.name?_eq_none h1.1), h2.2⟩
    · exact .pure ⟨.of_name_eq_none (Expr.name?_of_isInert h1.1), hs1⟩
  | revisit new => exact h1.1.elim

theorem settles_leave_plain (hps : ∀ p ∈ ps, p.Plain) (hsteady : ∀ p ∈ ps, p.Steady) (e : Expr) (hs : s.Frame s') :
    Settles (fun n => (visitor n).leaveExpr ps e) (fun new s'' => e.Refers new ∧ s.Frame s'') ctx s' := by
  induction ps generalizing e s' with
  | nil => exact .pure ⟨fun _ h => .inl h, hs⟩
  | cons p ps ih =>
    refine (hps p (by simp)).settles_leave (hsteady p (by simp)) (fun new s' _ => ?_) hs
    exact ih (fun q hq => hps q (by simp [hq])) (fun q hq => hsteady q (by simp [hq])) new

theorem settles_leave {before after} (hbefore : ∀ p ∈ before, p.Plain) (hafter : ∀ p ∈ after, p.Plain)
    (hsteady : ∀ p ∈ before ++ Pass.inlining :: after, p.Steady)
    (hcall : ∀ func args keywords id, e.kind = .call func args keywords → func.name? = some id →
      Inlining.Ends ctx s id)
    (hs : s.Frame s') :
    Settles (fun n => (visitor n).leaveExpr (before ++ Pass.inlining :: after) e)
      (fun new s'' => e.Refers new ∧ s.Frame s'') ctx s' := by
  induction before generalizing e s' with
  | nil =>
    have hlast : ∀ (e : Expr) {s' : State}, s.Frame s' → Settles (fun n => (visitor n).leaveExpr after e)
        (fun new s'' => e.Refers new ∧ s.Frame s'') ctx s' :=
      fun e _ => settles_leave_plain hafter (fun q hq => hsteady q (by simp [hq])) e
    have hinlining : Settles (fun _ => Inlining.leaveExpr e) _ ctx s' :=
      .of_ensures (Inlining.ensures_revisit e ctx s')
    have hframe := hinlining.also fun _ => (Steady.closed.inlining e).ensures_frame
    refine Settles.bind (x := fun _ => Pass.inlining.leaveExpr e) hframe fun step s1 h1 => ?_
    cases step with
    | keep => exact hlast e (hs.trans h1.2)
    | replace new => exact h1.1.elim
    | revisit new =>
      obtain ⟨⟨pos, id, args, keywords, guard?, hkind, hinlined⟩, hframe1⟩ := h1
      rw [Inlining.inlined?_congr hs.kind hs.vars hs.functions] at hinlined
      have hnew : Settled ctx s new := hcall _ _ _ id hkind rfl e args keywords new guard? hinlined
      have hrefers : ∀ new', e.Refers new' := by
        intro new' id' _
        right
        rw [Expr.isCall, hkind]
      refine (hnew s1 (hs.trans hframe1)).bind fun new' s2 h2 => ?_
      split
      · exact (hlast new' h2.2).imp fun _ _ h3 => ⟨hrefers _, h3.2⟩
      · exact .pure ⟨hrefers _, h2.2⟩
  | cons p ps ih =>
    have hbefore' : ∀ q ∈ ps, q.Plain := fun q hq => hbefore q (by simp [hq])
    have hsteady' : ∀ q ∈ ps ++ Pass.inlining :: after, q.Steady := fun q hq => hsteady q (mem_cons_of_mem _ hq)
    refine (hbefore p (by simp)).settles_leave (hsteady p (by simp)) (fun new s' hnew => ?_) hs
    rcases hnew with rfl | hinert
    · exact ih hbefore' hsteady' hcall
    · exact ih hbefore' hsteady' fun _ _ _ _ hkind => Expr.calls_of_isInert hinert hkind

end

/-! ### Expressions that open a scope -/

/-- The depth of the parts of a comprehension that are visited inside of its scope. -/
def Generator.insideDepth (h : Nat) : List Generator → Nat
  | [] => 0
  | ⟨target, _, conditions, _⟩ :: gs =>
    max (max (target.depth h) (Expr.depthList h conditions)) (Generator.depthList h gs)

/-- The depth of the visits inside of the scope of an expression, and of those that take its place. -/
def Expr.insideDepth (h : Nat) (e : Expr) : Nat :=
  match e.kind with
  | .lambda _ body => body.depth h
  | .listComp item gens | .setComp item gens | .generatorExp item gens =>
    1 + max (item.depth h) (Generator.insideDepth h gens)
  | .dictComp key value gens => 1 + max (max (key.depth h) (value.depth h)) (Generator.insideDepth h gens)
  | _ => 0

section

theorem Generator.insideDepth_eq_parts (gs : List Generator) :
    Generator.insideDepth h gs = Expr.depthList h (Generator.insideParts gs) := by
  cases gs with
  | nil => rfl
  | cons g gs =>
    obtain ⟨target, iter, conditions, isAsync⟩ := g
    simp only [Generator.insideDepth, Generator.insideParts, Expr.depthList, Expr.depthList_append,
      Generator.depthList_eq_parts, Nat.max_assoc]

theorem Expr.insideDepth_eq_parts (he : e.isScope = true) :
    e.insideDepth h + 1 = (e.kind.rank h).1 + Expr.depthList h e.insideParts := by
  obtain ⟨pos, kind⟩ := e
  cases kind with
  | lambda =>
    simp only [Expr.insideDepth, ExprKind.rank, Expr.insideParts, Expr.depthList]
    omega
  | listComp | setComp | generatorExp | dictComp =>
    simp only [Expr.insideDepth, ExprKind.rank, Expr.insideParts, Expr.depthList, Expr.depthList_append,
      Generator.insideDepth_eq_parts]
    omega
  | _ => cases he

theorem Expr.insideDepth_lt (he : e.isScope = true) : e.insideDepth h < e.depth h := by
  have heq := Expr.insideDepth_eq_parts (h := h) he
  have hle : Expr.depthList h e.insideParts ≤ Expr.depthList h e.parts := Expr.depthList_le_iff.mpr fun c hc =>
    Expr.depthList_le_iff.mp (Nat.le_refl _) c (Expr.mem_parts_of_inside hc)
  rw [Expr.depth_eq_parts]
  omega

theorem settles_header (hparts : ∀ c : Expr, c.depth h ≤ d → Settled ctx s c) (hd : e.depth h ≤ d + 1)
    (he : e.isScope = true) (hs : s.Frame s') :
    Settles (fun n => (visitor n).exprHeader e)
      (fun new s'' => (new.isScope = true ∧ new.insideDepth h = e.insideDepth h) ∧ s.Frame s'') ctx s' := by
  have houtside : ∀ c ∈ e.outsideParts, Settled ctx s c := by
    intro c hc
    have hlt : c.depth h < e.depth h := Expr.depth_part (Expr.mem_parts_of_outside hc)
    exact hparts c (by omega)
  refine (Settles.logic.exprHeader (fun _ _ h => .inl h) houtside hs).imp fun new s1 h1 => ⟨?_, h1.2⟩
  have hscope : new.isScope = true := h1.1.1.isScope.trans he
  have hnew := Expr.insideDepth_eq_parts (h := h) hscope
  have hold := Expr.insideDepth_eq_parts (h := h) he
  rw [h1.1.1.rank, h1.1.2] at hnew
  exact ⟨hscope, by omega⟩

/-- Inside of the scope of an expression, the visits up to a depth settle. -/
def SettledInside (ctx : Context) (s : State) (h d : Nat) : Prop :=
  ∀ s' (kind : ScopeKind) (vars : Variables) (c : Expr), s.Frame s' → kind ≠ .function → c.depth h ≤ d →
    Settled (ctx.inside s'.scope .generic false) (s'.inside { kind := kind, vars := vars }) c

theorem settles_scope (hinside : SettledInside ctx s h d) (he : e.isScope = true) (hd : e.insideDepth h ≤ d)
    (hs : s.Frame s') :
    Settles (fun n => (visitor n).exprScope e) (fun new s'' => new.isScope = true ∧ s.Frame s'') ctx s' := by
  have hP : ∀ e : Expr, e.depth h ≤ d → ∀ c ∈ e.parts, c.depth h ≤ d := fun e he c hc =>
    Nat.le_trans (Nat.le_of_lt (Expr.depth_part hc)) he
  have hlogs : ∀ s1 s2, s.Frame s1 → s1.Logs s2 → s.Frame s2 := by
    rintro s1 s2 h1 ⟨log, rfl⟩
    exact h1.trans ⟨rfl, rfl, rfl, rfl⟩
  have hnested : ∀ s1, s.Frame s1 → Visit.Logic.VisitsNested (fun x post ctx s => Settles x post ctx s)
      visitor Expr.Refers
      (fun c => c.depth h ≤ d) s.Frame ctx s1 := fun s1 h1 kind vars hkind =>
    ⟨_, .refl _, fun s2 _ => ⟨h1.known, h1.kind, h1.vars, h1.functions⟩,
      fun c hc => hinside s1 kind vars c h1 hkind hc⟩
  have hparts : ∀ c ∈ e.insideParts, c.depth h ≤ d := by
    have heq := Expr.insideDepth_eq_parts (h := h) he
    have hone : 1 ≤ (e.kind.rank h).1 := by
      obtain ⟨pos, kind⟩ := e
      cases kind with
      | lambda | listComp | setComp | generatorExp | dictComp => simp [ExprKind.rank]
      | _ => cases he
    exact Expr.depthList_le_iff.mp (by omega)
  refine (Settles.logic.exprScope hP (fun _ _ h => .inl h) (fun hnew id hid => .inl (hnew.name?_eq ▸ hid)) hlogs
    hnested hparts hs).imp fun new s1 h1 => ?_
  exact ⟨h1.1.isScope.trans he, h1.2⟩

theorem Unrolling.Unrolled.depth_le {limits} (h : Unrolled limits e new) :
    new.depth limits.literalDepth ≤ e.insideDepth limits.literalDepth ∧ new.isInert = true := by
  cases h with
  | @list _ _ _ item id _ _ _ _ _ hliterals | @set _ _ _ item id _ _ _ _ _ hliterals =>
    have hitem := depthList_instances hliterals item id
    refine ⟨?_, rfl⟩
    simp only [Expr.depth, ExprKind.depth, Expr.insideDepth]
    omega
  | @dict _ _ _ key value id _ _ _ _ _ _ hliterals =>
    have hkey := depthList_instances hliterals key id
    have hvalue := depthList_instances hliterals value id
    refine ⟨?_, rfl⟩
    simp only [Expr.depth, ExprKind.depth, Expr.insideDepth]
    omega

theorem settles_enter {ps} (hps : ∀ p ∈ ps, p ∈ ctx.stage.passes)
    (hunrolled : ∀ new, Unrolling.Unrolled ctx.config.limits e new → Settled ctx s new ∧ new.isInert = true)
    (hs : s.Frame s') :
    Settles (fun n => (visitor n).enterExpr ps e)
      (fun r s'' => (∀ new, r = some new → new.name? = none) ∧ s.Frame s'') ctx s' := by
  induction ps generalizing s' with
  | nil => exact .pure ⟨fun _ hnew => (by cases hnew), hs⟩
  | cons p ps ih =>
    have hp : Ensures (p.enterExpr e) (fun failure => failure.cause ≠ .depthExceeded)
        (fun r s'' => (∀ new, r = some new → Settled ctx s new ∧ new.isInert = true) ∧ s.Frame s'') ctx s' := by
      refine (ctx.stage.unrolled_enterExpr (hps p (by simp))).mono (fun _ h => h.elim) fun r s1 h1 => ?_
      obtain ⟨hnew, log, rfl⟩ := h1
      exact ⟨fun new hr => hunrolled new (hnew new hr), hs.known, hs.kind, hs.vars, hs.functions⟩
    refine (Settles.of_ensures hp).bind fun r s1 h1 => ?_
    cases r with
    | none => exact ih (fun q hq => hps q (by simp [hq])) h1.2
    | some new =>
      obtain ⟨hnew, hinert⟩ := h1.1 new rfl
      refine (hnew s1 h1.2).bind fun new' s2 h2 => .pure ⟨fun last hlast => ?_, h2.2⟩
      cases hlast
      exact h2.1.name?_eq_none hinert

end

/-! ### Visits of expressions -/

section

variable {c : Expr}

def Expandable (ctx : Context) (s : State) (e : Expr) : Prop :=
  (∀ id, Inlining.Ends ctx s id) ∨ e.CallsOnly (Inlining.Ends ctx s)

theorem Expandable.child (he : Expandable ctx s e) (hc : c ∈ e.children) : Expandable ctx s c :=
  he.imp_right fun hcalls node hnode => hcalls node (Expr.mem_nodes_child hc hnode)

theorem Expandable.ends (he : Expandable ctx s e) (hnew : e.Rebuilt new) {func args keywords id}
    (hkind : new.kind = .call func args keywords) (hid : func.name? = some id) :
    Inlining.Ends ctx s id := by
  rcases he with hall | hcalls
  · exact hall id
  · obtain ⟨func0, args0, keywords0, hkind0, hrefers⟩ := hnew.call func args keywords hkind
    obtain ⟨pos, kind⟩ := e
    cases hkind0
    have hroot := hcalls _ (Expr.mem_nodes_self _)
    rcases hrefers id hid with hname | hcall
    · exact hroot.called id hname
    · have horder : func0.isCall = false := hroot.order
      rw [horder] at hcall
      cases hcall

theorem settles_visit_children (he : e.isScope = false) (hcalls : Expandable ctx s e)
    (hchildren : ∀ c ∈ e.children, Settled ctx s c) (hs : s.Frame s') :
    Settles (fun n => (visitor n).visitExpr e) (fun new s'' => e.Refers new ∧ s.Frame s'') ctx s' := by
  obtain ⟨before, after, hpasses, hbefore, hafter⟩ := Pass.split_passes ctx.stage
  have hsteady := Stage.steady_passes ctx.stage
  have hvisit : Settles (fun n => (visitor n).exprChildren e >>= (visitor n).leaveExpr ctx.stage.passes)
      (fun new s'' => e.Refers new ∧ s.Frame s'') ctx s' := by
    refine (settles_children he hchildren hs).bind fun new s1 h1 => ?_
    rw [hpasses] at hsteady ⊢
    have hleave := settles_leave hbefore hafter hsteady (fun _ _ _ _ => hcalls.ends h1.1) h1.2
    refine hleave.imp fun last s2 h2 => ⟨?_, h2.2⟩
    intro id hid
    rcases h2.1 id hid with hname | hcall
    · exact .inl (h1.1.name ▸ hname)
    · right
      obtain ⟨pos, kind⟩ := new
      cases kind with
      | call func args keywords =>
        obtain ⟨_, _, _, hkind, _⟩ := h1.1.call func args keywords rfl
        rw [Expr.isCall, hkind]
      | _ => cases hcall
  exact hvisit.atExpr.congr fun n => (visitor n).run_visitExpr he ctx s'

theorem settles_visit_scope (he : e.isScope = true) (hd : e.depth ctx.config.limits.literalDepth ≤ d + 1)
    (hparts : ∀ c : Expr, c.depth ctx.config.limits.literalDepth ≤ d → Settled ctx s c)
    (hinside : SettledInside ctx s ctx.config.limits.literalDepth d) (hs : s.Frame s') :
    Settles (fun n => (visitor n).visitExpr e) (fun new s'' => e.Refers new ∧ s.Frame s'') ctx s' := by
  obtain ⟨before, after, hpasses, hbefore, hafter⟩ := Pass.split_passes ctx.stage
  have hsteady := Stage.steady_passes ctx.stage
  refine Settles.atExpr (Settles.read_bind ?_)
  refine (settles_header hparts hd he hs).bind fun e1 s1 h1 => ?_
  obtain ⟨⟨hscope1, hdepth1⟩, hs1⟩ := h1
  have hd1 : e1.insideDepth ctx.config.limits.literalDepth ≤ d := by
    have hlt : e.insideDepth _ < e.depth ctx.config.limits.literalDepth := Expr.insideDepth_lt he
    omega
  have hunrolled : ∀ new, Unrolling.Unrolled ctx.config.limits e1 new → Settled ctx s new ∧ new.isInert = true :=
    fun new hnew => ⟨hparts new (Nat.le_trans hnew.depth_le.1 hd1), hnew.depth_le.2⟩
  refine (settles_enter (fun _ hp => hp) hunrolled hs1).bind fun r s2 h2 => ?_
  cases r with
  | some new => exact .pure ⟨.of_name_eq_none (h2.1 new rfl), h2.2⟩
  | none =>
    have hnotCall : ∀ a : Expr, a.isScope = true → a.isInert = true := by
      intro a ha
      obtain ⟨pos, kind⟩ := a
      cases kind with
      | name | call => cases ha
      | _ => rfl
    have hin : Settles (fun n => (visitor n).exprInside e1) (fun new s'' => new.isScope = true ∧ s.Frame s'')
        ctx s2 := by
      unfold Visitor.exprInside
      rw [hscope1]
      refine Settles.read_bind ?_
      split
      · exact settles_scope hinside hscope1 hd1 h2.2
      · exact .pure ⟨hscope1, h2.2⟩
    refine hin.bind fun e2 s3 h3 => ?_
    rw [hpasses] at hsteady ⊢
    have hinert := hnotCall e2 h3.1
    refine (settles_leave hbefore hafter hsteady (fun _ _ _ _ hkind => Expr.calls_of_isInert hinert hkind) h3.2).imp
      fun last s4 h4 => ⟨?_, h4.2⟩
    exact .of_name_eq_none (h4.1.name?_eq_none hinert)

theorem settles_visitor
    (hvisit : Settles (fun n => (visitor n).visitExpr e) (fun new s'' => e.Refers new ∧ s.Frame s'')
    ctx s') : Settles (fun n => (visitor n).expr e) (fun new s'' => e.Refers new ∧ s.Frame s'') ctx s' := by
  obtain ⟨depth, end', hrun, hensures⟩ := hvisit
  refine .of_run end' (depth + 1) (fun n hn => ?_) hensures
  obtain ⟨m, rfl⟩ : ∃ m, n = m + 1 := ⟨n - 1, by omega⟩
  exact hrun m (by omega)

theorem Expandable.settled (he : Expandable ctx s e) : Settled ctx s e := by
  have hdepth : ∀ d (e : Expr) (ctx : Context) (s : State), e.depth ctx.config.limits.literalDepth ≤ d →
      Expandable ctx s e → Settled ctx s e := by
    intro d
    induction d with
    | zero =>
      intro e ctx s hd _
      have hone : 1 ≤ e.depth ctx.config.limits.literalDepth :=
        Expr.one_le_depth (by unfold Limits.literalDepth; omega) e
      omega
    | succ d ih =>
      intro e ctx s hd he s' hs
      refine settles_visitor ?_
      cases hscope : e.isScope with
      | false =>
        refine settles_visit_children hscope he (fun c hc => ?_) hs
        have hlt : c.depth _ < e.depth ctx.config.limits.literalDepth := Expr.depth_child hc
        exact ih c ctx s (by omega) (he.child hc)
      | true =>
        have hall : ∀ id, Inlining.Ends ctx s id := by
          rcases he with hall | hcalls
          · exact hall
          · have hroot : e.isScope = false := (hcalls _ (Expr.mem_nodes_self e)).scope
            rw [hscope] at hroot
            cases hroot
        refine settles_visit_scope hscope hd (fun c hc => ih c ctx s hc (.inl hall)) ?_ hs
        intro s1 kind vars c _ hkind hc
        exact ih c _ _ hc (.inl (Inlining.ends_of_functions_eq_nil rfl hkind))
  exact hdepth _ e ctx s (Nat.le_refl _) he

end

/-! ### The statement -/

/-- The inlining of first-order functions ends: the check for recursion finds what an inlined call brings. -/
theorem Inlining.ends_of_firstOrder
    (hfirst : ∀ id callee, callee? (s.scope :: ctx.enclosing) ctx.allowGuards id = some callee →
      callee.fn.isFirstOrder = true) (id : Ident) : Ends ctx s id := by
  induction id using (wellFounded_brings (s.scope :: ctx.enclosing) ctx.allowGuards).induction with
  | _ id ih =>
    intro e args keywords new guard? hinlined
    have hcalls := callsOnly_of_inlined? hinlined (hfirst id)
    exact Expandable.settled (.inr fun node hnode => (hcalls node hnode).imp ih)

/-- The visit of every expression comes to an end, if the functions whose calls may be inlined are first-order. -/
theorem visitor_settles {ctx : Context} {s : State}
    (hfirst : ∀ id callee, Inlining.callee? (s.scope :: ctx.enclosing) ctx.allowGuards id = some callee →
      callee.fn.isFirstOrder = true) (e : Expr) :
    Settles (fun n => (visitor n).expr e) (fun _ _ => True) ctx s := by
  have hends := Inlining.ends_of_firstOrder hfirst
  have hsettled : Settled ctx s e := Expandable.settled (.inl hends)
  exact (hsettled s (.refl s)).imp fun _ _ _ => trivial

/-- Two functions that call each other. -/
theorem visitor_settles_mutual :
    let returning (name called : Ident) : Ident × FunctionDef :=
      (name, ⟨name, .empty, [⟨{}, .ret (some ⟨{}, .call ⟨{}, .name called⟩ [] []⟩)⟩], [], false⟩)
    let ctx : Context := ⟨{ inlining := true }, "m.py", [], .generic, false, []⟩
    let vars : Variables := { locals := ["a", "b"], bindings := ["a", "b"] }
    let functions := [returning "a" "b", returning "b" "a"]
    let s : State := ⟨{ kind := .module, vars := vars, functions := functions }, {}, [], [], false⟩
    (Inlining.callee? [s.scope] false "a").isSome = true ∧
      Settles (fun n => (visitor n).expr ⟨{}, .call ⟨{}, .name "a"⟩ [] []⟩) (fun _ _ => True) ctx s := by
  intro returning ctx vars functions s
  refine ⟨rfl, visitor_settles (fun id callee hcallee => ?_) _⟩
  obtain ⟨scope, rest, hchain, hlookup, hcases⟩ := Inlining.callee?_cases hcallee
  cases hchain
  have hfunctions : callee.functions = functions := by
    rcases hcases with ⟨_, hfunctions, _⟩ | ⟨_, hkind, _⟩
    · exact hfunctions
    · cases hkind
  have hall : functions.all (fun p => p.2.isFirstOrder) = true := rfl
  obtain ⟨l₁, l₂, hmem, _⟩ := List.lookup_eq_some_iff.mp (hfunctions ▸ hlookup)
  exact List.all_eq_true.mp hall (id, callee.fn) (by rw [hmem]; simp)

theorem Visitor.ensures_unknown_name (n : Nat) (hstage : ctx.stage ≠ .specialize) {id : Ident}
    (hid : id ≠ "__debug__") (hvalue : Propagation.value? ctx.config s.scope s.known id = none) (pos : Position) :
    Ensures ((visitor n).expr ⟨pos, .name id⟩) TooDeep (fun new s' => new = ⟨pos, .name id⟩ ∧ s.Frame s') ctx s := by
  cases n with
  | zero => exact ensures_fail.mpr rfl
  | succ n =>
    have hdebug : id = "__debug__" → Scope.isBuiltin (s.scope :: ctx.enclosing) id = false := fun h => absurd h hid
    refine (Visitor.ensures_name n hstage hdebug pos).mono (fun _ hfalse => hfalse.elim) fun new s' h => ?_
    rw [hvalue] at h
    exact ⟨h.2, h.1⟩

/-- With `def a(f): return f(f)` the visit of `a(a)` does not come to an end: whatever its depth, it goes deeper. -/
theorem visitor_self_application (n : Nat) :
    let f : Expr := ⟨{}, .name "f"⟩
    let result : Expr := ⟨{}, .call f [f] []⟩
    let fn : FunctionDef := ⟨"a", { Params.empty with args := ["f"] }, [⟨{}, .ret (some result)⟩], [], false⟩
    let ctx : Context := ⟨{ inlining := true }, "m.py", [], .generic, false, []⟩
    let vars : Variables := { locals := ["a"], bindings := ["a"] }
    let s : State := ⟨{ kind := .module, vars := vars, functions := [("a", fn)] }, {}, [], [], false⟩
    Ensures ((visitor n).expr ⟨{}, .call ⟨{}, .name "a"⟩ [⟨{}, .name "a"⟩] []⟩) TooDeep (fun _ _ => False) ctx s := by
  intro f result fn ctx vars s
  let a : Expr := ⟨{}, .name "a"⟩
  have hname : ∀ n s', s.Frame s' →
      Ensures ((visitor n).expr a) TooDeep (fun new s'' => new = a ∧ s.Frame s'') ctx s' := by
    intro n s' hs
    have hnone : Propagation.value? ctx.config s'.scope s'.known "a" = none := by
      simp [Propagation.value?, hs.known, s, Namespace.get?]
    exact (Visitor.ensures_unknown_name n (by decide) (by decide) hnone {}).imp fun _ _ h => ⟨h.1, hs.trans h.2⟩
  -- the call is inlined to itself
  have hinlined : ∀ s', s.Frame s' → Ensures (Inlining.leaveExpr ⟨{}, .call a [a] []⟩) TooDeep
      (fun step s'' => step = .revisit ⟨{}, .call a [a] []⟩ ∧ s.Frame s'') ctx s' := by
    intro s' hs
    have hnew : Inlining.inlined? (s'.scope :: ctx.enclosing) ctx.allowGuards ⟨{}, .call a [a] []⟩ "a" [a] [] =
        some (⟨{}, .call a [a] []⟩, none) := by
      rw [Inlining.inlined?_congr hs.kind hs.vars hs.functions]
      rfl
    unfold Inlining.leaveExpr
    rw [ensures_config_bind, if_neg (by decide)]
    simp only [a, ensures_chain_bind, ensures_read_bind] at hnew ⊢
    rw [hnew]
    exact ⟨rfl, hs.known, hs.kind, hs.vars, hs.functions⟩
  suffices hall : ∀ n s', s.Frame s' → Ensures ((visitor n).expr ⟨{}, .call a [a] []⟩) TooDeep
      (fun _ _ => False) ctx s' from hall n s (.refl s)
  intro n
  induction n with
  | zero => exact fun _ _ => ensures_fail.mpr rfl
  | succ n ih =>
    intro s' hs
    refine Visitor.ensures_visitExpr rfl (fun _ => TooDeep.locate) ?_
    have hchildren : Ensures ((visitor n).exprChildren ⟨{}, .call a [a] []⟩) TooDeep
        (fun new s'' => new = ⟨{}, .call a [a] []⟩ ∧ s.Frame s'') ctx s' := by
      refine (hname n s' hs).bind fun func s1 h1 => ?_
      simp only [mapM_cons, mapM_nil, bind_assoc, pure_bind]
      refine (hname n s1 h1.2).bind fun arg s2 h2 => ?_
      rw [h1.1, h2.1]
      exact .pure ⟨rfl, h2.2⟩
    refine hchildren.bind fun new s1 h1 => ?_
    obtain ⟨rfl, hs1⟩ := h1
    have hrun : (visitor n).leaveExpr ctx.stage.passes ⟨{}, .call a [a] []⟩ ctx s1 =
        (visitor n).leaveExpr [Pass.inlining] ⟨{}, .call a [a] []⟩ ctx s1 := rfl
    have hleave : Ensures ((visitor n).leaveExpr [Pass.inlining] ⟨{}, .call a [a] []⟩) TooDeep (fun _ _ => False)
        ctx s1 := by
      refine Ensures.bind (x := Pass.inlining.leaveExpr _) (hinlined s1 hs1) fun step s2 h2 => ?_
      obtain ⟨rfl, hs2⟩ := h2
      exact (ih s2 hs2).bind fun _ _ hfalse => hfalse.elim
    unfold Ensures at hleave ⊢
    rwa [hrun]

end Speculator
