import Speculator.Proofs.Depth
import Speculator.Proofs.Guards
import Speculator.Proofs.Replacements

/-!
# Visiting a plain expression keeps its meaning

What a visit makes of a plain expression is plain and has the same meaning: for every environment that holds the known
values, and for every meaning of the called names under which the builtins of the guards do what the catalog says
(`visitor_rewrites`).  Where names may be called, inlining has to be turned off.  No plain expression is visited
twice, so that the visit needs no more depth than the expression has.

A visit is a sequence of steps of passes between the visits of the parts.  Each pass is looked at once; the sequences
are put together by transitivity, and the parts by the congruences of evaluation.
-/

namespace Speculator

open List

variable {ε : Type} {env : Env}

/-! ### What the rewriting relies on -/

/-- The names do what the catalog says, where it says what they do. -/
def Meaning.Respects {ε : Type} (m : Meaning ε) (config : Config) (names : List Ident) : Prop :=
  ∀ id ∈ names, ∀ c, config.catalog.builtin? id = some c →
    ∀ args v, c.evaluate config.limits none args = .ok (some v) → m.call id args = .ok v

/-- `None` is itself, the builtins of the guards were not replaced, and the variables have their known values. -/
structure Fits {ε : Type} (fr : Fragment) (ctx : Context) (s : State) (m : Meaning ε) (env : Env) : Prop where
  identical : m.identical .none .none = .ok true
  guarded : (∃ id, fr.calls id) → m.Respects ctx.config s.scope.guards.builtinNames
  known : ∀ id v, fr.reads id → s.known.get? id = some v → env id = some v

/-- The options under which plain expressions keep their meaning. -/
structure Suits (fr : Fragment) (ctx : Context) : Prop where
  inlining : (∃ id, fr.calls id) → ctx.config.inlining = false
  copying : (∃ id, fr.reads id) → ctx.stage = .specialize → ctx.config.copyBuiltinToConstant = false
  callee : ∀ id, fr.calls id → fr.reads id
  debug : ¬fr.reads "__debug__"
  /-- The functions of the catalog give regular values. -/
  regular : ∀ id c args v, fr.calls id → ctx.config.catalog.builtin? id = some c →
    Value.AllRegular fr.sets args → c.call args = .ok v → v.Regular fr.sets

/-- The called names are not variables of the scope, and the known values are constants. -/
structure Ready (fr : Fragment) (s : State) : Prop where
  free : ∀ id, fr.calls id → s.scope.vars.locals.contains id = false
  constant : ∀ id v, fr.reads id → s.known.get? id = some v → v.isConstant = true

/-- What the visit of an expression leaves as it is; more names may come under guards. -/
structure Grows (fr : Fragment) (ctx : Context) (s s' : State) : Prop where
  known : s'.known = s.known
  vars : s'.scope.vars = s.scope.vars
  kind : s'.scope.kind = s.scope.kind
  copied : s'.scope.copied = s.scope.copied
  support : s'.needsSupport = s.needsSupport
  guarded : ∀ id ∈ s.scope.guards.builtinNames, id ∈ s'.scope.guards.builtinNames
  /-- Only calls get guards, and only where guards are allowed. -/
  unguarded : (ctx.allowGuards = true → ∀ id, ¬ fr.calls id) → s'.scope.guards = s.scope.guards

/-- `new` may take the place of `e` under the assumptions made until the state `s`. -/
structure Rewrites (fr : Fragment) (ctx : Context) (e new : Expr) (s : State) : Prop where
  plain : new.Plain fr
  alike : ∀ {ε : Type} (m : Meaning ε) (env : Env), Fits fr ctx s m env → e.Alike m env new
  callee : ∀ pos id, e = ⟨pos, .name id⟩ → fr.calls id → new = e

/-- How a visit may fail: it is too deep, or a function of the catalog raises an exception that is not tolerated. -/
def Stops (fr : Fragment) (deep : Prop) (failure : Failure) : Prop :=
  deep ∧ failure.cause = .depthExceeded ∨ (∃ id, fr.calls id) ∧ ∃ name fault, failure.cause = .untolerated name fault

variable {fr : Fragment} {ctx : Context} {s s' : State} {e new : Expr} {m : Meaning ε}

theorem Failure.cause_locate (failure : Failure) (location node : String) :
    (failure.locate location node).cause = failure.cause := by
  cases failure with
  | located => rfl
  | unlocated cause => cases cause <;> rfl

def TooDeep (failure : Failure) : Prop := failure.cause = .depthExceeded

theorem TooDeep.locate {failure} (location node : String) (h : TooDeep failure) :
    TooDeep (failure.locate location node) := (failure.cause_locate location node).trans h

theorem Stops.locate {deep : Prop} {failure} (location node : String) (h : Stops fr deep failure) :
    Stops fr deep (failure.locate location node) := by
  unfold Stops at h ⊢
  rw [Failure.cause_locate]
  exact h

theorem Stops.imp {deep deep' : Prop} {failure} (hdeep : deep → deep') (h : Stops fr deep failure) :
    Stops fr deep' failure := h.imp_left (And.imp_left hdeep)

theorem Stops.tooDeep {deep : Prop} {failure} (hcalls : ∀ id, ¬fr.calls id) (h : Stops fr deep failure) :
    deep ∧ TooDeep failure := h.resolve_right fun hcall => hcall.1.elim hcalls

namespace Grows

theorem refl (s : State) : Grows fr ctx s s := ⟨rfl, rfl, rfl, rfl, rfl, fun _ h => h, fun _ => rfl⟩

theorem trans {s1 s2 s3} (h : Grows fr ctx s1 s2) (h' : Grows fr ctx s2 s3) : Grows fr ctx s1 s3 :=
  ⟨h'.known.trans h.known, h'.vars.trans h.vars, h'.kind.trans h.kind, h'.copied.trans h.copied,
    h'.support.trans h.support, fun id hid => h'.guarded id (h.guarded id hid),
    fun hnone => (h'.unguarded hnone).trans (h.unguarded hnone)⟩

theorem log (s : State) (log : List Note) : Grows fr ctx s { s with log := log } :=
  ⟨rfl, rfl, rfl, rfl, rfl, fun _ h => h, fun _ => rfl⟩

theorem of_notes (h : s.Notes s') : Grows fr ctx s s' := by
  obtain ⟨log, rfl⟩ := h
  exact .log s log

theorem ready (h : Grows fr ctx s s') (hr : Ready fr s) : Ready fr s' := by
  refine ⟨fun id hid => ?_, fun id v hid hv => ?_⟩
  · rw [h.vars]
    exact hr.free id hid
  · rw [h.known] at hv
    exact hr.constant id v hid hv

theorem fits (h : Grows fr ctx s s') (hf : Fits fr ctx s' m env) : Fits fr ctx s m env := by
  refine ⟨hf.identical, fun hcalls id hid => hf.guarded hcalls id (h.guarded id hid),
    fun id v hid hv => hf.known id v hid ?_⟩
  rw [h.known]
  exact hv

end Grows

namespace Expr.Alike

variable {ε : Type} {m : Meaning ε} {env : Env}

theorem refl (e : Expr) : e.Alike m env e := ⟨rfl, rfl⟩

theorem trans {e1 e2 e3 : Expr} (h : e1.Alike m env e2) (h' : e2.Alike m env e3) : e1.Alike m env e3 :=
  ⟨h'.1.trans h.1, h'.2.trans h.2⟩

theorem of_eval (hs : e.isSlice = false) (hs' : new.isSlice = false) (h : new.eval m env = e.eval m env) :
    e.Alike m env new := by
  refine ⟨h, ?_⟩
  rw [index_of_not_slice m env hs, index_of_not_slice m env hs', h]

end Expr.Alike

namespace Rewrites

theorem refl (hp : e.Plain fr) : Rewrites fr ctx e e s := ⟨hp, fun _ _ _ => .refl e, fun _ _ _ _ => rfl⟩

theorem trans {e1 e2 e3 s1 s2} (h : Rewrites fr ctx e1 e2 s1) (hs : Grows fr ctx s1 s2)
    (h' : Rewrites fr ctx e2 e3 s2) : Rewrites fr ctx e1 e3 s2 := by
  refine ⟨h'.plain, fun m env hf => (h.alike m env (hs.fits hf)).trans (h'.alike m env hf), fun pos id he hid => ?_⟩
  have h2 : e2 = e1 := h.callee pos id he hid
  rw [h'.callee pos id (h2.trans he) hid, h2]

theorem grow (h : Rewrites fr ctx e new s) (hs : Grows fr ctx s s') : Rewrites fr ctx e new s' :=
  ⟨h.plain, fun m env hf => h.alike m env (hs.fits hf), h.callee⟩

theorem of_folds (hs : e.isSlice = false) (hn : e.name? = none) (h : Folds fr e new) : Rewrites fr ctx e new s := by
  refine ⟨h.plain, fun m env hf => .of_eval hs h.notSlice (h.eval m env hf.identical), fun pos id he _ => ?_⟩
  rw [he] at hn
  cases hn

theorem of_eval (hs : e.isSlice = false) (hs' : new.isSlice = false) (hn : e.name? = none) (hp : new.Plain fr)
    (h : ∀ {ε : Type} (m : Meaning ε) (env : Env), Fits fr ctx s m env → new.eval m env = e.eval m env) :
    Rewrites fr ctx e new s := by
  refine ⟨hp, fun m env hf => .of_eval hs hs' (h m env hf), fun pos id he _ => ?_⟩
  rw [he] at hn
  cases hn

variable {es news : List Expr}

theorem allPlain (h : Forall₂ (Rewrites fr ctx · · s) es news) : Expr.AllPlain fr news := by
  induction h with
  | nil => trivial
  | cons h _ ih => exact ⟨h.plain, ih⟩

theorem evals (h : Forall₂ (Rewrites fr ctx · · s) es news) (hf : Fits fr ctx s m env) :
    Expr.evals m env news = Expr.evals m env es := by
  induction h with
  | nil => rfl
  | cons h _ ih => rw [Expr.evals, Expr.evals, (h.alike m env hf).1, ih]

variable {bound bound' : Option Expr}

theorem plainOption (h : Option.Rel (Rewrites fr ctx · · s) bound bound') : Expr.PlainOption fr bound' := by
  cases h with
  | none => trivial
  | some h => exact h.plain

theorem evalOption (h : Option.Rel (Rewrites fr ctx · · s) bound bound') (hf : Fits fr ctx s m env) :
    Expr.evalOption m env bound' = Expr.evalOption m env bound := by
  cases h with
  | none => rfl
  | some h => rw [Expr.evalOption, Expr.evalOption, (h.alike m env hf).1]

theorem grow_option (h : Option.Rel (Rewrites fr ctx · · s) bound bound') (hs : Grows fr ctx s s') :
    Option.Rel (Rewrites fr ctx · · s') bound bound' := by
  cases h with
  | none => exact .none
  | some h => exact .some (h.grow hs)

theorem grow_list (h : Forall₂ (Rewrites fr ctx · · s) es news) (hs : Grows fr ctx s s') :
    Forall₂ (Rewrites fr ctx · · s') es news :=
  h.imp fun _ _ h => h.grow hs

end Rewrites

/-! ### The passes -/

/-- What a pass may do with a plain expression whose parts have been visited. -/
def Permits (fr : Fragment) (ctx : Context) (e : Expr) (s : State) (step : ExprStep) (s' : State) : Prop :=
  Grows fr ctx s s' ∧
    match step with
    | .keep => True
    | .replace new => Rewrites fr ctx e new s'
    | .revisit _ => False

/-- A pass keeps the meaning of plain expressions, and does nothing before their parts are visited. -/
structure Pass.Sound (p : Pass) (fr : Fragment) (ctx : Context) : Prop where
  enter : ∀ e s, e.Plain fr → Visit.Ensures (p.enterExpr e) (fun _ => False) (fun r s' => r = none ∧ s' = s) ctx s
  leave : ∀ e s, e.Plain fr → Ready fr s →
    Visit.Ensures (p.leaveExpr e) (Stops fr False) (Permits fr ctx e s) ctx s

namespace Pass

open Visit

theorem rewrites_builtin (hctx : Suits fr ctx) {pos func id args c values result}
    (hp : (⟨pos, .call ⟨func, .name id⟩ args []⟩ : Expr).Plain fr)
    (hc : ctx.config.catalog.builtin? id = some c) (hargs : Expr.literals? args = some values)
    (hresult : c.evaluate ctx.config.limits none values = .ok (some result))
    (hnew : ctx.config.limits.literal? result pos = some new) (hguard : id ∈ s.scope.guards.builtinNames) :
    Rewrites fr ctx ⟨pos, .call ⟨func, .name id⟩ args []⟩ new s := by
  rw [Expr.Plain] at hp
  have hreg : result.Regular fr.sets :=
    hctx.regular id c values result hp.1 hc (Expr.allRegular_of_literals args hp.2 hargs)
      (Contract.call_of_evaluate hresult)
  refine ⟨Expr.plain_literal? hreg hnew, fun m env hf => ?_, fun _ _ he _ => by cases he⟩
  refine .of_eval rfl (Limits.isSlice_literal? hnew) ?_
  rw [Limits.eval_literal? m env hreg hnew, Expr.eval, Expr.evals_of_literals m env args hargs, inSequence_map_ok]
  exact (hf.guarded ⟨id, hp.1⟩ id hguard c hc values result hresult).symm

theorem permits_of_leaves (hctx : Suits fr ctx) (hp : e.Plain fr) (hready : Ready fr s) {step}
    (h : Leaves ctx s e step s') : Permits fr ctx e s step s' := by
  cases h with
  | keep hs => exact ⟨.of_notes hs, trivial⟩
  | debug =>
    rw [Expr.Plain] at hp
    exact (hctx.debug hp).elim
  | @known pos id v new _ happlies hv hnew hs =>
    rw [Expr.Plain] at hp
    have hreg := Value.regular_of_isConstant fr.sets v (hready.constant id v hp hv)
    have hgrows : Grows fr ctx s s' := .of_notes hs
    refine ⟨hgrows, Expr.plain_literal? hreg hnew, fun m env hf => ?_, fun pos' id' he hid => ?_⟩
    · refine .of_eval rfl (Limits.isSlice_literal? hnew) ?_
      rw [Limits.eval_literal? m env hreg hnew, Expr.eval, (hgrows.fits hf).known id v hp hv]
    · -- a called name is no variable of the scope, so that it is not replaced
      cases he
      rw [Propagation.applies, hready.free id hid, Bool.and_false, Bool.false_and] at happlies
      cases happlies
  | folded hnew hs =>
    have hkind : e.isSlice = false ∧ e.name? = none := by cases hnew <;> exact ⟨rfl, rfl⟩
    exact ⟨.of_notes hs, .of_folds hkind.1 hkind.2 (hnew.folds hp)⟩
  | method => simp [Expr.Plain] at hp
  | @builtin pos inner id c result args values new _ hc hargs hresult hnew hguards hs =>
    obtain ⟨_, _, hfunc, _, hid, _⟩ := Expr.of_plain_call hp
    cases hfunc
    -- the guard is added before the call is replaced, and it watches the name of the function
    have hnames := GuardSet.mem_builtinNames_add s.scope.guards (.builtins [id])
    obtain ⟨log, rfl⟩ := hs
    refine ⟨⟨rfl, rfl, rfl, rfl, rfl, fun n hn => (hnames n).mpr (.inl hn),
      fun hnone => (hnone hguards id hid).elim⟩, ?_⟩
    exact rewrites_builtin hctx hp hc hargs hresult hnew ((hnames id).mpr (.inr (by simp [Guard.builtinNames])))

theorem isScope_of_plain (hp : e.Plain fr) : e.isScope = false := by
  obtain ⟨pos, kind⟩ := e
  cases kind with
  | lambda | listComp | setComp | generatorExp | dictComp => simp [Expr.Plain] at hp
  | _ => rfl

theorem sound_passes (hctx : Suits fr ctx) : ∀ p ∈ ctx.stage.passes, p.Sound fr ctx := by
  intro p hp
  refine ⟨fun e s hplain => ?_, fun e s hplain hready => ?_⟩
  · unfold Ensures
    rw [run_enterExpr ctx.stage (isScope_of_plain hplain) ctx s p hp]
    exact ⟨rfl, rfl⟩
  rcases leaving_or ctx.stage p hp with hleaving | rfl | ⟨rfl, hstage⟩
  · refine (hleaving e ctx s).mono (fun failure h => ?_) fun step s' h => permits_of_leaves hctx hplain hready h
    cases h with
    | method => simp [Expr.Plain] at hplain
    | builtin =>
      obtain ⟨_, id, _, _, hid, _⟩ := Expr.of_plain_call hplain
      exact .inr ⟨⟨id, hid⟩, _, _, rfl⟩
  · refine Inlining.ensures_leaveExpr.mono (fun _ h => h.elim) fun step s' h => ?_
    cases h with
    | keep => exact ⟨.refl s, trivial⟩
    | inlined hinlining =>
      obtain ⟨_, id, _, _, hid, _⟩ := Expr.of_plain_call hplain
      rw [hctx.inlining ⟨id, hid⟩] at hinlining
      cases hinlining
  · refine Placeholder.ensures_leaveExpr.mono (fun _ h => h.elim) fun step s' h => ?_
    obtain ⟨rfl, rfl | ⟨id, _, hkind, hcopy, _⟩⟩ := h
    · exact ⟨.refl _, trivial⟩
    · obtain ⟨pos, kind⟩ := e
      cases hkind
      rw [Expr.Plain] at hplain
      rw [hctx.copying ⟨id, hplain⟩ hstage] at hcopy
      cases hcopy

end Pass

/-! ### The visit of an expression -/

namespace Visitor

open Visit

def Result (fr : Fragment) (ctx : Context) (e : Expr) (s : State) (new : Expr) (s' : State) : Prop :=
  Rewrites fr ctx e new s' ∧ Grows fr ctx s s'

/-- The visit of an expression keeps its meaning, if the expression is plain. -/
def Sound (v : Visitor) (bad : Failure → Prop) (fr : Fragment) (ctx : Context) (e : Expr) : Prop :=
  ∀ s, e.Plain fr → Ready fr s → Ensures (v.expr e) bad (Result fr ctx e s) ctx s

variable {v : Visitor} {bad : Failure → Prop}

theorem ensures_leaveExpr {ps} (hps : ∀ p ∈ ps, p.Sound fr ctx) (hp : e.Plain fr) (hr : Ready fr s) :
    Ensures (v.leaveExpr ps e) (Stops fr False) (Result fr ctx e s) ctx s := by
  induction ps generalizing e s with
  | nil => exact .pure ⟨.refl hp, .refl s⟩
  | cons p ps ih =>
    have hps' : ∀ q ∈ ps, q.Sound fr ctx := fun q hq => hps q (by simp [hq])
    rw [leaveExpr]
    refine ((hps p (by simp)).leave e s hp hr).bind fun step s1 hstep => ?_
    obtain ⟨hgrows, hstep⟩ := hstep
    cases step with
    | keep =>
      refine (ih hps' hp (hgrows.ready hr)).imp fun new s2 h => ⟨h.1, hgrows.trans h.2⟩
    | revisit new => exact hstep.elim
    | replace new =>
      change Rewrites fr ctx e new s1 at hstep
      simp only
      split
      · refine (ih hps' hstep.plain (hgrows.ready hr)).imp fun last s2 h => ?_
        exact ⟨hstep.trans h.2 h.1, hgrows.trans h.2⟩
      · exact .pure ⟨hstep, hgrows⟩

theorem ensures_enterExpr {ps} (hps : ∀ p ∈ ps, p.Sound fr ctx) (hp : e.Plain fr) :
    Ensures (v.enterExpr ps e) (fun _ => False) (fun r s' => r = none ∧ s' = s) ctx s := by
  induction ps with
  | nil => exact ⟨rfl, rfl⟩
  | cons p ps ih =>
    rw [enterExpr]
    refine ((hps p (by simp)).enter e s hp).bind fun r s1 h => ?_
    obtain ⟨rfl, rfl⟩ := h
    exact ih fun q hq => hps q (by simp [hq])

theorem ensures_exprs {es} (hv : ∀ e ∈ es, v.Sound bad fr ctx e) (hp : Expr.AllPlain fr es) (hr : Ready fr s) :
    Ensures (es.mapM v.expr) bad
      (fun news s' => Forall₂ (Rewrites fr ctx · · s') es news ∧ Grows fr ctx s s') ctx s := by
  refine ensures_mapM_along Grows.refl (fun _ _ _ => Grows.trans) (fun _ _ _ _ h hs => h.grow hs) ?_
  intro e he s' hs'
  exact hv e he s' (Expr.allPlain_iff.mp hp e he) (hs'.ready hr)

theorem ensures_option {e} (hv : ∀ c ∈ e.toList, v.Sound bad fr ctx c) (hp : Expr.PlainOption fr e)
    (hr : Ready fr s) :
    Ensures (v.option e) bad
      (fun new s' => Option.Rel (Rewrites fr ctx · · s') e new ∧ Grows fr ctx s s') ctx s := by
  cases e with
  | none => exact .pure ⟨.none, .refl s⟩
  | some e =>
    change Ensures (some <$> v.expr e) _ _ ctx s
    rw [map_eq_pure_bind]
    refine (hv e (by simp) s hp hr).bind fun new s' h => ?_
    exact .pure ⟨.some h.1, h.2⟩

theorem ensures_exprChildren (hv : ∀ c ∈ e.children, v.Sound bad fr ctx c) (hctx : Suits fr ctx) (hp : e.Plain fr)
    (hr : Ready fr s) : Ensures (v.exprChildren e) bad (Result fr ctx e s) ctx s := by
  obtain ⟨pos, kind⟩ := e
  cases kind with
  | const | name => exact .pure ⟨.refl hp, .refl s⟩
  | binOp left op right =>
    rw [Expr.Plain] at hp
    refine (hv left (by simp [Expr.children]) s hp.1 hr).bind fun left' s1 hl => ?_
    refine (hv right (by simp [Expr.children]) s1 hp.2 (hl.2.ready hr)).bind fun right' s2 hr' => ?_
    refine .pure ⟨.of_eval rfl rfl rfl ⟨hl.1.plain, hr'.1.plain⟩ fun m env hf => ?_, hl.2.trans hr'.2⟩
    have hl2 := hl.1.grow hr'.2
    simp only [Expr.eval, Expr.withKind, (hl2.alike m env hf).1, (hr'.1.alike m env hf).1]
  | unaryOp op operand =>
    rw [Expr.Plain] at hp
    refine (hv operand (by simp [Expr.children]) s hp hr).bind fun operand' s1 h => ?_
    refine .pure ⟨.of_eval rfl rfl rfl h.1.plain fun m env hf => ?_, h.2⟩
    simp only [Expr.eval, Expr.withKind, (h.1.alike m env hf).1]
  | ifExp test body orelse =>
    rw [Expr.Plain] at hp
    refine (hv test (by simp [Expr.children]) s hp.1 hr).bind fun test' s1 ht => ?_
    refine (hv body (by simp [Expr.children]) s1 hp.2.1 (ht.2.ready hr)).bind fun body' s2 hb => ?_
    have hgrows := ht.2.trans hb.2
    refine (hv orelse (by simp [Expr.children]) s2 hp.2.2 (hgrows.ready hr)).bind fun orelse' s3 ho => ?_
    refine .pure ⟨.of_eval rfl rfl rfl ⟨ht.1.plain, hb.1.plain, ho.1.plain⟩ fun m env hf => ?_,
      hgrows.trans ho.2⟩
    have ht3 := ht.1.grow (hb.2.trans ho.2)
    have hb3 := hb.1.grow ho.2
    simp only [Expr.eval, Expr.withKind, (ht3.alike m env hf).1, (hb3.alike m env hf).1, (ho.1.alike m env hf).1]
  | tuple items | list items | boolOp _ items =>
    simp only [Expr.children] at hv
    rw [Expr.Plain] at hp
    refine (ensures_exprs hv hp hr).bind fun items' s1 h => ?_
    refine .pure ⟨.of_eval rfl rfl rfl (Rewrites.allPlain h.1) fun m env hf => ?_, h.2⟩
    simp only [Expr.eval, Expr.withKind, Rewrites.evals h.1 hf]
  | set items =>
    simp only [Expr.children] at hv
    rw [Expr.Plain] at hp
    refine (ensures_exprs hv hp.2 hr).bind fun items' s1 h => ?_
    refine .pure ⟨.of_eval rfl rfl rfl ⟨hp.1, Rewrites.allPlain h.1⟩ fun m env hf => ?_, h.2⟩
    simp only [Expr.eval, Expr.withKind, Rewrites.evals h.1 hf]
  | dict keys values =>
    rw [Expr.Plain] at hp
    obtain ⟨hkeys, hvalues⟩ := forall_mem_append.mp hv
    refine (ensures_exprs hkeys hp.2.1 hr).bind fun keys' s1 hk => ?_
    refine (ensures_exprs hvalues hp.2.2 (hk.2.ready hr)).bind fun values' s2 h => ?_
    have hk2 := Rewrites.grow_list hk.1 h.2
    refine .pure ⟨.of_eval rfl rfl rfl ⟨hp.1, Rewrites.allPlain hk2, Rewrites.allPlain h.1⟩
      fun m env hf => ?_, hk.2.trans h.2⟩
    simp only [Expr.eval, Expr.withKind, Rewrites.evals hk2 hf, Rewrites.evals h.1 hf]
  | compare left ops comparators =>
    obtain ⟨op, right, rfl, rfl, hleft, hright⟩ := Expr.of_plain_compare hp
    obtain ⟨hvleft, hvright⟩ := forall_mem_cons.mp hv
    refine (hvleft s hleft hr).bind fun left' s1 hl => ?_
    have hrest : Expr.AllPlain fr [right] := ⟨hright, trivial⟩
    refine (ensures_exprs hvright hrest (hl.2.ready hr)).bind fun comparators' s2 hc => ?_
    obtain ⟨hc, hgrows⟩ := hc
    obtain ⟨right', _, hr', hnil, rfl⟩ := forall₂_cons_left_iff.mp hc
    cases hnil
    have hl2 := hl.1.grow hgrows
    refine .pure ⟨.of_eval rfl rfl rfl ⟨hl.1.plain, hr'.plain⟩ fun m env hf => ?_, hl.2.trans hgrows⟩
    simp only [Expr.eval, Expr.withKind, (hl2.alike m env hf).1, (hr'.alike m env hf).1]
  | subscript value index =>
    rw [Expr.Plain] at hp
    refine (hv value (by simp [Expr.children]) s hp.1 hr).bind fun value' s1 h => ?_
    refine (hv index (by simp [Expr.children]) s1 hp.2 (h.2.ready hr)).bind fun index' s2 hi => ?_
    refine .pure ⟨.of_eval rfl rfl rfl ⟨h.1.plain, hi.1.plain⟩ fun m env hf => ?_, h.2.trans hi.2⟩
    have h2 := h.1.grow hi.2
    simp only [Expr.withKind, Expr.eval_subscript, (h2.alike m env hf).1, (hi.1.alike m env hf).2]
  | slice lower upper step =>
    rw [Expr.Plain] at hp
    obtain ⟨hlower, hrest⟩ := forall_mem_append.mp hv
    obtain ⟨hupper, hstep⟩ := forall_mem_append.mp hrest
    refine (ensures_option hlower hp.1 hr).bind fun lower' s1 hl => ?_
    refine (ensures_option hupper hp.2.1 (hl.2.ready hr)).bind fun upper' s2 hu => ?_
    have hgrows := hl.2.trans hu.2
    refine (ensures_option hstep hp.2.2 (hgrows.ready hr)).bind fun step' s3 hs => ?_
    have hl3 := Rewrites.grow_option hl.1 (hu.2.trans hs.2)
    have hu3 := Rewrites.grow_option hu.1 hs.2
    refine .pure ⟨⟨?_, fun m env hf => ⟨rfl, ?_⟩, fun _ _ he _ => by cases he⟩, hgrows.trans hs.2⟩
    · exact ⟨Rewrites.plainOption hl3, Rewrites.plainOption hu3, Rewrites.plainOption hs.1⟩
    · simp only [Expr.index, Expr.withKind, Rewrites.evalOption hl3 hf, Rewrites.evalOption hu3 hf,
        Rewrites.evalOption hs.1 hf]
  | call func args keywords =>
    obtain ⟨at', id, rfl, rfl, hid, hargs⟩ := Expr.of_plain_call hp
    obtain ⟨hfunction, hrest⟩ := forall_mem_cons.mp hv
    have hname : (⟨at', .name id⟩ : Expr).Plain fr := hctx.callee id hid
    refine (hfunction s hname hr).bind fun func' s1 hfunc => ?_
    cases hfunc.1.callee at' id rfl hid
    refine (ensures_exprs (forall_mem_append.mp hrest).1 hargs (hfunc.2.ready hr)).bind fun args' s2 h => ?_
    refine .pure ⟨.of_eval rfl rfl rfl ⟨hid, Rewrites.allPlain h.1⟩ fun m env hf => ?_, hfunc.2.trans h.2⟩
    simp only [reverse_nil, Expr.eval, Expr.withKind, Rewrites.evals h.1 hf]
  | _ => simp [Expr.Plain] at hp

theorem sound_visitExpr (hv : ∀ c ∈ e.children, v.Sound bad fr ctx c) (hctx : Suits fr ctx)
    (hbad : Unlocated bad) (hstops : ∀ failure, Stops fr False failure → bad failure) (hp : e.Plain fr)
    (hr : Ready fr s) :
    Ensures (v.visitExpr e) bad (Result fr ctx e s) ctx s := by
  have hpasses := Pass.sound_passes hctx
  refine Ensures.atExpr ?_ hbad
  simp only [ensures_read_bind, v.exprHeader_eq_pure (Pass.isScope_of_plain hp), pure_bind]
  refine ((ensures_enterExpr hpasses hp).mono (fun _ h => h.elim) fun _ _ h => h).bind fun r s1 h => ?_
  obtain ⟨rfl, rfl⟩ := h
  simp only [exprInside, Pass.isScope_of_plain hp, Bool.not_false, if_true]
  refine (ensures_exprChildren hv hctx hp hr).bind fun inner s2 h => ?_
  refine (ensures_leaveExpr hpasses h.1.plain (h.2.ready hr)).mono hstops fun new s3 h' => ?_
  exact ⟨h.1.trans h'.2 h'.1, h.2.trans h'.2⟩

end Visitor

/-- The visit of a plain expression keeps its meaning, and is not too deep if the expression is not. -/
theorem visitor_rewrites (hctx : Suits fr ctx) {height : Nat} (hheight : 1 ≤ height) (depth : Nat) (e : Expr) :
    (visitor depth).Sound (Stops fr (depth < e.depth height)) fr ctx e := by
  induction depth generalizing e with
  | zero => exact fun s _ _ => .inl ⟨e.one_le_depth hheight, rfl⟩
  | succ depth ih =>
    intro s hp hr
    refine Visitor.sound_visitExpr (fun c hc s hp hr => ?_) hctx (fun _ location node h => h.locate location node)
      (fun _ h => h.imp False.elim) hp hr
    have hchild : c.depth height < e.depth height := Expr.depth_child hc
    exact (ih c s hp hr).mono (fun _ h => h.imp fun hdeep => by omega) fun _ _ h => h

end Speculator
