import Speculator.Proofs.Lookup

/-!
# Chains of scopes

The scopes that the optimizer asks about names are those that it has opened on its way to a node.  A visitor that
knows the layers of code around each node can compare: `watchingVisitor` does what `visitor` does and fails, with any
failure one likes, where the chain of scopes is not as demanded for the layers, before or after the visit of a node.

In the course of optimizing a module, the chain of scopes fits the code wherever a node is visited.  Visits add no
more than temporary variables to the innermost scope, and the code of a function is still shown by the analysis of
what its first stages have made of it (`Layer.Version`).  So what the scopes tell about names is right
(`optimize_lookups`).
-/

namespace Speculator

open List Visit
open Specialize (IsTemporary)

variable {t : Stmt} {ctx : Context} {s : State} {m : Module} {layer : Layer}

variable {α : Type} {scope : Scope} {e : Expr} {n : Nat}

/-- The layers around the inside of an expression, given those around the expression. -/
def Expr.layers (around : List Layer) (e : Expr) : List Layer :=
  match e.kind with
  | .lambda params _ => .ofLambda params :: around
  | .listComp _ gens | .setComp _ gens | .generatorExp _ gens | .dictComp _ _ gens => .ofComprehension gens :: around
  | _ => around

/-- The layers around the inside of a statement, given those around the statement. -/
def Stmt.layers (around : List Layer) (t : Stmt) : List Layer :=
  match t.kind with
  | .functionDef fn => .ofFunction fn :: around
  | .classDef cls => .ofClass cls :: around
  | _ => around

/-- The layers of the scopes that a visit is in.  What is outside of the scope that a node opens, such as defaults of
parameters, is visited in fewer scopes than its inside. -/
def Layer.visible (layers : List Layer) (ctx : Context) : List Layer :=
  layers.drop (layers.length - (ctx.enclosing.length + 1))

variable {demand : List Scope → Prop}

theorem Layer.visible_append {layers} (extra : List Layer) (h : layers.length = ctx.enclosing.length + 1) :
    visible (extra ++ layers) ctx = layers := by
  rw [visible, length_append, h, Nat.add_sub_cancel, drop_left]

theorem Expr.exists_layers (around : List Layer) (e : Expr) : ∃ inner, e.layers around = inner ++ around := by
  obtain ⟨pos, kind⟩ := e
  cases kind with
  | lambda | listComp | setComp | generatorExp | dictComp => exact ⟨[_], rfl⟩
  | _ => exact ⟨[], rfl⟩

theorem Stmt.exists_layers (around : List Layer) (t : Stmt) : ∃ inner, t.layers around = inner ++ around := by
  obtain ⟨pos, kind⟩ := t
  cases kind with
  | functionDef | classDef => exact ⟨[_], rfl⟩
  | _ => exact ⟨[], rfl⟩

/-! ### Watched visits -/

open Classical in
/-- The visit, which fails unless the chain of scopes is as demanded before and after it. -/
noncomputable def Visit.watched {α : Type} (x : Visit α) (demand : List Scope → Prop) (failure : Failure) : Visit α :=
  fun ctx s =>
    if demand (s.scope :: ctx.enclosing) then
      match x ctx s with
      | .ok a s' => if demand (s'.scope :: ctx.enclosing) then .ok a s' else .error failure s'
      | .error other s' => .error other s'
    else .error failure s

theorem Visit.watched_eq_iff {x : Visit α} :
    (∀ failure, x.watched demand failure ctx s = x ctx s) ↔ demand (s.scope :: ctx.enclosing) ∧
      ∀ a s', x ctx s = .ok a s' → demand (s'.scope :: ctx.enclosing) := by
  simp only [Visit.watched]
  by_cases hdemand : demand (s.scope :: ctx.enclosing)
  · simp only [hdemand, if_true, true_and]
    cases x ctx s with
    | ok a s' =>
      by_cases hafter : demand (s'.scope :: ctx.enclosing)
      · simp [hafter]
      · have hfailure : Nonempty Failure := ⟨.unlocated .depthExceeded⟩
        simp [hafter]
    | error other s' => simp
  · simp only [hdemand, if_false, false_and, iff_false]
    intro hsame
    have heq := (hsame (.unlocated .depthExceeded)).trans (hsame (.unlocated (.complexAssignment "" 0))).symm
    cases heq

/-- The visits inside of layers of code that fail where the chain of scopes is not as demanded for the layers around a
node. -/
noncomputable def watchingVisitor (demand : List Layer → List Scope → Prop) (failure : Failure) :
    Nat → List Layer → Visitor
  | 0, _ => visitor 0
  | depth + 1, layers =>
    { expr := fun e ctx =>
        ((watchingVisitor demand failure depth (e.layers (Layer.visible layers ctx))).visitExpr e).watched
          (demand (Layer.visible layers ctx)) failure ctx
      stmt := fun t ctx =>
        ((watchingVisitor demand failure depth (t.layers (Layer.visible layers ctx))).visitStmt t).watched
          (demand (Layer.visible layers ctx)) failure ctx }

/-! ### Visits in scopes that fit the code -/

namespace Visit

variable {α β : Type} {layers : List Layer}

/-- Wherever the chain of scopes fits the layers of code, `x'` is `x`, which only adds temporary variables to the
innermost scope. -/
def Matches (m : Module) (layers : List Layer) (ctx : Context) (x' x : Visit α) : Prop :=
  ∀ s, Layer.Fits m layers (s.scope :: ctx.enclosing) →
    x' ctx s = x ctx s ∧ Ensures x (fun _ => True) (fun _ s' => s.scope.Extends IsTemporary s'.scope) ctx s

namespace Matches

theorem of_extends {x : Visit α}
    (h : ∀ s, Ensures x (fun _ => True) (fun _ s' => s.scope.Extends IsTemporary s'.scope) ctx s) :
    Matches m layers ctx x x := fun s _ => ⟨rfl, h s⟩

theorem of_steady {x : Visit α} (h : Steady x) : Matches m layers ctx x x :=
  of_extends fun _ => h.ensures_frame.imp fun _ _ hframe => .of_vars hframe.kind hframe.vars

theorem pure (a : α) : Matches m layers ctx (Pure.pure a) (Pure.pure a) := of_steady (.pure a)

theorem bind_of {x' x : Visit α} {f' f : α → Visit β} {P : α → Prop} (hx : Matches m layers ctx x' x)
    (hP : ∀ s, Ensures x (fun _ => True) (fun a _ => P a) ctx s) (hf : ∀ a, P a → Matches m layers ctx (f' a) (f a)) :
    Matches m layers ctx (x' >>= f') (x >>= f) := by
  intro s hfits
  obtain ⟨hsame, hextends⟩ := hx s hfits
  have hresult := hextends.and (hP s)
  constructor
  · rw [run_bind, run_bind, hsame]
    cases hrun : x ctx s with
    | ok a s1 =>
      obtain ⟨hs1, ha⟩ := hresult.of_ok hrun
      exact (hf a ha s1 (hfits.extend hs1)).1
    | error failure s1 => rfl
  · refine (hresult.mono (fun _ _ => trivial) fun _ _ h => h).bind fun a s1 h1 => ?_
    exact (hf a h1.2 s1 (hfits.extend h1.1)).2.imp fun _ s2 h2 => h1.1.trans h2

theorem bind {x' x : Visit α} {f' f : α → Visit β} (hx : Matches m layers ctx x' x)
    (hf : ∀ a, Matches m layers ctx (f' a) (f a)) : Matches m layers ctx (x' >>= f') (x >>= f) :=
  .bind_of (P := fun _ => True) hx (fun _ => Visitor.ensures_any) fun a _ => hf a

theorem read_bind {f' f : Context → Visit α} (h : Matches m layers ctx (f' ctx) (f ctx)) :
    Matches m layers ctx (read >>= f') (read >>= f) := h

theorem compositional : Compositional (I := Unit) fun x' x => Matches m layers ctx (x' ()) x := ⟨.pure, .bind⟩

theorem conditionally {x' x : Visit α} (h : Matches m layers ctx x' x) :
    Matches m layers ctx (Visit.conditionally x') (Visit.conditionally x) := by
  have hknown : ∀ g, Matches m layers ctx (Visit.modifyKnown g) (Visit.modifyKnown g) :=
    fun g => of_extends fun s => ensures_modifyKnown.mpr (.refl _)
  refine .bind (of_extends fun s => ?_) fun _ => .bind (hknown _) fun _ => .bind h fun a =>
    .bind (hknown _) fun _ => .pure a
  exact Scope.Extends.refl s.scope

theorem mapFailure {x' x : Visit α} (h : Matches m layers ctx x' x) (g : Context → Failure → Failure) :
    Matches m layers ctx (x'.mapFailure g) (x.mapFailure g) := by
  intro s hfits
  obtain ⟨hsame, hextends⟩ := h s hfits
  refine ⟨?_, ensures_mapFailure.mpr (hextends.mono (fun _ _ => trivial) fun _ _ h => h)⟩
  unfold Visit.mapFailure
  rw [hsame]

theorem inScope {x' x : Visit α} (h : ∀ ctx, Matches m (layer :: layers) ctx x' x) (hbelow : layer.Below m)
    (hshows : layer.Shows scope) (stage : Stage) (allowGuards : Bool) :
    Matches m layers ctx (Visit.inScope scope stage allowGuards x') (Visit.inScope scope stage allowGuards x) := by
  intro s hfits
  refine ⟨?_, ensures_inScope.mpr (Visitor.ensures_any.imp fun _ _ _ => .refl _)⟩
  have hinner := (h (ctx.inside s.scope stage allowGuards) (s.inside scope) (.nested hbelow hshows hfits)).1
  rw [run_inScope, run_inScope, hinner]

theorem watched {x' x : Visit α} (h : Matches m layers ctx x' x)
    (hdemand : ∀ chain, Layer.Fits m layers chain → demand chain) (failure : Failure) :
    Matches m layers ctx (x'.watched demand failure) x := by
  intro s hfits
  obtain ⟨hsame, hextends⟩ := h s hfits
  refine ⟨?_, hextends⟩
  rw [← hsame]
  refine watched_eq_iff.mpr ⟨hdemand _ hfits, fun a s' hrun => hdemand _ (hfits.extend ?_)⟩ failure
  rw [hsame] at hrun
  exact hextends.of_ok hrun

theorem inside {x' x : Visit α} {kind vars} (h : ∀ ctx, Matches m (layer :: layers) ctx x' x) (hbelow : layer.Below m)
    (hshows : layer.Shows { kind := kind, vars := vars }) :
    Matches m layers ctx (Visitor.inside kind vars x') (Visitor.inside kind vars x) :=
  .bind (.inScope h hbelow hshows _ _) fun _ => .pure _

end Matches

end Visit

/-! ### Declarations -/

/-- What statements inside of the layers declare is declared in nested scopes of the module: all of it, or in the
module itself what they declare in nested scopes. -/
def Stmt.Within (m : Module) (layers : List Layer) (ts : List Stmt) : Prop :=
  Stmt.declared (decide (1 < layers.length)) ts ⊆ Stmt.declared false m.body

namespace Stmt.Within

variable {layers : List Layer} {ts us : List Stmt}

theorem covers (h : Within m layers ts) (hus : Covers ts us) : Within m layers us := Subset.trans (hus _) h

theorem one (h : Within m layers ts) (ht : t ∈ ts) : Within m layers [t] :=
  h.covers fun _ _ hname => mem_declared_iff.mpr ⟨t, ht, hname⟩

theorem inside (h : Within m layers [t]) (ht : t.isScope = true) : declared true t.inside ⊆ declared false m.body :=
  fun _ hname => h ((mem_declared_definition ht).mpr hname)

theorem block (h : Within m layers [t]) (ht : t.isScope = false) {body} (hbody : body ∈ t.blocks) :
    Within m layers body := h.covers (.block ht hbody)

theorem of_declared (h : Stmt.declared true ts ⊆ Stmt.declared false m.body) (hlayers : 0 < layers.length) :
    Within m (layer :: layers) ts := by
  unfold Within
  rwa [length_cons, decide_eq_true (Nat.succ_lt_succ hlayers)]

end Stmt.Within

theorem Stmt.declared_of_marks {ts name}
    (h : .global name ∈ Stmt.marks ts ∨ .nonlocal name ∈ Stmt.marks ts) : name ∈ Stmt.declared true ts := by
  have hnode : ∀ m : Mark, m = .global name ∨ m = .nonlocal name → m ∈ Stmt.marks ts →
      name ∈ Stmt.declared true ts := by
    intro m hm hmarks
    obtain ⟨node, hnode, hmem⟩ := mem_flatMap.mp hmarks
    have hdeclares : m.declares = true := by rcases hm with rfl | rfl <;> rfl
    have hall := Stmt.listed_nodesList hnode (Node.mustStay_of_declares hmem hdeclares).1
    refine mem_flatMap.mpr ⟨node, hall, ?_⟩
    have hplaces : m ∉ node.places := fun hplace => by simp [node.declares_places m hplace] at hdeclares
    rw [Node.marks, append_assoc] at hmem
    have hdeclared := (mem_append.mp hmem).resolve_left hplaces
    rcases hm with rfl | rfl
    · exact mem_append_left _ (by simpa using hdeclared)
    · exact mem_append_right _ (by simpa using hdeclared)
  rcases h with h | h
  · exact hnode _ (.inl rfl) h
  · exact hnode _ (.inr rfl) h

namespace Layer

theorem below_ofLambda (params : Params) : (ofLambda params).Below m := ⟨by simp [ofLambda], by simp [ofLambda]⟩

theorem below_ofComprehension (gens : List Generator) : (ofComprehension gens).Below m := by
  refine ⟨by simp [ofComprehension], fun name hname => ?_⟩
  have hnot : ∀ mark ∈ (ofComprehension gens).marks, mark.declares = false := Expr.declares_targetsMarks _
  rcases hname with hname | hname
  · cases hnot _ hname
  · cases hnot _ hname

theorem below_ofClass {cls} (h : Stmt.declared true cls.body ⊆ Stmt.declared false m.body) :
    (ofClass cls).Below m := ⟨by simp [ofClass], fun _ hname => h (Stmt.declared_of_marks hname)⟩

variable {fn : FunctionDef}

theorem below_ofFunction (h : Stmt.declared true fn.body ⊆ Stmt.declared false m.body) : (ofFunction fn).Below m :=
  ⟨by simp [ofFunction], fun _ hname => h (Stmt.declared_of_marks (by simpa [ofFunction] using hname))⟩

/-- The analysis of the version shows the layer, which is that of the function as it was at first. -/
structure Version (m : Module) (layer : Layer) (fn : FunctionDef) : Prop where
  shows : ∀ {vars}, Variables.ofBody fn.body fn.params.names = .ok vars →
    layer.Shows { kind := .function, vars := vars }
  declared : Stmt.declared true fn.body ⊆ Stmt.declared false m.body

theorem Version.refl (h : Stmt.declared true fn.body ⊆ Stmt.declared false m.body) :
    Version m (ofFunction fn) fn := ⟨fun hvars => .of_describes (Variables.describes_ofBody hvars) .function, h⟩

theorem Version.ensures_functionStage {layer} (h : Version m layer fn) (n : Nat) (stage : Stage)
    (allowGuards : Bool) (hscope : scope.kind = .function) :
    Ensures ((visitor n).functionStage stage allowGuards scope fn) (fun _ => True)
      (fun r _ => Version m layer r.1 ∧ r.2.kind = .function) ctx s := by
  cases hvars : Variables.ofBody fn.body fn.params.names with
  | error cause =>
    unfold Visitor.functionStage
    rw [hvars]
    exact trivial
  | ok vars =>
    refine Visitor.ensures_functionStage_of_ok hvars ?_
    have hcarries := fun ctx s => Correspondence.ensures_body Mark.Balanced.bodies (visitor_balanced n ctx)
      true fn.body (s := s)
    have hcovers := fun ctx s => Correspondence.ensures_body Stmt.Covers.traces.lawful (visitor_covers n ctx) true
      fn.body (s := s)
    refine ((hcarries _ _).and (hcovers _ _)).mono (fun _ _ => trivial) fun body s' hbody => ?_
    refine ⟨⟨fun hvars' => ?_, Subset.trans (hbody.2 true) h.declared⟩, hbody.1.scope.kind.trans hscope⟩
    have hshows : layer.Shows { scope with vars := vars, functions := [] } := (h.shows hvars).of_vars hscope rfl
    exact (hshows.carry hscope (Variables.describes_ofBody hvars) (Variables.describes_ofBody hvars') hbody.1).of_vars
      hscope.symm rfl

end Layer

/-! ### Parts of trees -/

namespace Visitor

variable {layers : List Layer} {v' v : Visitor}

theorem ensures_analysis {r} :
    Ensures (analyzed r) (fun _ => True) (fun found _ => ∀ vars, found = some vars → r = .ok vars) ctx s := by
  cases r with
  | ok vars =>
    refine .pure fun vars' heq => ?_
    cases heq
    rfl
  | error cause =>
    unfold analyzed
    cases cause with
    | complexAssignment => exact ensures_log_bind.mpr (.pure fun _ heq => by cases heq)
    | _ => exact trivial

theorem ensures_paramNames (p : Params) :
    Ensures (v.params p) (fun _ => True) (fun new _ => new.names = p.names) ctx s :=
  ensures_any.bind fun _ _ _ => ensures_any.bind fun _ _ _ => .pure rfl

theorem ensures_exprHeader (around : List Layer) (e : Expr) :
    Ensures (v.exprHeader e) (fun _ => True) (fun new _ => new.layers around = e.layers around) ctx s := by
  have hiter : ∀ gens s, Ensures (v.firstIter gens) (fun _ => True)
      (fun new _ => Layer.ofComprehension new = Layer.ofComprehension gens) ctx s := by
    intro gens s
    cases gens with
    | nil => exact .pure rfl
    | cons g gs => exact ensures_any.bind fun _ _ _ => .pure rfl
  obtain ⟨pos, kind⟩ := e
  cases kind with
  | lambda params body =>
    refine (ensures_paramNames params).bind fun new s1 hnames => .pure ?_
    simp only [Expr.layers, Expr.withKind, Layer.ofLambda, hnames]
  | listComp | setComp | generatorExp | dictComp =>
    refine (hiter _ s).bind fun new s1 hnew => .pure ?_
    simp only [Expr.layers, Expr.withKind, hnew]
  | _ => exact .pure rfl

theorem ensures_stmtHeader (around : List Layer) (t : Stmt) : Ensures (v.stmtHeader t) (fun _ => True)
    (fun new _ => new.layers around = t.layers around ∧ Stmt.Covers [t] [new]) ctx s := by
  cases ht : t.isScope with
  | false =>
    rw [v.stmtHeader_of_not_scope ht]
    exact .pure ⟨rfl, Stmt.Covers.traces.refl _⟩
  | true =>
    refine (v.ensures_rebuildsHeader ht).imp fun new s' hnew => ⟨?_, ?_⟩
    · cases hnew with
      | function _ hparams => simp only [Stmt.layers, Layer.ofFunction, hparams.names_eq]
      | classDef => rfl
    · cases hnew with
      | function | classDef => exact Stmt.Covers.traces.header rfl rfl rfl rfl

/-- The visits of nodes inside of the layers match. -/
structure Matches (m : Module) (layers : List Layer) (v' v : Visitor) : Prop where
  expr : ∀ e ctx, Visit.Matches m layers ctx (v'.expr e) (v.expr e)
  stmt : ∀ t ctx, Stmt.Within m layers [t] → Visit.Matches m layers ctx (v'.stmt t) (v.stmt t)

namespace Matches

section

variable (h : Matches m layers v' v)
include h

theorem one (e : Expr) : Visit.Matches m layers ctx (v'.expr e) (v.expr e) := h.expr e ctx

theorem body (required : Bool) {ts} (hts : Stmt.Within m layers ts) :
    Visit.Matches m layers ctx (v'.body required ts) (v.body required ts) := by
  have htrim : ∀ visited, Visit.Matches m layers ctx (DeadCode.trimBody visited) (DeadCode.trimBody visited) := by
    refine fun visited => .of_extends fun s => (DeadCode.ensures_trimBody visited).imp fun _ s' hs' => ?_
    obtain ⟨dropped, _, hreleases⟩ := hs'
    exact .of_releases hreleases
  have hvisit := Visit.Matches.compositional.flatMapM (f := fun _ => v'.stmt) fun t ht => h.stmt t ctx (hts.one ht)
  refine .bind hvisit fun visited => .read_bind ?_
  dsimp only
  split
  · refine .bind (htrim visited) fun trimmed => ?_
    split <;> exact .pure _
  · refine .bind (.pure visited) fun trimmed => ?_
    split <;> exact .pure _

theorem leaveStmt {ps} (hps : ∀ p ∈ ps, p ∈ ctx.stage.passes) (ht : Stmt.Within m layers [t]) :
    Visit.Matches m layers ctx (v'.leaveStmt ps t) (v.leaveStmt ps t) := by
  induction ps generalizing t with
  | nil => exact .pure _
  | cons p ps ih =>
    have hrest := fun {t} => ih (fun q hq => hps q (by simp [hq])) (t := t)
    have hp := hps p (by simp)
    have hextends : ∀ s, Ensures (p.leaveStmt t) (fun _ => True)
        (fun _ s' => s.scope.Extends IsTemporary s'.scope) ctx s :=
      fun s => (Mark.passes_correspondence ctx p hp t s).imp fun step s' hstep =>
        Mark.Balanced.scope ((Correspondence.step_iff _).mp hstep)
    have hcovers : ∀ s, Ensures (p.leaveStmt t) (fun _ => True)
        (fun step _ => Stmt.Covers [t] (step.stmts t)) ctx s :=
      fun s => (ctx.stage.changes_leaveStmt hp).imp fun step s' hstep => Stmt.Covers.traces.of_changes hstep.1
    refine .bind_of (.of_extends hextends) hcovers fun step hstep => ?_
    have hstep := ht.covers hstep
    cases step with
    | keep => exact hrest ht
    | replace new =>
      dsimp only
      split
      · exact hrest hstep
      · exact .pure _
    | splice body => exact .pure _
    | revisit body => exact h.body false hstep

end

/-! ### Nested scopes -/

theorem comprehension (e : Expr) {gens} (h : Matches m (.ofComprehension gens :: layers) v' v)
    {f' f : List Generator → Visit ExprKind}
    (hf : ∀ new ctx, Visit.Matches m (.ofComprehension gens :: layers) ctx (f' new) (f new)) :
    Visit.Matches m layers ctx (v'.comprehension e gens f') (v.comprehension e gens f) := by
  refine .bind_of (.of_steady (Steady.closed.analyzed _)) (fun s => ensures_analysis) fun r hr => ?_
  cases r with
  | none => exact .pure _
  | some vars =>
    refine .bind (.inside (fun ctx => ?_) (Layer.below_ofComprehension gens) (.of_comprehension (hr vars rfl)))
      fun _ => .pure _
    exact .bind (Visit.Matches.compositional.generators (v := fun _ => v') h.one gens) fun new => hf new ctx

theorem exprScope (h : Matches m (e.layers layers) v' v) :
    Visit.Matches m layers ctx (v'.exprScope e) (v.exprScope e) := by
  obtain ⟨pos, kind⟩ := e
  cases kind with
  | lambda params body =>
    exact .bind (.inside (h.expr body) (Layer.below_ofLambda params) (.of_bindings .lambda params.names))
      fun _ => .pure _
  | listComp | setComp | generatorExp => exact comprehension _ h fun _ _ => .bind (h.one _) fun _ => .pure _
  | dictComp => exact comprehension _ h fun _ _ => .bind (h.one _) fun _ => .bind (h.one _) fun _ => .pure _
  | _ => exact .pure _

theorem exprInside (h : Matches m layers v' v) (hinner : Matches m (e.layers layers) v' v) :
    Visit.Matches m layers ctx (v'.exprInside e) (v.exprInside e) := by
  unfold Visitor.exprInside
  split
  · exact Visit.Matches.compositional.exprChildren (v := fun _ => v') h.one e
  · refine .read_bind ?_
    split
    · exact hinner.exprScope
    · exact .pure _

theorem visitExpr (h : Matches m layers v' v) (hinner : Matches m (e.layers layers) v' v) :
    Visit.Matches m layers ctx (v'.visitExpr e) (v.visitExpr e) := by
  have hparts : Visit.Compositional (I := Unit) fun x' x => Visit.Matches m layers ctx (x' ()) x :=
    Visit.Matches.compositional
  have henter : ∀ p ∈ ctx.stage.passes, ∀ e, Visit.Matches m layers ctx (p.enterExpr e) (p.enterExpr e) :=
    fun p hp e => .of_steady ((ctx.stage.steady_passes p hp).enter e)
  have hleave : ∀ p ∈ ctx.stage.passes, ∀ e, Visit.Matches m layers ctx (p.leaveExpr e) (p.leaveExpr e) :=
    fun p hp e => .of_steady ((ctx.stage.steady_passes p hp).leave e)
  refine .mapFailure (.read_bind ?_) _
  refine .bind_of (hparts.exprHeader (v := fun _ => v') h.one e) (fun s => ensures_exprHeader layers e)
    fun new hnew => ?_
  refine .bind (hparts.enterExpr (v := fun _ => v') h.one henter new) fun r => ?_
  cases r with
  | some replaced => exact .pure _
  | none =>
    refine .bind (h.exprInside (hnew ▸ hinner)) fun visited => ?_
    exact hparts.leaveExpr (v := fun _ => v') h.one hleave visited

theorem classBody (t : Stmt) {cls} (h : Matches m (.ofClass cls :: layers) v' v) (hlayers : 0 < layers.length)
    (hcls : Stmt.declared true cls.body ⊆ Stmt.declared false m.body) :
    Visit.Matches m layers ctx (v'.classBody t cls) (v.classBody t cls) := by
  refine .bind_of (.of_steady (Steady.closed.analyzed _)) (fun s => ensures_analysis) fun r hr => ?_
  cases r with
  | none => exact .pure _
  | some vars =>
    have hshows : (Layer.ofClass cls).Shows { kind := .classBody, vars := vars } :=
      .of_describes (Variables.describes_ofBody (hr vars rfl)) .classBody
    refine .bind (.inside (fun ctx => ?_) (Layer.below_ofClass hcls) hshows) fun _ => .pure _
    exact h.body true (.of_declared hcls hlayers)

theorem functionStage {layer} (h : Matches m (layer :: layers) v' v) (hlayers : 0 < layers.length)
    (hbelow : layer.Below m) {fn} (hfn : layer.Version m fn) (stage : Stage) (allowGuards : Bool)
    (hscope : scope.kind = .function) : Visit.Matches m layers ctx
      (v'.functionStage stage allowGuards scope fn) (v.functionStage stage allowGuards scope fn) := by
  unfold Visitor.functionStage
  cases hvars : Variables.ofBody fn.body fn.params.names with
  | error cause => exact .of_extends fun _ => trivial
  | ok vars =>
    have hshows : layer.Shows { scope with vars := vars, functions := [] } := (hfn.shows hvars).of_vars hscope rfl
    refine .bind_of (P := fun found => found = vars) (.pure vars) (fun s => .pure rfl) fun found hfound => ?_
    subst hfound
    refine .bind (.inScope (fun ctx => ?_) hbelow hshows _ _) fun r => ?_
    · exact h.body true (.of_declared hfn.declared hlayers)
    · obtain ⟨body, scope⟩ := r
      exact .pure _

theorem function (t : Stmt) {fn} (h : Matches m (.ofFunction fn :: layers) v' (visitor n))
    (hlayers : 0 < layers.length) (hfn : Stmt.declared true fn.body ⊆ Stmt.declared false m.body) :
    Visit.Matches m layers ctx (v'.function t fn) ((visitor n).function t fn) := by
  have hbelow := Layer.below_ofFunction hfn
  have hstart := Layer.Version.refl hfn
  have hspecialize : ∀ scope slow fast, Visit.Matches m layers ctx (Specialize.specialize scope slow fast)
      (Specialize.specialize scope slow fast) := fun scope slow fast => .of_extends fun s => .ensures_specialize
  refine .bind (.of_steady (Steady.closed.analyzed _)) fun r => ?_
  cases r with
  | none => exact .pure _
  | some vars =>
    refine .bind_of (h.functionStage hlayers hbelow hstart .restricted false rfl)
      (fun s => hstart.ensures_functionStage n .restricted false rfl) fun r1 h1 => ?_
    obtain ⟨slow, scope1⟩ := r1
    dsimp only at h1 ⊢
    split
    · exact .bind (.of_steady (.log _ _)) fun _ => .pure _
    refine .bind_of (h.functionStage hlayers hbelow h1.1 .specialize true h1.2)
      (fun s => h1.1.ensures_functionStage n .specialize true h1.2) fun r2 h2 => ?_
    obtain ⟨fast, scope2⟩ := r2
    dsimp only at h2 ⊢
    split
    · split
      · exact .pure _
      · exact .bind (hspecialize _ _ _) fun _ => .pure _
    · refine .bind (h.functionStage hlayers hbelow h2.1 .restricted true h2.2) fun r3 => ?_
      exact .bind (hspecialize _ _ _) fun _ => .pure _

theorem stmtInside (h : Matches m layers v' (visitor n)) (hinner : Matches m (t.layers layers) v' (visitor n))
    (hlayers : 0 < layers.length) (ht : Stmt.Within m layers [t]) :
    Visit.Matches m layers ctx (v'.stmtInside t) ((visitor n).stmtInside t) := by
  obtain ⟨pos, kind⟩ := t
  refine .read_bind ?_
  cases kind with
  | functionDef fn =>
    dsimp only
    split
    · exact hinner.function _ hlayers (ht.inside rfl)
    · exact .pure _
  | classDef cls =>
    dsimp only
    split
    · exact .bind (hinner.classBody _ hlayers (ht.inside rfl)) fun _ => .pure _
    · exact .pure _
  | _ =>
    refine .bind (Visit.Matches.compositional.stmtChildren (v := fun _ => v') h.one .conditionally ?_)
      fun _ => .pure _
    exact fun hscope required body hbody => h.body required (ht.block hscope hbody)

theorem visitStmt (h : Matches m layers v' (visitor n)) (hinner : Matches m (t.layers layers) v' (visitor n))
    (hlayers : 0 < layers.length) (ht : Stmt.Within m layers [t]) :
    Visit.Matches m layers ctx (v'.visitStmt t) ((visitor n).visitStmt t) := by
  have henter : ∀ new, Visit.Matches m layers ctx (ctx.stage.passes.forM fun p => p.enterStmt new)
      (ctx.stage.passes.forM fun p => p.enterStmt new) :=
    fun new => .of_extends fun s => (Pass.ensures_enterAll new).imp fun _ _ hs => .of_vars hs.1.1 hs.1.2
  refine .mapFailure (.read_bind ?_) _
  refine .bind_of (Visit.Matches.compositional.stmtHeader (v := fun _ => v') h.one t)
    (fun s => ensures_stmtHeader layers t) fun new hnew => .bind (henter new) fun _ => ?_
  have hwithin := ht.covers hnew.2
  refine .bind_of (h.stmtInside (hnew.1 ▸ hinner) hlayers hwithin) (visitor_covers_inside n ctx new) fun r hr => ?_
  cases r with
  | inl inside => exact h.leaveStmt (fun _ hp => hp) (hwithin.covers hr)
  | inr ts => exact .pure _

end Matches

end Visitor

/-! ### Modules -/

variable {demand : List Layer → List Scope → Prop}

theorem watchingVisitor_matches (hdemand : ∀ layers chain, Layer.Fits m layers chain → demand layers chain)
    (failure : Failure) (n : Nat) (extra layers : List Layer) :
    Visitor.Matches m layers (watchingVisitor demand failure n (extra ++ layers)) (visitor n) := by
  induction n generalizing extra layers with
  | zero => exact ⟨fun _ _ => .of_steady (.fail _), fun _ _ _ => .of_steady (.fail _)⟩
  | succ n ih =>
    refine ⟨fun e ctx s hfits => ?_, fun t ctx ht s hfits => ?_⟩
    all_goals
      have hvisible : Layer.visible (extra ++ layers) ctx = layers := Layer.visible_append extra hfits.length_eq
      simp only [watchingVisitor, hvisible]
    · obtain ⟨inner, hinner⟩ := e.exists_layers layers
      exact Matches.watched ((hinner ▸ ih inner layers).visitExpr (ih [] (e.layers layers))) (hdemand layers)
        failure s hfits
    · obtain ⟨inner, hinner⟩ := t.exists_layers layers
      exact Matches.watched ((hinner ▸ ih inner layers).visitStmt (ih [] (t.layers layers)) hfits.length_pos ht)
        (hdemand layers)
        failure s hfits

theorem Variables.reboundByNested_ofBody {body params vars}
    (h : Variables.ofBody body params = .ok vars) : vars.reboundByNested = Stmt.declared false body := by
  unfold Variables.ofBody at h
  cases hsites : (Stmt.nodesList Node.inScope body).mapM Node.bindings with
  | error cause =>
    simp only [hsites] at h
    cases h
  | ok sites =>
    simp only [hsites] at h
    cases h
    rfl

theorem Visit.run_bind_congr {β : Type} {x : Visit α} {f g : α → Visit β}
    (h : ∀ a s', x ctx s = .ok a s' → f a ctx s' = g a ctx s') : (x >>= f) ctx s = (x >>= g) ctx s := by
  rw [run_bind, run_bind]
  cases hrun : x ctx s with
  | ok a s' => exact h a s' hrun
  | error failure s' => rfl

theorem Visit.run_bind_left {β : Type} {x' x : Visit α} {f : α → Visit β} (h : x' ctx s = x ctx s) :
    (x' >>= f) ctx s = (x >>= f) ctx s := by
  rw [run_bind, run_bind, h]

theorem Module.visit_watching (hdemand : ∀ layers chain, Layer.Fits m layers chain → demand layers chain)
    (failure : Failure) (n : Nat) (hctx : ctx.enclosing = []) :
    m.visit (watchingVisitor demand failure n [.ofModule m]) ctx m.start = m.visit (visitor n) ctx m.start := by
  refine run_bind_congr fun config s1 h1 => ?_
  cases h1
  split
  · rfl
  refine run_bind_congr fun r s2 h2 => ?_
  cases r with
  | none => rfl
  | some vars =>
    have hvars : Variables.ofBody m.body [] = .ok vars := Visitor.ensures_analysis.of_ok h2 vars rfl
    have hframe := (Steady.closed.analyzed (Variables.ofBody m.body [])).ensures_frame.of_ok h2
    refine run_bind_congr fun _ s3 h3 => ?_
    cases h3
    have hshows : (Layer.ofModule m).Shows { kind := .module, vars := vars } :=
      .of_describes (Variables.describes_ofBody hvars) .module
    have hfits : Layer.Fits m [.ofModule m] ({ s2.scope with vars := vars } :: ctx.enclosing) := by
      rw [hctx]
      exact .module (hshows.of_vars hframe.kind rfl) (Variables.reboundByNested_ofBody hvars)
    have hbody := ((watchingVisitor_matches hdemand failure n [] [.ofModule m]).body false
      (Subset.refl (Stmt.declared false m.body)) { s2 with scope := { s2.scope with vars := vars } } hfits).1
    exact run_bind_left hbody

/-- In whatever module, and however deep its visits may be, wherever the optimizer visits a node, what its chain of
scopes tells about names is right for the code around the node. -/
theorem optimize_lookups (depth : Nat) (config : Config) (filename : String) (source : Option String) (m : Module)
    (failure : Failure) :
    optimizeWith (watchingVisitor (Scope.Answers m) failure depth [.ofModule m]) config filename source m =
      optimizeWith (visitor depth) config filename source m :=
  congrArg Report.ofResult (Module.visit_watching (fun _ _ hfits => hfits.answers) failure depth rfl)

/-- The module `nonlocal len; len = 5; def f(): return len("abc")` binds `len`, and the lookup from the function ends
there.  Its scopes tell that the name can only be the builtin. -/
theorem Scope.isBuiltin_of_module_nonlocal :
    let f : FunctionDef := ⟨"f", ⟨[], none, [], [], none, []⟩,
      [⟨{}, .ret (some ⟨{}, .call ⟨{}, .name "len"⟩ [⟨{}, .const (.str "abc")⟩] []⟩)⟩], [], false⟩
    let m : Module := ⟨[⟨{}, .nonlocals ["len"]⟩, ⟨{}, .assign [⟨{}, .name "len"⟩] ⟨{}, .const (.int 5)⟩⟩,
      ⟨{}, .functionDef f⟩]⟩
    .binding "len" ∈ Stmt.marks m.body ∧ Layer.lookup "len" [.ofFunction f, .ofModule m] = some 0 ∧
      ∃ inner outer, Variables.ofBody f.body [] = .ok inner ∧ Variables.ofBody m.body [] = .ok outer ∧
        Scope.isBuiltin [{ kind := .function, vars := inner }, { kind := .module, vars := outer }] "len" = true := by
  refine ⟨by decide, by decide, _, _, rfl, rfl, by decide⟩

/-- In the module `n = 0; def f(): n = 1; class C: global n; def g(): return n` the lookup of `n` from `g` passes over
the class and ends at `f`.  The scopes tell that the name is a variable of the module. -/
theorem Scope.isModuleGlobal_of_class_global :
    let zero : Stmt := ⟨{}, .assign [⟨{}, .name "n"⟩] ⟨{}, .const (.int 0)⟩⟩
    let g : FunctionDef := ⟨"g", ⟨[], none, [], [], none, []⟩, [⟨{}, .ret (some ⟨{}, .name "n"⟩)⟩], [], false⟩
    let c : ClassDef := ⟨"C", [], [], [⟨{}, .globals ["n"]⟩, ⟨{}, .functionDef g⟩], []⟩
    let f : FunctionDef := ⟨"f", ⟨[], none, [], [], none, []⟩,
      [⟨{}, .assign [⟨{}, .name "n"⟩] ⟨{}, .const (.int 1)⟩⟩, ⟨{}, .classDef c⟩], [], false⟩
    let m : Module := ⟨[zero, ⟨{}, .functionDef f⟩]⟩
    Layer.lookup "n" [.ofFunction g, .ofClass c, .ofFunction f, .ofModule m] = some 1 ∧
      ∃ vars3 vars2 vars1 vars0, Variables.ofBody g.body [] = .ok vars3 ∧ Variables.ofBody c.body [] = .ok vars2 ∧
        Variables.ofBody f.body [] = .ok vars1 ∧ Variables.ofBody m.body [] = .ok vars0 ∧
        Scope.isModuleGlobal [{ kind := .function, vars := vars3 }, { kind := .classBody, vars := vars2 },
          { kind := .function, vars := vars1 }, { kind := .module, vars := vars0 }] "n" = true := by
  refine ⟨by decide, _, _, _, _, rfl, rfl, rfl, rfl, by decide⟩

end Speculator
