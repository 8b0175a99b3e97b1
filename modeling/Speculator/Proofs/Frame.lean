import Speculator.Proofs.Closure

/-!
# What the visits of expressions leave alone

Visiting an expression binds no variable of the scope around it: the known values, the variables and the functions of
the scope are the same afterwards (`State.Frame`).  And of the known values it only sees those that replace reads:
with other known values that replace the same reads by the same literals, the visit ends in the same way
(`Visit.Steady`).

Both are properties of each step of a visit and are kept by putting visits together, so that they hold of the visits
of every depth.
-/

namespace Speculator

open List Propagation

namespace Namespace

theorem lookup_forget (ns : Namespace) (name id : Ident) :
    (ns.forget name).values.lookup id = if id = name then none else ns.values.lookup id := by
  unfold forget
  dsimp only
  induction ns.values with
  | nil => simp
  | cons entry values ih =>
    by_cases hentry : entry.1 = name
    · rw [filter_cons_of_neg (by simp [hentry]), ih]
      by_cases hid : id = name
      · rw [if_pos hid, if_pos hid]
      · have hne : (id == entry.1) = false := by simp [hentry, hid]
        rw [if_neg hid, if_neg hid, lookup_cons, hne]
    · rw [filter_cons_of_pos (by simp [hentry]), lookup_cons, lookup_cons, ih]
      by_cases hid : id = name
      · have hne : (id == entry.1) = false := by simp [hid, Ne.symm hentry]
        rw [hne, if_pos hid]
      · rw [if_neg hid, if_neg hid]

theorem get?_forget (ns : Namespace) (name id : Ident) :
    (ns.forget name).get? id = if id = name then none else ns.get? id := by
  unfold get?
  rw [lookup_forget]
  by_cases hcond : ns.conditional = true
  · simp [forget, hcond]
  · simp [forget, hcond]

/-- A write is ignored when track is lost.  Otherwise it forgets the variable or records its value. -/
theorem set_cases (ns : Namespace) (name : Ident) (value : Option Value) :
    (ns.unknown = true ∧ ns.set name value = ns) ∨
      ((value = none ∨ ns.conditional = true) ∧ ns.set name value = ns.forget name) ∨
      ∃ v, value = some v ∧ ns.unknown = false ∧ ns.conditional = false ∧
        ns.set name value = { ns.forget name with values := (name, v) :: (ns.forget name).values } := by
  unfold set
  cases value with
  | none => exact .inr (.inl ⟨.inl rfl, rfl⟩)
  | some v =>
    cases hunknown : ns.unknown with
    | true => exact .inl ⟨rfl, rfl⟩
    | false =>
      cases hcond : ns.conditional with
      | true => exact .inr (.inl ⟨.inr rfl, rfl⟩)
      | false => exact .inr (.inr ⟨v, rfl, rfl, rfl, rfl⟩)

@[simp] theorem unknown_set (ns : Namespace) (name : Ident) (value : Option Value) :
    (ns.set name value).unknown = ns.unknown := by
  rcases ns.set_cases name value with ⟨-, h⟩ | ⟨-, h⟩ | ⟨v, -, -, -, h⟩ <;> rw [h] <;> rfl

@[simp] theorem conditional_set (ns : Namespace) (name : Ident) (value : Option Value) :
    (ns.set name value).conditional = ns.conditional := by
  rcases ns.set_cases name value with ⟨-, h⟩ | ⟨-, h⟩ | ⟨v, -, -, -, h⟩ <;> rw [h] <;> rfl

/-- A write that is not conditional takes effect, unless track was lost before. -/
theorem lookup_set (ns : Namespace) (name : Ident) (value : Option Value) (id : Ident)
    (hlost : ns.unknown = true → ns.values.lookup id = none) : (ns.set name value).values.lookup id =
      if id = name then (if ns.unknown || ns.conditional then none else value) else ns.values.lookup id := by
  rcases ns.set_cases name value with ⟨hunknown, h⟩ | ⟨hforgets, h⟩ | ⟨v, rfl, hunknown, hcond, h⟩
  · simp [h, hunknown, hlost hunknown]
  · rw [h, lookup_forget]
    rcases hforgets with rfl | hcond
    · simp
    · simp [hcond]
  · rw [h, lookup_cons, lookup_forget]
    by_cases hid : id = name
    · simp [hid, hunknown, hcond]
    · have hne : (id == name) = false := by simp [hid]
      simp [hne, hid]

end Namespace

def Propagation.value? (config : Config) (scope : Scope) (known : Namespace) (id : Ident) : Option Value :=
  if config.constantPropagation && applies scope id then (known.get? id).filter config.limits.admits else none

/-- The variables of the current scope and what is known of them are the same. -/
structure State.Frame (s s' : State) : Prop where
  known : s'.known = s.known
  kind : s'.scope.kind = s.scope.kind
  vars : s'.scope.vars = s.scope.vars
  functions : s'.scope.functions = s.scope.functions

theorem State.Frame.refl (s : State) : s.Frame s := ⟨rfl, rfl, rfl, rfl⟩

theorem State.Frame.trans {s1 s2 s3 : State} (h : s1.Frame s2) (h' : s2.Frame s3) : s1.Frame s3 :=
  ⟨h'.known.trans h.known, h'.kind.trans h.kind, h'.vars.trans h.vars, h'.functions.trans h.functions⟩

theorem Propagation.value?_congr {scope scope'} (hkind : scope'.kind = scope.kind)
    (hvars : scope'.vars = scope.vars) (config : Config) (known : Namespace) (id : Ident) :
    value? config scope' known id = value? config scope known id := by
  unfold value? applies Scope.propagates
  rw [hkind, hvars]

namespace Visit

variable {α β : Type} {ctx : Context} {s : State} {known : Namespace} {x : Visit α}

theorem run_bind (x : Visit α) (f : α → Visit β) (ctx : Context) (s : State) :
    (x >>= f) ctx s =
      match x ctx s with
      | .ok a s' => f a ctx s'
      | .error failure s' => .error failure s' := by
  change EStateM.bind (x ctx) (fun a => f a ctx) s = _
  unfold EStateM.bind
  cases x ctx s <;> rfl

theorem run_read (ctx : Context) (s : State) : (read : Visit Context) ctx s = .ok ctx s := rfl

theorem run_get (ctx : Context) (s : State) : (get : Visit State) ctx s = .ok s s := rfl

theorem run_config (ctx : Context) (s : State) : config ctx s = .ok ctx.config s := rfl

theorem run_scope (ctx : Context) (s : State) : scope ctx s = .ok s.scope s := rfl

theorem run_atExpr_congr (e : Expr) {x y : Visit Expr} (h : x ctx s = y ctx s) :
    atExpr e x ctx s = atExpr e y ctx s := by
  unfold atExpr mapFailure
  rw [h]

theorem run_inScope (x : Visit α) (scope : Scope) (stage : Stage) (allowGuards : Bool) (ctx : Context) (s : State) :
    inScope scope stage allowGuards x ctx s =
      match x (ctx.inside s.scope stage allowGuards) (s.inside scope) with
      | .ok a s' => .ok (a, s'.scope) { s' with scope := s.scope, known := s.known }
      | .error failure s' => .error failure s' := by
  change EStateM.bind (x _) _ _ = _
  unfold EStateM.bind
  cases x (ctx.inside s.scope stage allowGuards) (s.inside scope) <;> rfl

def SameReads (ctx : Context) (s : State) (known : Namespace) : Prop :=
  ∀ id, Propagation.value? ctx.config s.scope known id = Propagation.value? ctx.config s.scope s.known id

theorem SameReads.frame {s'} (h : SameReads ctx s known) (hframe : s.Frame s') : SameReads ctx s' known := by
  intro id
  rw [value?_congr hframe.kind hframe.vars, value?_congr hframe.kind hframe.vars, hframe.known]
  exact h id

/-- The visit `y`, with other known values, ends as `x` does, and forgets some variables on the way. -/
def Follows (ids : List Ident) (x y : Visit α) (ctx : Context) (s : State) (known : Namespace) : Prop :=
  match x ctx s with
  | .ok a s' =>
    y ctx { s with known := known } = .ok a { s' with known := ids.foldl Namespace.forget known } ∧ s.Frame s'
  | .error failure s' => ∃ s'', y ctx { s with known := known } = .error failure s'' ∧ s''.log = s'.log

theorem Follows.bind {ids ids'} {y : Visit α} {f g : α → Visit β} (hx : Follows ids x y ctx s known)
    (hf : ∀ a s', s.Frame s' → Follows ids' (f a) (g a) ctx s' (ids.foldl Namespace.forget known)) :
    Follows (ids ++ ids') (x >>= f) (y >>= g) ctx s known := by
  unfold Follows at hx ⊢
  rw [run_bind, run_bind]
  cases hxs : x ctx s with
  | ok a s1 =>
    rw [hxs] at hx
    obtain ⟨hsame, hframe⟩ := hx
    have hrest := hf a s1 hframe
    unfold Follows at hrest
    simp only [hsame]
    cases hfs : f a ctx s1 with
    | ok b s2 =>
      rw [hfs] at hrest
      rw [foldl_append]
      exact ⟨hrest.1, hframe.trans hrest.2⟩
    | error failure s2 =>
      rw [hfs] at hrest
      exact hrest
  | error failure s1 =>
    rw [hxs] at hx
    obtain ⟨s2, hsame, hlog⟩ := hx
    simp only [hsame]
    exact ⟨s2, rfl, hlog⟩

theorem Follows.bind_pure {ids} {y : Visit α} {g : α → β} (hx : Follows ids x y ctx s known) :
    Follows ids (x >>= fun a => Pure.pure (g a)) (y >>= fun a => Pure.pure (g a)) ctx s known := by
  have hbind : Follows (ids ++ []) (x >>= fun a => Pure.pure (g a)) (y >>= fun a => Pure.pure (g a)) ctx s known :=
    hx.bind fun _ s' _ => ⟨rfl, .refl s'⟩
  rwa [append_nil] at hbind

/-- The visit leaves the variables alone, and of the known values only sees those that replace reads. -/
def Steady (x : Visit α) : Prop := ∀ ctx s known, SameReads ctx s known → Follows [] x x ctx s known

namespace Steady

theorem pure (a : α) : Steady (Pure.pure a) := fun _ s _ _ => ⟨rfl, .refl s⟩

theorem bind {f : α → Visit β} (hx : Steady x) (hf : ∀ a, Steady (f a)) : Steady (x >>= f) :=
  fun ctx s known hreads => (hx ctx s known hreads).bind fun a s' hframe => hf a ctx s' known (hreads.frame hframe)

theorem read : Steady (MonadReader.read : Visit Context) := fun _ s _ _ => ⟨rfl, .refl s⟩

theorem config : Steady Visit.config := fun _ s _ _ => ⟨rfl, .refl s⟩

theorem scope : Steady Visit.scope := fun _ s _ _ => ⟨rfl, .refl s⟩

theorem isBuiltin (name : Ident) : Steady (Visit.isBuiltin name) := fun _ s _ _ => ⟨rfl, .refl s⟩

theorem log (line : Nat) (message : String) : Steady (Visit.log line message) :=
  fun _ _ _ _ => ⟨rfl, rfl, rfl, rfl, rfl⟩

theorem logQuoting (line : Nat) (message : String) : Steady (Visit.logQuoting line message) :=
  fun _ _ _ _ => ⟨rfl, rfl, rfl, rfl, rfl⟩

theorem noteOverrun (overruns : Bool) : Steady (Visit.noteOverrun overruns) :=
  fun _ _ _ _ => ⟨rfl, rfl, rfl, rfl, rfl⟩

theorem newText (base : String) : Steady (Visit.newText base) := fun _ _ _ _ => ⟨rfl, rfl, rfl, rfl, rfl⟩

theorem fail (cause : Cause) : Steady (Visit.fail cause : Visit α) := fun _ _ _ _ => ⟨_, rfl, rfl⟩

theorem modifyScope {f : Scope → Scope}
    (hf : ∀ scope, (f scope).kind = scope.kind ∧ (f scope).vars = scope.vars ∧
      (f scope).functions = scope.functions) : Steady (Visit.modifyScope f) :=
  fun _ s _ _ => ⟨rfl, rfl, (hf s.scope).1, (hf s.scope).2.1, (hf s.scope).2.2⟩

theorem addGuard (g : Guard) : Steady (Visit.addGuard g) := by
  refine .bind .read fun ctx => ?_
  split
  · exact .bind (.modifyScope fun _ => ⟨rfl, rfl, rfl⟩) fun _ => .pure _
  · exact .pure _

theorem inScope (scope : Scope) (stage : Stage) (allowGuards : Bool) :
    Steady (Visit.inScope scope stage allowGuards x) := by
  intro ctx s known _
  unfold Follows
  rw [run_inScope, run_inScope]
  cases x (ctx.inside s.scope stage allowGuards) (s.inside scope) with
  | ok a s' => exact ⟨rfl, rfl, rfl, rfl, rfl⟩
  | error failure s' => exact ⟨s', rfl, rfl⟩

theorem mapFailure (hx : Steady x) (g : Context → Failure → Failure) : Steady (x.mapFailure g) := by
  intro ctx s known hreads
  have hrun := hx ctx s known hreads
  unfold Follows at hrun ⊢
  unfold Visit.mapFailure
  cases hxs : x ctx s with
  | ok a s' =>
    rw [hxs] at hrun
    rw [hrun.1]
    exact ⟨rfl, hrun.2⟩
  | error failure s' =>
    rw [hxs] at hrun
    obtain ⟨s'', hsame, hlog⟩ := hrun
    rw [hsame]
    exact ⟨s'', rfl, hlog⟩

theorem ensures_frame (hx : Steady x) : Ensures x (fun _ => True) (fun _ s' => s.Frame s') ctx s := by
  have hrun := hx ctx s s.known fun _ => rfl
  unfold Follows at hrun
  unfold Ensures
  cases hxs : x ctx s with
  | ok a s' =>
    rw [hxs] at hrun
    exact hrun.2
  | error failure s' => trivial

end Steady

end Visit

open Visit

/-! ### The passes -/

theorem Propagation.run_knownVariable (pos : Position) (id : Ident) (ctx : Context) (s : State) :
    knownVariable ⟨pos, .name id⟩ ctx s =
      match value? ctx.config s.scope s.known id with
      | none => .ok .keep s
      | some v =>
        let message := "constant propagation: replace " ++ id ++ " with " ++ v.repr
        let decision := decisionText ctx.filename pos.line message (ctx.sourceLine? pos.line)
        .ok (.replace (v.toExpr pos)) { s with log := .decision decision :: s.log } := by
  have hliteral : ∀ v, Visit.literal? v pos ctx s = .ok (ctx.config.limits.literal? v pos) s := fun _ => rfl
  unfold knownVariable value?
  change (if !ctx.config.constantPropagation || !applies s.scope id then (Pure.pure .keep : Visit ExprStep)
    else _) ctx s = _
  rw [← Bool.not_and]
  cases ctx.config.constantPropagation && applies s.scope id with
  | false => rfl
  | true =>
    rw [if_pos rfl, Bool.not_true, if_neg Bool.false_ne_true, run_bind, run_get]
    dsimp only
    cases s.known.get? id with
    | none => rfl
    | some v =>
      dsimp only
      rw [run_bind, hliteral, Option.filter_some, Limits.literal?]
      cases ctx.config.limits.admits v <;> rfl

theorem Propagation.steady_knownVariable (e : Expr) : Steady (knownVariable e) := by
  obtain ⟨pos, kind⟩ := e
  cases kind with
  | name id =>
    intro ctx s known hreads
    simp only [Follows, run_knownVariable, hreads id]
    cases value? ctx.config s.scope s.known id with
    | none => exact ⟨rfl, .refl s⟩
    | some v => exact ⟨rfl, rfl, rfl, rfl, rfl⟩
  | _ => exact .pure _

theorem Placeholder.steady_choose (id : Ident) : Steady (choose id) := by
  unfold choose
  refine .bind .config fun config => ?_
  split
  · exact .pure _
  refine .bind .scope fun scope => .bind (.isBuiltin _) fun isBuiltin => ?_
  split
  · exact .pure _
  refine .bind (.addGuard _) fun allowed => ?_
  split
  · exact .bind (.newText _) fun _ => .modifyScope fun _ => ⟨rfl, rfl, rfl⟩
  · exact .pure _

theorem Visit.Steady.closed : Visit.Closed Steady where
  pure := .pure
  bind := .bind
  read := .read
  scope := .scope
  log := .log
  logQuoting := .logQuoting
  noteOverrun := .noteOverrun
  fail := .fail
  addGuard := .addGuard
  knownVariable := steady_knownVariable
  choose := Placeholder.steady_choose
  mapFailure := .mapFailure
  inside _ _ _ := .bind (.inScope _ _ _) fun _ => .pure _

structure Pass.Steady (p : Pass) : Prop where
  enter : ∀ e, Visit.Steady (p.enterExpr e)
  leave : ∀ e, Visit.Steady (p.leaveExpr e)

theorem Stage.steady_passes (stage : Stage) : ∀ p ∈ stage.passes, p.Steady :=
  fun p hp => ⟨(Steady.closed.passes stage p hp).1, (Steady.closed.passes stage p hp).2⟩

def Visitor.Steady (v : Visitor) : Prop := ∀ e, Visit.Steady (v.expr e)

/-- The visit of an expression binds no variable and only sees the known values that replace reads. -/
theorem visitor_steady (n : Nat) : (visitor n).Steady := Steady.closed.visitor n

/-! ### Expressions that open no scope -/

variable {e : Expr} {v : Visitor} {ctx : Context} {s : State} {id : Ident}

theorem Pass.run_enterExpr (stage : Stage) (he : e.isScope = false) (ctx : Context) (s : State) :
    ∀ p ∈ stage.passes, p.enterExpr e ctx s = .ok none s := by
  have hcomprehension : Unrolling.comprehension? e = none := by
    obtain ⟨pos, kind⟩ := e
    cases kind with
    | lambda | listComp | setComp | generatorExp | dictComp => cases he
    | _ => rfl
  have hunrolled : Unrolling.unrolledComprehension? ctx.config s.scope.kind e = none := by
    unfold Unrolling.unrolledComprehension?
    rw [hcomprehension]
    rfl
  have hunrolling : Unrolling.enterExpr e ctx s = .ok none s := by
    simp only [Unrolling.enterExpr, run_bind, run_config, run_scope, hunrolled]
    rfl
  exact stage.forall_enterExpr (P := fun enter => enter e ctx s = .ok none s) rfl hunrolling

theorem Visitor.run_visitExpr (v : Visitor) (he : e.isScope = false) (ctx : Context) (s : State) :
    v.visitExpr e ctx s = Visit.atExpr e (v.exprChildren e >>= v.leaveExpr ctx.stage.passes) ctx s := by
  have hheader := v.exprHeader_eq_pure he
  have hinside : v.exprInside e = v.exprChildren e := by
    unfold Visitor.exprInside
    rw [he]
    rfl
  have henter : v.enterExpr ctx.stage.passes e ctx s = .ok none s := by
    have hps := Pass.run_enterExpr ctx.stage he ctx s
    generalize ctx.stage.passes = ps at hps
    induction ps with
    | nil => rfl
    | cons p ps ih =>
      rw [Visitor.enterExpr, run_bind, hps p (by simp)]
      exact ih fun q hq => hps q (by simp [hq])
  refine run_atExpr_congr e ?_
  rw [run_bind, run_read]
  dsimp only
  rw [hheader, pure_bind, run_bind, henter, hinside]

theorem Visitor.ensures_visitExpr (he : e.isScope = false) {bad : Failure → Prop} {post : Expr → State → Prop}
    (hbad : Unlocated bad) (h : Ensures (v.exprChildren e >>= v.leaveExpr ctx.stage.passes) bad post ctx s) :
    Ensures (v.visitExpr e) bad post ctx s := by
  have hvisit := h.atExpr (e := e) hbad
  unfold Ensures at hvisit ⊢
  rwa [v.run_visitExpr he]

/-! ### Reads of variables -/

theorem Propagation.run_debugConstant (h : id = "__debug__" → Scope.isBuiltin (s.scope :: ctx.enclosing) id = false)
    (pos : Position) :
    debugConstant ⟨pos, .name id⟩ ctx s = .ok .keep s := by
  by_cases hid : id = "__debug__"
  · have hbuiltin := h hid
    subst hid
    change (if ctx.config.replaceBuiltinConstant && Scope.isBuiltin (s.scope :: ctx.enclosing) "__debug__" then
      (pure (.replace _) : Visit ExprStep) else _) ctx s = _
    rw [hbuiltin, Bool.and_false]
    rfl
  · have hkeep : debugConstant ⟨pos, .name id⟩ = pure .keep := by
      unfold debugConstant
      split
      · rename_i hk
        cases hk
        exact absurd rfl hid
      · rfl
    rw [hkeep]
    rfl

theorem Value.sameKind_toExpr_name (v : Value) (pos at' : Position) (id : Ident) :
    (v.toExpr pos).sameKind ⟨at', .name id⟩ = false := by
  cases v with
  | tuple | frozenSet =>
    rw [Value.toExpr]
    split <;> rfl
  | _ => rfl

theorem Visitor.run_leaveExpr_of_keep {p} (hp : p.leaveExpr e ctx s = .ok .keep s) (ps : List Pass) :
    v.leaveExpr (p :: ps) e ctx s = v.leaveExpr ps e ctx s := by
  rw [Visitor.leaveExpr, run_bind, hp]

theorem Visitor.run_leaveExpr_of_all_keep {ps} (hps : ∀ p ∈ ps, p.leaveExpr e ctx s = .ok .keep s) :
    v.leaveExpr ps e ctx s = .ok e s := by
  induction ps with
  | nil => rfl
  | cons p ps ih =>
    rw [run_leaveExpr_of_keep (hps p (by simp))]
    exact ih fun q hq => hps q (by simp [hq])

theorem Stage.passes_of_ne {stage : Stage} (h : stage ≠ .specialize) : stage.passes =
    Pass.tracking :: Pass.debugConstant :: Pass.propagation :: Pass.folding :: Stage.generic.passes.drop 4 := by
  cases stage with
  | specialize => exact absurd rfl h
  | _ => rfl

theorem Visitor.run_leaveExpr_late (he : ∀ func args keywords, e.kind ≠ .call func args keywords) :
    v.leaveExpr (Stage.generic.passes.drop 4) e ctx s = .ok e s := by
  refine run_leaveExpr_of_all_keep fun p hp => ?_
  simp only [Stage.passes, drop_succ_cons, drop_zero, mem_cons, not_mem_nil, or_false] at hp
  obtain ⟨pos, kind⟩ := e
  cases kind with
  | call => exact absurd rfl (he _ _ _)
  | _ =>
    rcases hp with rfl | rfl | rfl | rfl | rfl
    · rfl
    · rfl
    · rfl
    · rfl
    · change (if !ctx.config.inlining then (pure .keep : Visit ExprStep) else pure .keep) ctx s = _
      rw [ite_self]
      rfl

theorem Visitor.run_leave_name (v : Visitor) (pos : Position) (id : Ident) (ctx : Context) (s : State) :
    v.leaveExpr (Stage.generic.passes.drop 3) ⟨pos, .name id⟩ ctx s = .ok ⟨pos, .name id⟩ s := by
  have hfolding : Pass.folding.leaveExpr ⟨pos, .name id⟩ ctx s = .ok .keep s := by
    change (if !ctx.config.constantFolding then (pure .keep : Visit ExprStep) else pure .keep) ctx s = _
    rw [ite_self]
    rfl
  exact (run_leaveExpr_of_keep hfolding _).trans (run_leaveExpr_late (by simp))

theorem Visitor.run_leave_const (hstage : ctx.stage ≠ .specialize) (pos : Position) (value : Value) :
    v.leaveExpr ctx.stage.passes ⟨pos, .const value⟩ ctx s = .ok ⟨pos, .const value⟩ s := by
  have hfolding : Pass.folding.leaveExpr ⟨pos, .const value⟩ ctx s = .ok .keep s := by
    change (if !ctx.config.constantFolding then (pure .keep : Visit ExprStep) else pure .keep) ctx s = _
    rw [ite_self]
    rfl
  rw [Stage.passes_of_ne hstage, run_leaveExpr_of_keep rfl, run_leaveExpr_of_keep rfl, run_leaveExpr_of_keep rfl,
    run_leaveExpr_of_keep hfolding]
  exact run_leaveExpr_late (by simp)

def Propagation.reading? (config : Config) (scope : Scope) (enclosing : List Scope) (known : Namespace) (id : Ident) :
    Option Value :=
  if id = "__debug__" ∧ config.replaceBuiltinConstant && Scope.isBuiltin (scope :: enclosing) id then
    some (.bool true)
  else value? config scope known id

theorem Propagation.reading?_of_not_debug {config scope enclosing}
    (h : id = "__debug__" → Scope.isBuiltin (scope :: enclosing) id = false) (known : Namespace) :
    reading? config scope enclosing known id = value? config scope known id := by
  refine if_neg fun hdebug => ?_
  rw [h hdebug.1, Bool.and_false] at hdebug
  cases hdebug.2

theorem Visitor.ensures_read (n : Nat) (hstage : ctx.stage ≠ .specialize) (s : State) (pos : Position) (id : Ident) :
    Ensures ((visitor (n + 1)).expr ⟨pos, .name id⟩) (fun _ => False)
      (fun new s' => s.Logs s' ∧
        new = (reading? ctx.config s.scope ctx.enclosing s.known id).elim ⟨pos, .name id⟩ (Value.toExpr pos))
      ctx s := by
  have hpasses : ctx.stage.passes = Pass.tracking :: Pass.debugConstant :: Pass.propagation ::
      Stage.generic.passes.drop 3 := Stage.passes_of_ne hstage
  refine ensures_visitExpr rfl (fun _ _ _ h => h) ?_
  change Ensures ((visitor n).leaveExpr ctx.stage.passes ⟨pos, .name id⟩) _ _ ctx s
  unfold Ensures
  rw [hpasses, run_leaveExpr_of_keep rfl]
  by_cases hdebug : id = "__debug__" ∧ ctx.config.replaceBuiltinConstant &&
    Scope.isBuiltin (s.scope :: ctx.enclosing) id
  · have hreading : reading? ctx.config s.scope ctx.enclosing s.known id = some (.bool true) := if_pos hdebug
    obtain ⟨rfl, hbuiltin⟩ := hdebug
    have hreplace : Pass.debugConstant.leaveExpr ⟨pos, .name "__debug__"⟩ ctx s =
        .ok (.replace ⟨pos, .const (.bool true)⟩) s := by
      change (if ctx.config.replaceBuiltinConstant && Scope.isBuiltin (s.scope :: ctx.enclosing) "__debug__" then
        (pure (.replace ⟨pos, .const (.bool true)⟩) : Visit ExprStep) else _) ctx s = _
      rw [hbuiltin]
      rfl
    rw [hreading, Visitor.leaveExpr, run_bind, hreplace]
    exact ⟨.refl s, rfl⟩
  · have hreading : reading? ctx.config s.scope ctx.enclosing s.known id =
        value? ctx.config s.scope s.known id := if_neg hdebug
    have hkeep : Pass.debugConstant.leaveExpr ⟨pos, .name id⟩ ctx s = .ok .keep s := by
      by_cases hid : id = "__debug__"
      · subst hid
        have hbuiltin : ¬ (ctx.config.replaceBuiltinConstant &&
            Scope.isBuiltin (s.scope :: ctx.enclosing) "__debug__") = true := fun h => hdebug ⟨rfl, h⟩
        change (if ctx.config.replaceBuiltinConstant && Scope.isBuiltin (s.scope :: ctx.enclosing) "__debug__" then
          (pure (.replace _) : Visit ExprStep) else _) ctx s = _
        rw [if_neg hbuiltin]
        rfl
      · exact run_debugConstant (fun h => absurd h hid) pos
    have hknown : Pass.propagation.leaveExpr ⟨pos, .name id⟩ ctx s = _ := run_knownVariable pos id ctx s
    rw [run_leaveExpr_of_keep hkeep, hreading]
    cases hvalue : value? ctx.config s.scope s.known id with
    | none =>
      rw [hvalue] at hknown
      rw [run_leaveExpr_of_keep hknown, run_leave_name]
      exact ⟨.refl s, rfl⟩
    | some v =>
      rw [hvalue] at hknown
      rw [Visitor.leaveExpr, run_bind, hknown]
      simp only [Value.sameKind_toExpr_name, Bool.false_eq_true, if_false]
      exact ⟨⟨[_], rfl⟩, rfl⟩

theorem Visitor.ensures_name (n : Nat) (hstage : ctx.stage ≠ .specialize)
    (hdebug : id = "__debug__" → Scope.isBuiltin (s.scope :: ctx.enclosing) id = false) (pos : Position) :
    Ensures ((visitor (n + 1)).expr ⟨pos, .name id⟩) (fun _ => False)
      (fun new s' => s.Frame s' ∧ new = match value? ctx.config s.scope s.known id with
        | some v => v.toExpr pos
        | none => ⟨pos, .name id⟩) ctx s := by
  refine (ensures_read n hstage s pos id).imp fun new s' h => ?_
  obtain ⟨⟨texts, rfl⟩, hnew⟩ := h
  rw [reading?_of_not_debug hdebug] at hnew
  refine ⟨⟨rfl, rfl, rfl, rfl⟩, ?_⟩
  rw [hnew]
  cases value? ctx.config s.scope s.known id <;> rfl

end Speculator
