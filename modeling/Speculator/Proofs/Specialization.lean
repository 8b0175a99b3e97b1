import Speculator.Proofs.Outcome.Modules
import Speculator.Tree.Equality

/-!
# Specialized functions mean the same

A module that consists of one function, which returns a plain expression.  The optimizer rewrites the expression in
three stages and puts the names of the builtins that it evaluated under guards.  Each stage keeps the meaning of the
expression as long as the guards of its end hold, and guards are only added; so the expression of the fast version
means the same as the original one as long as the guards of the function hold.  The slow version is made without
guards, and its expression means the same wherever it is evaluated (`optimize_returning`).
-/

namespace Speculator

open List Visit

/-! ### Functions that return an expression -/

def FunctionDef.returning (f : Ident) (ps : List Ident) (at' : Position) (e : Expr) : FunctionDef :=
  ⟨f, ⟨ps, none, [], [], none, []⟩, [⟨at', .ret (some e)⟩], [], false⟩

def Stmt.returning (pos : Position) (f : Ident) (ps : List Ident) (at' : Position) (e : Expr) : Stmt :=
  ⟨pos, .functionDef (.returning f ps at' e)⟩

/-- What such a function may do: call the names that neither the function nor its module binds. -/
def Fragment.ofFunction (f : Ident) (ps : List Ident) : Fragment :=
  { reads := fun id => id ≠ "__debug__"
    calls := fun id => id ≠ "__debug__" ∧ id ≠ f ∧ id ∉ ps
    sets := true }

/-- Two expressions mean the same wherever `None` is itself and the named builtins do what the catalog says. -/
def SameMeaning (config : Config) (names : List Ident) (e new : Expr) : Prop :=
  ∀ {ε : Type} (m : Meaning ε) (env : Env), m.identical .none .none = .ok true → m.Respects config names →
    new.eval m env = e.eval m env

theorem SameMeaning.refl (config : Config) (names : List Ident) (e : Expr) : SameMeaning config names e e :=
  fun _ _ _ _ => rfl

theorem SameMeaning.trans {config names more e1 e2 e3}
    (h : SameMeaning config names e1 e2) (hmore : names ⊆ more) (h' : SameMeaning config more e2 e3) :
    SameMeaning config more e1 e3 :=
  fun m env hid hrespects => (h' m env hid hrespects).trans (h m env hid fun id hmem => hrespects id (hmore hmem))

theorem Node.mapM_bindings_eq_nil {nodes : List Node} (h : ∀ node ∈ nodes, node.bindings = .ok []) :
    nodes.mapM Node.bindings = .ok (nodes.map fun _ => []) := by
  induction nodes with
  | nil => rfl
  | cons node nodes ih =>
    rw [mapM_cons, h node (by simp), ih fun n hn => h n (by simp [hn])]
    rfl

theorem Variables.ofBody_return (at' : Position) (e : Expr) (names : List Ident) :
    ∃ vars, Variables.ofBody [⟨at', .ret (some e)⟩] names = .ok vars ∧
      ∀ id, id ∉ names → vars.locals.contains id = false := by
  have hnodes : ∀ node ∈ Stmt.nodesList Node.inScope [⟨at', .ret (some e)⟩], node.bindings = .ok [] := by
    intro node hnode
    simp only [Stmt.nodesList, Stmt.nodes, StmtKind.nodes, Expr.nodesOption, append_nil] at hnode
    rcases mem_cons.mp hnode with rfl | hnode
    · rfl
    · split at hnode
      · exact Node.bindings_of_isExpr (e.isExpr_nodes node hnode)
      · cases hnode
  simp only [Variables.ofBody, Node.mapM_bindings_eq_nil hnodes]
  refine ⟨_, rfl, fun id hid => ?_⟩
  simp [Variables.ofBindings, hid]

section Function

variable {f : Ident} {ps : List Ident} {pos at' : Position} {config : Config} {n : Nat} {ctx : Context} {s : State}
  {e : Expr}

theorem ensures_return {fr} (hctx : Suits fr ctx) (he : e.Plain fr) (hr : Ready fr s) :
    Ensures ((visitor n).stmt ⟨at', .ret (some e)⟩) (fun _ => True) (fun ts s' => ∃ new,
      ts = [⟨at', .ret (some new)⟩] ∧ Visitor.Result fr ctx e s new s') ctx s := by
  cases n with
  | zero => exact trivial
  | succ n =>
    refine Visitor.ensures_visitStmt rfl (fun _ _ _ _ => trivial) ?_
    have hvisit : Ensures ((visitor n).expr e) (fun _ => True) (Visitor.Result fr ctx e s) ctx s :=
      (visitor_rewrites hctx (Nat.le_refl 1) n e s he hr).mono (fun _ _ => trivial) fun _ _ h => h
    have hchildren : Ensures ((visitor n).stmtChildren ⟨at', .ret (some e)⟩) (fun _ => True)
        (fun t s' => ∃ new, t = ⟨at', .ret (some new)⟩ ∧ Visitor.Result fr ctx e s new s') ctx s := by
      change Ensures ((some <$> (visitor n).expr e) >>= fun value => pure (⟨at', .ret value⟩ : Stmt)) _ _ ctx s
      rw [map_eq_pure_bind, bind_assoc]
      exact hvisit.bind fun new s' h => .pure ⟨new, rfl, h⟩
    refine hchildren.bind fun t s' h => ?_
    obtain ⟨new, rfl, h⟩ := h
    exact Visitor.ensures_leaveStmt_of_inert rfl ⟨new, rfl, h⟩

/-- What the definition of the function becomes: one with the same meaning, or that of a specialized function, whose
slow version has the same meaning and whose fast version has it under its guards. -/
def Specializes (config : Config) (pos : Position) (f : Ident) (ps : List Ident) (at' : Position) (e : Expr)
    (ts : List Stmt) (support : Bool) : Prop :=
  (∃ new, ts = [Stmt.returning pos f ps at' new] ∧ SameMeaning config [] e new ∧ support = false) ∨
    ∃ slow fast guards kept,
      ts = Specialize.definitions (Stmt.returning pos f ps at' slow) (.returning f ps at' fast) guards [] kept ∧
        SameMeaning config [] e slow ∧ SameMeaning config guards.builtinNames e fast ∧ support = true

theorem Specializes.endsBody {ts} {support : Bool} (h : Specializes config pos f ps at' e ts support) :
    ∀ t ∈ ts, t.endsBody = false := by
  intro t ht
  rcases h with ⟨new, rfl, _⟩ | ⟨slow, fast, guards, kept, rfl, _⟩
  · rw [mem_singleton.mp ht]
    rfl
  · rcases Specialize.mem_definitions ht with rfl | rfl | rfl | rfl | rfl | rfl | rfl <;> rfl

theorem GuardSet.builtinNames_of_isEmpty {guards : GuardSet} (h : guards.isEmpty = true) :
    guards.builtinNames = [] := by
  unfold GuardSet.isEmpty at h
  unfold GuardSet.builtinNames
  rw [isEmpty_iff.mp h]
  rfl

theorem Specialize.ensures_specialize_pair {bad : Failure → Prop} {scope slow fast}
    (hcopied : scope.copied = []) (hslow : SameMeaning config [] e slow)
    (hfast : SameMeaning config scope.guards.builtinNames e fast) :
    Ensures (Specialize.specialize scope (Stmt.returning pos f ps at' slow) (.returning f ps at' fast)) bad
      (fun ts s' => Specializes config pos f ps at' e ts s'.needsSupport) ctx s := by
  refine Specialize.ensures_definitions fun log => ?_
  rw [hcopied]
  exact .inr ⟨slow, fast, scope.guards, _, rfl, hslow, hfast, rfl⟩

variable (hconfig : ctx.config = config) (hinlining : config.inlining = false)
  (hcopying : config.copyBuiltinToConstant = false) (hregular : config.catalog.Regular)
  (he : e.Plain (.ofFunction f ps))
include hconfig hinlining hcopying hregular he

theorem ensures_stage {stage} {allowGuards : Bool} {scope} :
    Ensures ((visitor n).functionStage stage allowGuards scope (.returning f ps at' e)) (fun _ => True)
      (fun r s' => ∃ new, r.1 = .returning f ps at' new ∧ new.Plain (.ofFunction f ps) ∧
        SameMeaning config r.2.guards.builtinNames e new ∧ scope.guards.builtinNames ⊆ r.2.guards.builtinNames ∧
        (allowGuards = false → r.2.guards = scope.guards) ∧ r.2.copied = scope.copied ∧
        s'.needsSupport = s.needsSupport) ctx s := by
  subst hconfig
  obtain ⟨vars, hvars, hlocals⟩ := Variables.ofBody_return at' e (FunctionDef.returning f ps at' e).params.names
  have hsuits : Suits (.ofFunction f ps) (ctx.inside s.scope stage allowGuards) :=
    ⟨fun _ => hinlining, fun _ _ => hcopying, fun _ hid => hid.1, fun hdebug => hdebug rfl,
      fun id c args v _ hc => hregular id c hc args v⟩
  have hready : Ready (.ofFunction f ps) (s.inside { scope with vars := vars, functions := [] }) := by
    refine ⟨fun id hid => hlocals id ?_, fun id v _ hv => by cases hv⟩
    simpa [FunctionDef.returning, Params.names] using hid.2.2
  refine Visitor.ensures_functionStage_of_ok hvars (Visitor.ensures_body_of_kept ?_)
  change Ensures ([⟨at', .ret (some e)⟩].flatMapM (visitor n).stmt) _ _ _ _
  rw [flatMapM_cons]
  refine (ensures_return hsuits he hready).bind fun ts s1 h => ?_
  obtain ⟨new, rfl, hrewrites, hgrows⟩ := h
  refine .pure ⟨by simp, new, rfl, hrewrites.plain, ?_, ?_, fun hallow => ?_, hgrows.copied, hgrows.support⟩
  -- a stage starts without known values, so that nothing is asked of the variables
  · intro ε m env hid hrespects
    refine (hrewrites.alike m env ⟨hid, fun _ => hrespects, fun id v _ hv => ?_⟩).1
    rw [hgrows.known] at hv
    cases hv
  · exact fun id hid => hgrows.guarded id hid
  · refine hgrows.unguarded fun htrue => ?_
    rw [hallow] at htrue
    cases htrue

theorem ensures_function (hsupport : s.needsSupport = false) :
    Ensures ((visitor n).function (Stmt.returning pos f ps at' e) (.returning f ps at' e)) (fun _ => True)
      (fun r s' => Visitor.Gives (fun ts => Specializes config pos f ps at' e ts s'.needsSupport) r) ctx s := by
  obtain ⟨vars, hvars, _⟩ := Variables.ofBody_return at' e (FunctionDef.returning f ps at' e).params.names
  unfold Visitor.function
  change Ensures (Visitor.analyzed (Variables.ofBody [⟨at', .ret (some e)⟩] _) >>= _) _ _ ctx s
  rw [hvars, Visitor.analyzed, pure_bind]
  refine (ensures_stage hconfig hinlining hcopying hregular he).bind fun r1 s1 h1 => ?_
  obtain ⟨slow, scope1⟩ := r1
  obtain ⟨e1, rfl, he1, hsame1, _, hguards1, hcopied1, hsupport1⟩ := h1
  -- the first stage adds no guards, so that its result can be relied on whatever happens to the builtins
  have hslow : SameMeaning config [] e e1 := by
    rw [hguards1 rfl] at hsame1
    exact hsame1
  dsimp only
  rw [if_neg (by simp [FunctionDef.returning])]
  refine (ensures_stage hconfig hinlining hcopying hregular he1).bind fun r2 s2 h2 => ?_
  obtain ⟨fast, scope2⟩ := r2
  obtain ⟨e2, rfl, he2, hsame2, _, _, hcopied2, hsupport2⟩ := h2
  have hsame : SameMeaning config scope2.guards.builtinNames e e2 := hslow.trans (nil_subset _) hsame2
  dsimp only at hcopied1 hcopied2 ⊢
  -- without guards the fast version takes the place of the function
  split
  · rename_i hguards
    rw [if_pos (by rw [hcopied2, hcopied1]; rfl)]
    rw [GuardSet.builtinNames_of_isEmpty hguards] at hsame
    refine .pure ⟨rfl, .inl ⟨e2, rfl, hsame, ?_⟩⟩
    rw [hsupport2, hsupport1, hsupport]
  · refine (ensures_stage hconfig hinlining hcopying hregular he2).bind fun r3 s3 h3 => ?_
    obtain ⟨fast', scope3⟩ := r3
    obtain ⟨e3, rfl, _, hsame3, hnames3, _, hcopied3, _⟩ := h3
    dsimp only at hcopied3 ⊢
    refine (Specialize.ensures_specialize_pair ?_ hslow (hsame.trans hnames3 hsame3)).bind fun ts s4 h4 =>
      .pure h4
    rw [hcopied3, hcopied2, hcopied1]

theorem ensures_definition (hsupport : s.needsSupport = false) :
    Ensures ((visitor n).stmt (Stmt.returning pos f ps at' e)) (fun _ => True)
      (fun ts s' => Specializes config pos f ps at' e ts s'.needsSupport) ctx s := by
  cases n with
  | zero => exact trivial
  | succ n =>
    refine Visitor.ensures_visitDefinition (fun _ _ _ _ => trivial) (.pure ?_)
    refine (Pass.ensures_enterAll _).imp fun _ s1 hs1 => ?_
    have hsupport1 := hs1.2.2.2.1.trans hsupport
    refine Visitor.ensures_stmtInside rfl ?_ (fun _ heq => ?_) fun _ heq => ?_
    · exact ⟨rfl, .inl ⟨e, rfl, SameMeaning.refl _ _ e, hsupport1⟩⟩
    · cases heq
      exact ensures_function hconfig hinlining hcopying hregular he (hsupport1)
    · cases heq

end Function

/-! ### Modules of one function -/

section Modules

variable (config : Config) (filename : String) (source : Option String) (pos : Position) (f : Ident) (ps : List Ident)
  (at' : Position) (e : Expr)

theorem Module.settled_returning : (⟨[Stmt.returning pos f ps at' e]⟩ : Module).Settled config := by
  refine ⟨?_, trivial⟩
  simp only [Stmt.returning, FunctionDef.returning, Stmt.Settled, FunctionDef.Steady]
  refine ⟨False.elim, .inr ⟨fun _ => True, fun _ _ => trivial, ?_⟩⟩
  simp [Stmt.SettledList, Stmt.Settled]

variable {config e}

theorem Module.ensures_visit_returning {ctx s} (n : Nat) (hctx : ctx.Initial config) (hs : s.Initial)
    (hinlining : config.inlining = false) (hcopying : config.copyBuiltinToConstant = false)
    (hregular : config.catalog.Regular) (he : e.Plain (.ofFunction f ps)) :
    Ensures (Module.visit (visitor n) ⟨[Stmt.returning pos f ps at' e]⟩) (fun _ => True) (fun new _ =>
      (∃ e', new = ⟨[Stmt.returning pos f ps at' e']⟩ ∧ SameMeaning config [] e e') ∨
      ∃ slow fast guards kept, new = ⟨supportImport ::
        Specialize.definitions (Stmt.returning pos f ps at' slow) (.returning f ps at' fast) guards [] kept⟩ ∧
          SameMeaning config [] e slow ∧ SameMeaning config guards.builtinNames e fast) ctx s := by
  refine Module.ensures_visit_of_body (fun _ _ => .inl ⟨e, rfl, SameMeaning.refl _ _ e⟩) fun vars => ?_
  have hbody : ∀ {s}, s.needsSupport = false → Ensures ((visitor n).body false [Stmt.returning pos f ps at' e])
      (fun _ => True) (fun ts s' => Specializes config pos f ps at' e ts s'.needsSupport) ctx s := by
    intro s hsupport
    refine Visitor.ensures_body_of_kept ?_
    rw [flatMapM_cons]
    refine (ensures_definition hctx.config hinlining hcopying hregular he hsupport).bind fun ts s' h => ?_
    refine .pure ⟨fun t ht => h.endsBody t ?_, ?_⟩
    · simpa using (dropLast_sublist _).subset ht
    · simpa [Stmt.filled] using h
  refine Ensures.imp (hbody (by exact hs.support)) fun ts s' h => ?_
  rcases h with ⟨new, rfl, hsame, hs'⟩ | ⟨slow, fast, guards, kept, rfl, hslow, hfast, hs'⟩
  · rw [hs']
    exact .inl ⟨new, rfl, hsame⟩
  · rw [hs']
    exact .inr ⟨slow, fast, guards, kept, rfl, hslow, hfast⟩

/-- A function that returns an expression keeps its meaning: its new expression means the same, or it gets two
versions.  The expression of the slow version means the same, and that of the fast version does so wherever the
builtins of its guards do what the catalog says.  The optimizer only fails when machine integers overrun in folding an
operation, or when a function of the catalog raises an exception that is not tolerated. -/
theorem optimize_returning (hinlining : config.inlining = false) (hcopying : config.copyBuiltinToConstant = false)
    (hregular : config.catalog.Regular) (he : e.Plain (.ofFunction f ps)) :
    let report := optimize config filename source ⟨[Stmt.returning pos f ps at' e]⟩
    report.overrun = true ∨
    (∃ new, report.result = .ok ⟨[Stmt.returning pos f ps at' new]⟩ ∧ SameMeaning config [] e new) ∨
    (∃ slow fast guards kept, report.result = .ok ⟨supportImport ::
        Specialize.definitions (Stmt.returning pos f ps at' slow) (.returning f ps at' fast) guards [] kept⟩ ∧
        SameMeaning config [] e slow ∧ SameMeaning config guards.builtinNames e fast) ∨
    ∃ failure name fault, report.result = .error failure ∧ failure.cause = .untolerated name fault ∧
      ¬ config.catalog.Tolerant config.limits := by
  intro report
  have hreport := Report.of_ensures (rfl : _ = report) fun ctx s hctx hs =>
    (Module.ensures_visit_returning pos f ps at' _ hctx hs hinlining hcopying hregular he).and
      (Module.ensures_initial ⟨[Stmt.returning pos f ps at' e]⟩ (Nat.le_refl _) hctx hs)
  refine .inr ?_
  cases hrun : report.result with
  | ok new =>
    rw [hrun] at hreport
    obtain ⟨_, ⟨⟨new, rfl, hsame⟩ | ⟨slow, fast, guards, kept, rfl, hversions⟩, _⟩, _⟩ := hreport
    · exact .inl ⟨new, rfl, hsame⟩
    · exact .inr (.inl ⟨slow, fast, guards, kept, rfl, hversions⟩)
  | error failure =>
    rw [hrun] at hreport
    rcases hreport.2 with ⟨hnot, name, fault, hcause⟩ | ⟨hnot, _⟩ | ⟨hnot, _⟩
    · exact .inr (.inr ⟨failure, name, fault, rfl, hcause, hnot⟩)
    · exact (hnot ⟨hinlining, Module.settled_returning config pos f ps at' e⟩).elim
    · exact (hnot hinlining).elim

end Modules

set_option maxRecDepth 100000 in
/-- `def f(): return len("abc")` gets a fast version. -/
theorem optimize_returning_length :
    let e : Expr := ⟨{}, .call ⟨{}, .name "len"⟩ [⟨{}, .const (.str "abc")⟩] []⟩
    (optimize {} "m.py" none ⟨[Stmt.returning {} "f" [] {} e]⟩).overrun = false ∧
    ∃ slow fast guards kept, (optimize {} "m.py" none ⟨[Stmt.returning {} "f" [] {} e]⟩).result =
      .ok ⟨supportImport ::
        Specialize.definitions (Stmt.returning {} "f" [] {} slow) (.returning "f" [] {} fast) guards [] kept⟩ ∧
      SameMeaning {} [] e slow ∧ SameMeaning {} guards.builtinNames e fast := by
  intro e
  have hrun : (optimize {} "m.py" none ⟨[Stmt.returning {} "f" [] {} e]⟩).overrun = false ∧
      (optimize {} "m.py" none ⟨[Stmt.returning {} "f" [] {} e]⟩).result.toOption.map (·.body.length) = some 7 := by
    decide +kernel
  obtain ⟨hoverrun, hlength⟩ := hrun
  have he : e.Plain (.ofFunction "f" []) := by
    simp [e, Expr.Plain, Expr.AllPlain, Fragment.ofFunction, Value.isConstant]
  have hregular : ({} : Config).catalog.Regular := Catalog.regular_standard
  rcases optimize_returning "m.py" none {} "f" [] {} rfl rfl hregular he with
    htrue | ⟨new, hrun, _⟩ | hpair | ⟨failure, name, fault, _, _, hnot⟩
  · rw [hoverrun] at htrue
    cases htrue
  · rw [hrun] at hlength
    cases hlength
  · exact ⟨hoverrun, hpair⟩
  · exact (hnot (Catalog.tolerant_standard _)).elim

set_option maxRecDepth 100000 in
/-- `def f(): return None is None` becomes `def f(): return True`, which means something else where values cannot be
compared for identity.  And where a function of the catalog returns a set with a repeated item, the display that takes
the place of its call gives another set. -/
theorem optimize_returning_identity :
    (let e : Expr := ⟨{}, .compare ⟨{}, .const .none⟩ [.is] [⟨{}, .const .none⟩]⟩
      let m : Meaning Fault := ⟨id, fun _ => .typeError, fun _ _ => .error .typeError, Value.compare .is⟩
      ∃ new, (optimize {} "m.py" none ⟨[Stmt.returning {} "f" [] {} e]⟩).result =
          .ok ⟨[Stmt.returning {} "f" [] {} new]⟩ ∧
        new.eval m (fun _ => none) = .ok (.bool true) ∧ e.eval m (fun _ => none) = .error .typeError) ∧
    let double : Value := .set [.none, .none]
    let config : Config := { catalog := ⟨[("b", ⟨"b", 0, some 0, [], none, [], fun _ => .ok double⟩)], []⟩ }
    let guards : GuardSet := ⟨[.builtins ["b"]]⟩
    let e : Expr := ⟨{}, .call ⟨{}, .name "b"⟩ [] []⟩
    let fast : Expr := ⟨{}, .set [⟨{}, .const .none⟩, ⟨{}, .const .none⟩]⟩
    let m : Meaning Fault := ⟨id, fun _ => .typeError, fun _ _ => .ok double, fun _ _ => .ok true⟩
    ((optimize config "m.py" none ⟨[Stmt.returning {} "f" [] {} e]⟩).result.toOption ==
      some ⟨supportImport :: Specialize.definitions (Stmt.returning {} "f" [] {} e)
        (.returning "f" [] {} fast) guards []
        "_ast_optimized"⟩) = true ∧ m.Respects config guards.builtinNames ∧
      fast.eval m (fun _ => none) = .ok (.set [.none]) ∧ e.eval m (fun _ => none) = .ok double := by
  refine ⟨⟨⟨{}, .const (.bool true)⟩, rfl, by rw [Expr.eval], by simp only [Expr.eval]; rfl⟩, by decide +kernel,
    ?_, ?_,
    ?_⟩
  · intro id hid c hc args v hv
    rw [Contract.call_of_evaluate hv |>.symm]
    cases mem_singleton.mp hid
    cases hc
    rfl
  · have hset : Value.collectSet [.none, .none] = .ok [.none] := by
      simp [Value.collectSet, Value.isHashable, Value.insertItem, Value.equals]
    simp only [Expr.eval, Expr.evals]
    change ((Value.collectSet [.none, .none]).map Value.set).mapError id = _
    rw [hset]
    rfl
  · simp only [Expr.eval, Expr.evals]
    rfl

end Speculator
