import Speculator.Proofs.Depth
import Speculator.Proofs.Parts
import Speculator.Proofs.Replacements

/-!
# How the visits of expressions end

Under a regime a visit ends in a way that is known in advance.  As long as nothing is inlined, the result is not
deeper than the expression, so that the bound on the depth of the visits is never met; and a reference stays a
reference, so that the analysis of a rewritten function succeeds where that of the function did.

`Visitor.Tame` says this of the expressions and the statements up to a depth.
-/

namespace Speculator

open Visit

/-! ### Regimes -/

/-- What is known of a run before it starts. -/
structure Regime where
  config : Config
  /-- Nothing is inlined. -/
  calm : Prop
  /-- The stores of all functions stay analyzable. -/
  sure : Prop
  inlining : calm → config.inlining = false
  calm_of_sure : sure → calm

namespace Regime

/-- The regime of code whose stores stay analyzable if nothing is inlined and it is settled. -/
def ofCode (c : Config) (settled : Prop) : Regime where
  config := c
  calm := c.inlining = false
  sure := c.inlining = false ∧ settled
  inlining := id
  calm_of_sure := And.left

def height (G : Regime) : Nat := G.config.limits.literalDepth

def Allows (G : Regime) (failure : Failure) : Prop :=
  (¬ G.config.catalog.Tolerant G.config.limits ∧ ∃ name fault, failure.cause = .untolerated name fault) ∨
    (¬ G.sure ∧ ∃ target line, failure = .unlocated (.complexAssignment target line)) ∨
    (¬ G.calm ∧ failure.cause = .depthExceeded)

/-- What holds throughout the visit of a scope in which the reads of the names `U` may be replaced. -/
structure Holds (G : Regime) (U : Ident → Prop) (ctx : Context) (s : State) : Prop where
  config : ctx.config = G.config
  replaced : ∀ id, G.config.Replaces id → U id
  known : G.sure → ∀ p ∈ s.known.values, U p.1
  copied : G.sure → ∀ p ∈ s.scope.copied, G.config.Copies p.1

variable {G : Regime} {U : Ident → Prop} {ctx : Context} {s s' : State}

theorem Holds.congr (h : G.Holds U ctx s) (hknown : s'.known.values = s.known.values)
    (hcopied : s'.scope.copied = s.scope.copied) : G.Holds U ctx s' :=
  ⟨h.config, h.replaced, hknown ▸ h.known, hcopied ▸ h.copied⟩

theorem Holds.notes (h : G.Holds U ctx s) (hs : s.Notes s') : G.Holds U ctx s' := by
  obtain ⟨log, rfl⟩ := hs
  exact h.congr rfl rfl

theorem Allows.locate {failure} (location node : String) (h : G.Allows failure) :
    G.Allows (failure.locate location node) := by
  cases failure with
  | located => exact h
  | unlocated cause =>
    cases cause with
    | complexAssignment => exact h
    | _ =>
      rcases h with h | ⟨_, _, _, h⟩ | h
      · exact .inl h
      · cases h
      · exact .inr (.inr h)

theorem one_le_height : 1 ≤ G.height := by
  unfold height Limits.literalDepth
  omega

end Regime

variable {G : Regime} {U : Ident → Prop} {ctx : Context} {s s' : State} {e new : Expr} {v : Visitor} {n : Nat}
  {pos : Position}

/-! ### Expressions -/

/-- What an expression may become. -/
structure Expr.Tamed (G : Regime) (U : Ident → Prop) (e new : Expr) : Prop where
  depth : new.depth G.height ≤ e.depth G.height
  anchored : G.sure → ∀ display, e.Anchored U display → new.Anchored U display
  isOpen : e.staysOpen G.config.catalog = true → new.staysOpen G.config.catalog = true
  attr : new.isAttr = e.isAttr
  name : ∀ id, new.name? = some id → e.name? = some id

namespace Expr.Tamed

theorem refl (e : Expr) : e.Tamed G U e := ⟨Nat.le_refl _, fun _ _ h => h, id, rfl, fun _ h => h⟩

theorem trans {e1 e2 e3 : Expr} (h : e1.Tamed G U e2) (h' : e2.Tamed G U e3) : e1.Tamed G U e3 :=
  ⟨Nat.le_trans h'.depth h.depth, fun hs d ha => h'.anchored hs d (h.anchored hs d ha),
    fun ho => h'.isOpen (h.isOpen ho), h'.attr.trans h.attr, fun id hid => h.name id (h'.name id hid)⟩

theorem of_depth (hd : new.depth G.height ≤ e.depth G.height) (ha : ∀ display, ¬ e.Anchored U display)
    (ho : new.staysOpen G.config.catalog = e.staysOpen G.config.catalog) (hattr : new.isAttr = e.isAttr)
    (hn : new.name? = none) : e.Tamed G U new := by
  refine ⟨hd, fun _ d had => (ha d had).elim, fun h => by rw [ho, h], hattr, fun id hid => ?_⟩
  rw [hn] at hid
  cases hid

end Expr.Tamed

theorem Value.isAttr_toExpr (v : Value) (pos : Position) : (v.toExpr pos).isAttr = false := by
  cases v with
  | tuple | frozenSet =>
    rw [Value.toExpr]
    split <;> rfl
  | _ => simp [Value.toExpr, Expr.isAttr]

theorem Value.name?_toExpr (v : Value) (pos : Position) : (v.toExpr pos).name? = Option.none := by
  cases v with
  | tuple | frozenSet =>
    rw [Value.toExpr]
    split <;> rfl
  | _ => simp [Value.toExpr, Expr.name?]

theorem Expr.Tamed.of_literal {value} (hd : G.height ≤ e.depth G.height)
    (ha : G.sure → ∀ display, ¬ e.Anchored U display) (ho : e.staysOpen G.config.catalog = false)
    (hattr : e.isAttr = false) (h : G.config.limits.literal? value pos = some new) : e.Tamed G U new := by
  have hdepth : new.depth G.height ≤ G.height := Limits.depth_of_literal? h
  cases Limits.eq_toExpr_of_literal? h
  refine ⟨Nat.le_trans hdepth hd, fun hs d had => (ha hs d had).elim, fun ho' => ?_, ?_, fun id hid => ?_⟩
  · rw [ho] at ho'
    cases ho'
  · rw [hattr, value.isAttr_toExpr]
  · rw [value.name?_toExpr] at hid
    cases hid

theorem Unrolling.depthList_instances {limits literals} (h : Literals limits literals) (part : Expr) (id : Ident) :
    Expr.depthList limits.literalDepth (instances part id literals) ≤ part.depth limits.literalDepth := by
  rw [Expr.depthList_le_iff]
  intro e he
  obtain ⟨l, hl, rfl⟩ := List.mem_map.mp he
  refine Expr.depth_substitute (fun p hp => ?_) part
  rw [List.mem_singleton.mp hp]
  obtain ⟨v, pos, hl⟩ := h.2 l hl
  exact Limits.depth_of_literal? hl

/-! ### The passes -/

def ExprStep.Tames (G : Regime) (U : Ident → Prop) (e : Expr) : ExprStep → Prop
  | .keep => True
  | .replace new => G.calm → e.Tamed G U new
  | .revisit _ => ¬ G.calm

/-- The pass makes no expression deeper and keeps references. -/
structure Pass.TamesExprs (p : Pass) (G : Regime) : Prop where
  enter : ∀ {U ctx s} e, G.Holds U ctx s → Ensures (p.enterExpr e) G.Allows
    (fun r s' => G.Holds U ctx s' ∧ ∀ new, r = some new → G.calm →
      new.depth G.height + 1 ≤ e.depth G.height ∧ e.Tamed G U new) ctx s
  leave : ∀ {U ctx s} e, G.Holds U ctx s → Ensures (p.leaveExpr e) G.Allows
    (fun step s' => G.Holds U ctx s' ∧ step.Tames G U e) ctx s

namespace Pass

theorem tamed_call {at' func args keywords value}
    (ha : ∀ display, ¬ Expr.Anchored U display ⟨pos, .call func args keywords⟩)
    (ho : (⟨pos, .call func args keywords⟩ : Expr).staysOpen G.config.catalog = false)
    (h : G.config.limits.literal? value at' = some new) : (⟨pos, .call func args keywords⟩ : Expr).Tamed G U new := by
  refine .of_literal ?_ (fun _ => ha) ho rfl h
  simp only [Expr.depth, ExprKind.depth]
  omega

theorem tamed_folded (h : Folding.Folded G.config.limits e new) : e.Tamed G U new := by
  cases h with
  | binary _ _ _ hnew | unary _ _ hnew | compared _ _ _ hnew | identical _ hnew =>
    refine .of_literal ?_ (fun _ => by simp [Expr.Anchored]) rfl rfl hnew
    simp only [Expr.depth, ExprKind.depth]
    omega
  | negated =>
    refine .of_depth ?_ (by simp [Expr.Anchored]) rfl rfl rfl
    simp only [Expr.depth, ExprKind.depth]
    omega
  | item hvalue _ _ hnew | slice hvalue _ _ _ _ hnew =>
    refine .of_literal ?_ (fun _ d had => ?_) rfl rfl hnew
    · simp only [Expr.depth, ExprKind.depth]
      omega
    · rw [Expr.Anchored] at had
      rw [Expr.literal?_of_anchored had] at hvalue
      cases hvalue
  | @searched _ _ _ display _ _ hnew =>
    have hdepth : display.depth G.height ≤ G.height := Limits.depth_of_literal? hnew
    refine .of_depth ?_ (by simp [Expr.Anchored]) rfl rfl rfl
    simp only [Expr.depth, ExprKind.depth, Expr.depthList]
    omega

theorem tames_of_leaves (h : G.Holds U ctx s) {step} (hstep : Leaves ctx s e step s') :
    G.Holds U ctx s' ∧ step.Tames G U e := by
  cases hstep with
  | keep hs => exact ⟨h.notes hs, trivial⟩
  | debug hs =>
    have hU : U "__debug__" := h.replaced _ (.inl rfl)
    refine ⟨h.notes hs, fun _ =>
      ⟨Regime.one_le_height, fun _ d had => ?_, fun ho => by simp [Expr.staysOpen] at ho, rfl,
      fun id hid => by cases hid⟩⟩
    rw [Expr.Anchored] at had
    exact (had hU).elim
  | @known pos id v new _ _ hv hnew hs =>
    rw [h.config] at hnew
    refine ⟨h.notes hs, fun _ => .of_literal (Nat.le_refl _) (fun hsure d had => ?_) rfl rfl hnew⟩
    -- a variable with a known value is one of the names that may be replaced
    have hU : U id := by
      unfold Namespace.get? at hv
      split at hv
      · cases hv
      · obtain ⟨l1, l2, hvalues, _⟩ := List.lookup_eq_some_iff.mp hv
        exact h.known hsure (id, v) (by rw [hvalues]; simp)
    rw [Expr.Anchored] at had
    exact had hU
  | folded hnew hs =>
    rw [h.config] at hnew
    exact ⟨h.notes hs, fun _ => tamed_folded hnew⟩
  | method _ hnew hs =>
    rw [h.config] at hnew
    exact ⟨h.notes hs, fun _ => tamed_call (by simp [Expr.Anchored]) rfl hnew⟩
  | builtin hc _ _ hnew _ hs =>
    rw [h.config] at hc hnew
    refine ⟨Regime.Holds.notes (s := s.addGuard _) (h.congr rfl rfl) hs, fun _ =>
      tamed_call (by simp [Expr.Anchored]) ?_ hnew⟩
    simp [Expr.staysOpen, Expr.name?, hc]

theorem allows_of_fails (hconfig : ctx.config = G.config) {failure} (h : Leaves.Fails ctx e failure) :
    G.Allows failure := by
  cases h with
  | method hc hfault =>
    rw [hconfig] at hc hfault
    exact .inl ⟨fun ht => ht.method _ _ _ hc _ _ hfault, _, _, rfl⟩
  | builtin hc hfault =>
    rw [hconfig] at hc hfault
    exact .inl ⟨fun ht => ht.builtin _ _ hc _ _ hfault, _, _, rfl⟩

theorem ensures_guarded {α : Type} {bad : Failure → Prop} {post : α → State → Prop} {g} {f : Bool → Visit α}
    (h : ∀ allowed s', s'.known = s.known → s'.scope.copied = s.scope.copied → Ensures (f allowed) bad post ctx s') :
    Ensures (Visit.addGuard g >>= f) bad post ctx s := by
  rw [ensures_addGuard_bind]
  split <;> exact h _ _ rfl rfl

theorem tamed_unrolled (h : Unrolling.Unrolled G.config.limits e new) :
    new.depth G.height + 1 ≤ e.depth G.height ∧ e.Tamed G U new := by
  have hitem : ∀ {literals}, Unrolling.Literals G.config.limits literals → ∀ part id,
      Expr.depthList G.height (Unrolling.instances part id literals) ≤ part.depth G.height :=
    fun h part id => Unrolling.depthList_instances h part id
  -- a comprehension counts for one more than the display, which is visited in its place
  cases h with
  | @list _ _ _ item id _ literals _ _ _ hliterals | @set _ _ _ item id _ literals _ _ _ hliterals =>
    have hitem := hitem hliterals item id
    refine ⟨?_, .of_depth ?_ (by simp [Expr.Anchored]) rfl rfl rfl⟩
    all_goals
      simp only [Expr.depth, ExprKind.depth]
      omega
  | @dict _ _ _ key value id _ literals _ _ _ _ hliterals =>
    have hkey := hitem hliterals key id
    have hvalue := hitem hliterals value id
    refine ⟨?_, .of_depth ?_ (by simp [Expr.Anchored]) rfl rfl rfl⟩
    all_goals
      simp only [Expr.depth, ExprKind.depth]
      omega

theorem tamesExprs_passes (stage : Stage) : ∀ p ∈ stage.passes, p.TamesExprs G := by
  intro p hp
  refine ⟨fun {U ctx s} e h => ?_, fun {U ctx s} e h => ?_⟩
  · refine (stage.unrolled_enterExpr hp).mono (fun _ h => h.elim) fun r s' hr => ?_
    refine ⟨h.notes hr.2, fun new hnew _ => ?_⟩
    have hunrolled := hr.1 new hnew
    rw [h.config] at hunrolled
    exact tamed_unrolled hunrolled
  rcases leaving_or stage p hp with hleaving | rfl | ⟨rfl, _⟩
  · exact (hleaving e ctx s).mono (fun _ hf => allows_of_fails h.config hf) fun _ _ hstep => tames_of_leaves h hstep
  · refine Inlining.ensures_leaveExpr.mono (fun _ h => h.elim) fun step s' hstep => ?_
    cases hstep with
    | keep => exact ⟨h, trivial⟩
    | @inlined _ _ _ _ _ _ guard? _ hinlining _ hs =>
      refine ⟨Regime.Holds.notes (s := guard?.elim s s.addGuard) ?_ hs, fun hcalm => ?_⟩
      · cases guard? <;> exact h.congr rfl rfl
      · rw [h.config, G.inlining hcalm] at hinlining
        cases hinlining
  · refine Placeholder.ensures_leaveExpr.mono (fun _ h => h.elim) fun step s' hstep => ?_
    obtain ⟨rfl, rfl | ⟨id, text, _, hcopy, hname, hknown, hcopied⟩⟩ := hstep
    · exact ⟨h, trivial⟩
    refine ⟨⟨h.config, h.replaced, by rw [hknown]; exact h.known, fun hs p hp => ?_⟩, trivial⟩
    rw [hcopied] at hp
    rcases List.mem_append.mp hp with hp | hp
    · exact h.copied hs p hp
    · rw [List.mem_singleton.mp hp, ← h.config]
      exact ⟨hcopy, hname⟩

end Pass

/-! ### Parts of expressions -/

/-- What a statement may become. -/
structure Stmt.Becomes (G : Regime) (strict : Prop) (U : Ident → Prop) (t : Stmt) (ts : List Stmt) : Prop where
  depth : G.calm → Stmt.depthList G.height ts ≤ t.depth G.height
  settled : G.sure → Stmt.SettledList G.config strict U ts

/-- The visits up to a depth make nothing deeper, keep references and leave stores analyzable.  Where the stores are
not considered, the reads of all names may be replaced. -/
structure Visitor.Tame (v : Visitor) (G : Regime) (n : Nat) : Prop where
  expr : ∀ {U ctx s} e, G.Holds U ctx s → (G.calm → e.depth G.height ≤ n) →
    Ensures (v.expr e) G.Allows (fun new s' => (G.calm → e.Tamed G U new) ∧ G.Holds U ctx s') ctx s
  stmt : ∀ {U ctx s strict} t, (∀ id, strict ∨ U id) → G.Holds U ctx s → (G.calm → t.depth G.height ≤ n) →
    (G.sure → t.Settled G.config strict U) →
    Ensures (v.stmt t) G.Allows (fun ts s' => t.Becomes G strict U ts ∧ G.Holds U ctx s') ctx s

/-- What the target of an assignment may become. -/
structure Expr.TamedTarget (G : Regime) (U : Ident → Prop) (t new : Expr) : Prop where
  depth : new.depth G.height ≤ t.depth G.height
  safe : G.sure → t.SafeTarget U → new.SafeTarget U
  name : ∀ id, new.name? = some id → t.name? = some id

theorem Expr.Tamed.staysOpen_call {args args' keywords keywords'}
    (h : e.Tamed G U new) (ho : (⟨pos, .call e args keywords⟩ : Expr).staysOpen G.config.catalog = true) :
    (⟨pos, .call new args' keywords'⟩ : Expr).staysOpen G.config.catalog = true := by
  simp only [Expr.staysOpen, Bool.and_eq_true] at ho ⊢
  refine ⟨by rw [h.attr]; exact ho.1, ?_⟩
  cases hn : new.name? with
  | none => rfl
  | some id =>
    rw [h.name id hn] at ho
    exact ho.2

theorem Expr.tamedTarget_rules :
    Expr.TargetRules (fun e new => G.calm → e.Tamed G U new) fun t new => G.calm → t.TamedTarget G U new := by
  have hsafe : G.calm → G.sure → Expr.TargetRules (fun e new => G.calm → e.Tamed G U new) fun t new =>
      t.SafeTarget U → new.SafeTarget U := fun hc hs => Expr.safeTarget_rules fun h => (h hc).anchored hs true
  have hbase : ∀ {value value' : Expr}, value' = value ∨ value.name? = none ∧ (G.calm → value.Tamed G U value') →
      G.calm → value'.depth G.height ≤ value.depth G.height := by
    rintro value value' (rfl | ⟨_, h⟩) hc
    · exact Nat.le_refl _
    · exact (h hc).depth
  constructor
  case name => exact fun _ => ⟨Nat.le_refl _, fun _ hs => hs, fun _ hid => hid⟩
  case tuple =>
    exact fun h hc => ⟨Expr.Rebuilds.depth_le (.tuple (h.imp fun _ _ hpart => (hpart hc).depth)),
      fun hs => (hsafe hc hs).tuple (h.imp fun _ _ hpart => (hpart hc).safe hs), fun _ hid => by cases hid⟩
  case list =>
    exact fun h hc => ⟨Expr.Rebuilds.depth_le (.list (h.imp fun _ _ hpart => (hpart hc).depth)),
      fun hs => (hsafe hc hs).list (h.imp fun _ _ hpart => (hpart hc).safe hs), fun _ hid => by cases hid⟩
  case starred =>
    exact fun h hc => ⟨Expr.Rebuilds.depth_le (.starred (h hc).depth), (h hc).safe, fun _ hid => by cases hid⟩
  case attr =>
    exact fun h hc => ⟨Expr.Rebuilds.depth_le (.attr (hbase h hc)), fun hs => (hsafe hc hs).attr h,
      fun _ hid => by cases hid⟩
  case subscript =>
    exact fun h hslice hc => ⟨Expr.Rebuilds.depth_le (.subscript (hbase h hc) (hslice hc).depth),
      fun hs => (hsafe hc hs).subscript h hslice, fun _ hid => by cases hid⟩
  case other => exact fun he h hc => ⟨(h hc).depth, fun hs => (hsafe hc hs).other he h, (h hc).name⟩

theorem Expr.Rebuilds.tamed (he : e.isScope = false) (h : e.Rebuilds (Expr.Tamed G U) new) : e.Tamed G U new := by
  have hdepth : new.depth G.height ≤ e.depth G.height := Expr.Rebuilds.depth_le (h.mono fun _ _ hpart => hpart.depth)
  cases h with
  | const | name => exact .refl _
  | lambda | listComp | setComp | generatorExp | dictComp => cases he
  | boolOp | set | tuple | binOp | ifExp | unaryOp | await | yieldFrom | yield | compare | slice =>
    exact .of_depth hdepth (by simp [Expr.Anchored]) rfl rfl rfl
  | dict | list => exact ⟨hdepth, fun _ d had => had, fun _ => rfl, rfl, fun id hid => by cases hid⟩
  | starred hvalue | attr hvalue =>
    exact ⟨hdepth, fun hs d had => hvalue.anchored hs true had, fun _ => rfl, rfl, fun id hid => by cases hid⟩
  | call hfunc =>
    refine ⟨hdepth, fun hs d had => ?_, fun ho => hfunc.staysOpen_call ho, rfl, fun id hid => by cases hid⟩
    obtain ⟨hattr, hanchored⟩ := Expr.anchored_call.mp had
    exact Expr.anchored_call.mpr ⟨hfunc.attr.trans hattr, hfunc.anchored hs true hanchored⟩
  | subscript hvalue =>
    exact ⟨hdepth, fun hs d had => hvalue.anchored hs false had, fun ho => by simp [Expr.staysOpen] at ho, rfl,
      fun id hid => by cases hid⟩

theorem Expr.tamed_of_scope (he : e.isScope = true) (hnew : new.isScope = true)
    (hd : new.depth G.height ≤ e.depth G.height) : e.Tamed G U new := by
  have hshape : ∀ a : Expr, a.isScope = true → (∀ display, ¬ a.Anchored U display) ∧
      a.staysOpen G.config.catalog = true ∧ a.isAttr = false ∧ a.name? = none := by
    intro a ha
    obtain ⟨pos, kind⟩ := a
    cases kind with
    | lambda | listComp | setComp | generatorExp | dictComp =>
      exact ⟨fun _ h => by simp [Expr.Anchored] at h, rfl, rfl, rfl⟩
    | _ => cases ha
  obtain ⟨hanchored, hopen, hattr, _⟩ := hshape e he
  obtain ⟨_, hopen', hattr', hname'⟩ := hshape new hnew
  exact .of_depth hd hanchored (hopen'.trans hopen.symm) (hattr'.trans hattr.symm) hname'

theorem Regime.Holds.enter (h : G.Holds U ctx s) {U' : Ident → Prop} (hU : ∀ id, G.config.Replaces id → U' id)
    {scope} (hcopied : G.sure → ∀ p ∈ scope.copied, G.config.Copies p.1) {stage} {allowGuards : Bool} :
    G.Holds U' (ctx.inside s.scope stage allowGuards) (s.inside scope) :=
  ⟨h.config, hU, fun _ p hp => by simp at hp, hcopied⟩

theorem Regime.Holds.ensures_inside {α : Type} {x : Visit α} {kind vars} {P : α → Prop} (h : G.Holds U ctx s)
    (hx : ∀ {ctx s}, G.Holds (fun _ => True) ctx s →
      Ensures x G.Allows (fun a s' => P a ∧ G.Holds (fun _ => True) ctx s') ctx s) :
    Ensures (Visitor.inside kind vars x) G.Allows (fun a s' => P a ∧ G.Holds U ctx s') ctx s := by
  rw [Visitor.ensures_inside]
  refine (hx (h.enter (fun _ _ => trivial) fun _ p hp => ?_)).imp fun a s' h' => ⟨h'.1, h.congr rfl rfl⟩
  simp at hp

namespace Visitor.Tame

variable (hv : v.Tame G n)

include hv

theorem visits (he : G.calm → e.depth G.height ≤ n) :
    Logic.Visits (I := Unit) (fun x post ctx s => Ensures (x ()) G.Allows post ctx s) (fun _ => v)
      (fun e new => G.calm → e.Tamed G U new) (G.Holds U ctx) ctx e := fun _ hs => hv.expr e hs he

theorem visits_depth (he : G.calm → e.depth G.height ≤ n) :
    Logic.Visits (I := Unit) (fun x post ctx s => Ensures (x ()) G.Allows post ctx s) (fun _ => v)
      (fun e new => G.calm → new.depth G.height ≤ e.depth G.height) (G.Holds U ctx) ctx e :=
  fun _ hs => (hv.expr e hs he).imp fun _ _ h => ⟨fun hc => (h.1 hc).depth, h.2⟩

omit hv in
theorem depth_parts (e : Expr) (he : G.calm → e.depth G.height ≤ n) : ∀ c ∈ e.parts, G.calm → c.depth G.height ≤ n :=
  fun _ hc hcalm => Nat.le_trans (Nat.le_of_lt (Expr.depth_part hc)) (he hcalm)

theorem target (t : Expr) (h : G.Holds U ctx s) (hd : G.calm → t.depth G.height ≤ n) :
    Ensures (v.target t) G.Allows (fun new s' => (G.calm → t.TamedTarget G U new) ∧ G.Holds U ctx s') ctx s :=
  (logic_ensures _).target depth_parts Expr.tamedTarget_rules (fun _ he => hv.visits he) hd h

omit hv in
theorem part_le {c} (hc : c ∈ e.parts) (hd : G.calm → e.depth G.height ≤ n + 1) (hcalm : G.calm) :
    c.depth G.height ≤ n := by
  have hlt : c.depth G.height < e.depth G.height := Expr.depth_part hc
  have hle := hd hcalm
  omega

omit hv in
theorem tamed_of_rebuilds (he : e.isScope = true)
    (h : e.Rebuilds (fun e new => G.calm → new.depth G.height ≤ e.depth G.height) new) (hc : G.calm) :
    e.Tamed G U new :=
  Expr.tamed_of_scope he (h.isScope.trans he) (Expr.Rebuilds.depth_le (h.mono fun _ _ hpart => hpart hc))

theorem exprHeader (h : G.Holds U ctx s) (e : Expr) (hd : G.calm → e.depth G.height ≤ n + 1) :
    Ensures (v.exprHeader e) G.Allows (fun new s' => (G.calm → e.Tamed G U new) ∧ G.Holds U ctx s') ctx s := by
  cases he : e.isScope with
  | false =>
    rw [v.exprHeader_eq_pure he]
    exact .pure ⟨fun _ => .refl e, h⟩
  | true =>
    refine ((logic_ensures _).exprHeader (fun _ _ => Nat.le_refl _) (fun c hc => hv.visits_depth
      (part_le (Expr.mem_parts_of_outside hc) hd)) h).imp fun new s' h' => ⟨fun hc => ?_, h'.2⟩
    exact tamed_of_rebuilds he h'.1.1 hc

theorem exprInside (h : G.Holds U ctx s) (e : Expr) (hd : G.calm → e.depth G.height ≤ n + 1) :
    Ensures (v.exprInside e) G.Allows (fun new s' => (G.calm → e.Tamed G U new) ∧ G.Holds U ctx s') ctx s := by
  unfold Visitor.exprInside
  cases he : e.isScope with
  | false =>
    refine ((logic_ensures _).exprChildren he (fun c hc => hv.visits (part_le (Expr.mem_parts_of_child hc) hd)) h).imp
      fun new s' h' => ⟨fun hc => ?_, h'.2⟩
    exact Expr.Rebuilds.tamed he (h'.1.mono fun _ _ hpart => hpart hc)
  | true =>
    simp only [Bool.not_true, Bool.false_eq_true, if_false, ensures_read_bind]
    split
    · have hrebuilt : ∀ {e new : Expr}, e.Rebuilds (fun e new => G.calm → new.depth G.height ≤ e.depth G.height) new →
          G.calm → new.depth G.height ≤ e.depth G.height := fun hnew hc =>
        Expr.Rebuilds.depth_le (hnew.mono fun _ _ hpart => hpart hc)
      have hlogs : ∀ s s', G.Holds U ctx s → s.Logs s' → G.Holds U ctx s' := by
        rintro s s' hs ⟨log, rfl⟩
        exact hs.congr rfl rfl
      -- every read may be replaced in the nested scope
      have hnested : ∀ s, G.Holds U ctx s → Logic.VisitsNested (I := Unit)
          (fun x post ctx s => Ensures (x ()) G.Allows post ctx s) (fun _ => v)
          (fun e new => G.calm → new.depth G.height ≤ e.depth G.height) (fun e => G.calm → e.depth G.height ≤ n)
          (G.Holds U ctx) ctx s :=
        fun s hs kind vars _ => ⟨G.Holds (fun _ => True) _, hs.enter (fun _ _ => trivial) fun _ p hp => by simp at hp,
          fun s' _ => hs.congr rfl rfl, fun c hc => hv.visits_depth hc⟩
      refine ((logic_ensures _).exprScope depth_parts (fun _ _ => Nat.le_refl _) hrebuilt hlogs hnested
        (fun c hc => part_le (Expr.mem_parts_of_inside hc) hd) h).imp ?_
      exact fun new s' h' => ⟨tamed_of_rebuilds he h'.1, h'.2⟩
    · exact .pure ⟨fun _ => .refl e, h⟩

/-! ### Visits of expressions -/

theorem enterExpr (h : G.Holds U ctx s) (e : Expr) (hd : G.calm → e.depth G.height ≤ n + 1) {ps}
    (hps : ∀ p ∈ ps, p.TamesExprs G) :
    Ensures (v.enterExpr ps e) G.Allows
      (fun r s' => (∀ new, r = some new → G.calm → e.Tamed G U new) ∧ G.Holds U ctx s') ctx s := by
  induction ps generalizing s with
  | nil => exact .pure ⟨fun _ hnew => (by cases hnew), h⟩
  | cons p ps ih =>
    unfold Visitor.enterExpr
    refine ((hps p (by simp)).enter e h).bind fun r s1 h1 => ?_
    cases r with
    | none => exact ih h1.1 fun q hq => hps q (by simp [hq])
    | some entered =>
      have hentered := h1.2 entered rfl
      refine (hv.expr entered h1.1 fun hc => ?_).bind fun new s2 h2 => ?_
      · have := hd hc
        have := (hentered hc).1
        omega
      refine .pure ⟨fun new' hnew hc => ?_, h2.2⟩
      cases hnew
      exact (hentered hc).2.trans (h2.1 hc)

theorem leaveExpr (h : G.Holds U ctx s) (e : Expr) {ps} (hps : ∀ p ∈ ps, p.TamesExprs G) :
    Ensures (v.leaveExpr ps e) G.Allows (fun new s' => (G.calm → e.Tamed G U new) ∧ G.Holds U ctx s') ctx s := by
  induction ps generalizing s e with
  | nil => exact .pure ⟨fun _ => .refl e, h⟩
  | cons p ps ih =>
    have hrest : ∀ q ∈ ps, q.TamesExprs G := fun q hq => hps q (by simp [hq])
    -- the later passes see an expression of the same kind; any other ends the sequence
    have hnext : ∀ {s} new, G.Holds U ctx s → (G.calm → e.Tamed G U new) →
        Ensures (if new.sameKind e then v.leaveExpr ps new else pure new) G.Allows
          (fun new s' => (G.calm → e.Tamed G U new) ∧ G.Holds U ctx s') ctx s := by
      intro s new hs hnew
      split
      · exact (ih hs new hrest).imp fun last s' h' => ⟨fun hc => (hnew hc).trans (h'.1 hc), h'.2⟩
      · exact .pure ⟨hnew, hs⟩
    unfold Visitor.leaveExpr
    refine ((hps p (by simp)).leave e h).bind fun step s1 h1 => ?_
    cases step with
    | keep => exact ih h1.1 e hrest
    | replace new => exact hnext new h1.1 h1.2
    | revisit new =>
      have hwild : ¬ G.calm := h1.2
      refine (hv.expr new h1.1 fun hc => (hwild hc).elim).bind fun new' s2 h2 => ?_
      exact hnext new' h2.2 fun hc => (hwild hc).elim

/-- Tame visits of the parts make tame visits of the expressions of the next depth. -/
theorem visitExpr (h : G.Holds U ctx s) (e : Expr) (hd : G.calm → e.depth G.height ≤ n + 1) :
    Ensures (v.visitExpr e) G.Allows (fun new s' => (G.calm → e.Tamed G U new) ∧ G.Holds U ctx s') ctx s := by
  refine Ensures.atExpr ?_ fun failure location node => Regime.Allows.locate location node
  simp only [ensures_read_bind]
  have hps := Pass.tamesExprs_passes (G := G) ctx.stage
  refine (hv.exprHeader h e hd).bind fun e1 s1 h1 => ?_
  have hd1 : G.calm → e1.depth G.height ≤ n + 1 := fun hc => Nat.le_trans (h1.1 hc).depth (hd hc)
  refine (hv.enterExpr h1.2 e1 hd1 hps).bind fun r s2 h2 => ?_
  cases r with
  | some new => exact .pure ⟨fun hc => (h1.1 hc).trans (h2.1 new rfl hc), h2.2⟩
  | none =>
    refine (hv.exprInside h2.2 e1 hd1).bind fun e3 s3 h3 => ?_
    refine (hv.leaveExpr h3.2 e3 hps).imp fun new s' h' => ⟨fun hc => ?_, h'.2⟩
    exact ((h1.1 hc).trans (h3.1 hc)).trans (h'.1 hc)

end Visitor.Tame

end Speculator
