import Speculator.Proofs.Freshness
import Speculator.Proofs.Outcome.Expressions

/-!
# How the visits of statements end

The statements that a statement becomes are not deeper than it, and their stores stay analyzable.  With the results on
expressions this holds of the visits of every depth.
-/

namespace Speculator

open List Visit

variable {pos : Position}

variable {G : Regime} {U : Ident → Prop} {strict : Prop} {ctx : Context} {s s' : State} {v : Visitor} {n : Nat}
  {t : Stmt}

/-! ### Known values -/

variable {ns : Namespace} {p : Ident × Value}

theorem Namespace.mem_forget {name} : p ∈ (ns.forget name).values ↔ p ∈ ns.values ∧ p.1 ≠ name := by
  simp [forget, mem_filter]

theorem Namespace.mem_of_mem_set {name value} (h : p ∈ (ns.set name value).values) :
    p ∈ ns.values ∨ ∃ v, value = some v ∧ p = (name, v) := by
  rcases ns.set_cases name value with ⟨-, hset⟩ | ⟨-, hset⟩ | ⟨v, rfl, -, -, hset⟩ <;> rw [hset] at h
  · exact .inl h
  · exact .inl (Namespace.mem_forget.mp h).1
  · rcases mem_cons.mp h with rfl | h
    · exact .inr ⟨v, rfl, rfl⟩
    · exact .inl (Namespace.mem_forget.mp h).1

theorem Namespace.mem_of_mem_forgetAll {names : List Ident}
    (h : p ∈ (names.foldl (fun ns name => ns.set name none) ns).values) : p ∈ ns.values := by
  induction names generalizing ns with
  | nil => exact h
  | cons name names ih => exact (Namespace.mem_forget.mp (ih h)).1

namespace Tracking

variable {bad : Failure → Prop}

theorem ensures_forgetAll (h : G.Holds U ctx s) (names : List Ident) :
    Ensures (forgetAll names) bad (fun _ s' => G.Holds U ctx s') ctx s :=
  ⟨h.config, h.replaced, fun hs p hp => h.known hs p (Namespace.mem_of_mem_forgetAll hp), h.copied⟩

theorem ensures_assign (h : G.Holds U ctx s) {value target}
    (hname : G.sure → value.isSome → ∀ id, target.name? = some id → U id) :
    Ensures (assign value target) bad (fun _ s' => G.Holds U ctx s') ctx s := by
  unfold assign
  split
  · rename_i id hk
    refine ⟨h.config, h.replaced, fun hs p hp => ?_, h.copied⟩
    rcases Namespace.mem_of_mem_set hp with hp | ⟨v, rfl, rfl⟩
    · exact h.known hs p hp
    · exact hname hs rfl id (by rw [Expr.name?, hk])
  · split
    · exact ensures_forgetAll h _
    · have hlost : G.Holds U ctx { s with known := s.known.loseTrack } :=
        ⟨h.config, h.replaced, fun _ p hp => by simp [Namespace.loseTrack] at hp, h.copied⟩
      simp only [ensures_get_bind, ensures_modifyKnown_bind]
      split
      · exact .pure hlost
      · exact ensures_log.mpr (hlost.congr rfl rfl)

theorem ensures_delete (h : G.Holds U ctx s) (target : Expr) :
    Ensures (delete target) bad (fun _ s' => G.Holds U ctx s') ctx s := by
  unfold delete
  split
  · exact ⟨h.config, h.replaced, fun hs p hp => h.known hs p (Namespace.mem_forget.mp hp).1, h.copied⟩
  · exact ensures_assign h fun _ hvalue => by cases hvalue

theorem ensures_leaveStmt (hU : ∀ id, strict ∨ U id) (h : G.Holds U ctx s)
    (ht : G.sure → t.Settled G.config strict U) :
    Ensures (leaveStmt t) bad (fun _ s' => G.Holds U ctx s') ctx s := by
  obtain ⟨pos, kind⟩ := t
  unfold leaveStmt
  cases kind with
  | assign targets value =>
    refine ensures_forM h fun target htarget s' h' => ensures_assign h' fun hs hvalue id hid => ?_
    rcases hU id with hstrict | hid'
    · have hsettled := ht hs
      rw [Stmt.Settled] at hsettled
      rcases (hsettled hstrict).2 with hopen | hnames
      · rw [Expr.constant?_of_staysOpen hopen] at hvalue
        cases hvalue
      · exact hnames target htarget id hid
    · exact hid'
  | augAssign | forLoop => exact ensures_assign h fun _ hvalue => by cases hvalue
  | withBlock => exact ensures_forM h fun target _ s' h' => ensures_assign h' fun _ hvalue => by cases hvalue
  | delete => exact ensures_forM h fun target _ s' h' => ensures_delete h' target
  | importModules | importFrom | tryBlock => exact ensures_forgetAll h _
  | _ => exact .pure h

end Tracking

/-! ### The passes -/

/-- What a pass may do with a statement whose parts have been visited.  What is visited again is not as deep. -/
def StmtStep.Tames (G : Regime) (strict : Prop) (U : Ident → Prop) (t : Stmt) : StmtStep → Prop
  | .keep => True
  | .replace new => t.Becomes G strict U [new]
  | .splice body => t.Becomes G strict U body
  | .revisit body =>
    (G.calm → Stmt.depthList G.height body + 1 ≤ t.depth G.height) ∧
    (G.sure → Stmt.SettledList G.config strict U body)

/-- The pass makes no statement deeper and leaves stores analyzable. -/
structure Pass.TamesStmts (p : Pass) (G : Regime) : Prop where
  enter : ∀ {U ctx s} t, G.Holds U ctx s → Ensures (p.enterStmt t) G.Allows (fun _ s' => G.Holds U ctx s') ctx s
  leave : ∀ {U ctx s strict} t, (∀ id, strict ∨ U id) → G.Holds U ctx s → (G.sure → t.Settled G.config strict U) →
    Ensures (p.leaveStmt t) G.Allows (fun step s' => G.Holds U ctx s' ∧ step.Tames G strict U t) ctx s

theorem Stmt.becomes_single {new} (hd : G.calm → new.depth G.height ≤ t.depth G.height)
    (hs : G.sure → new.Settled G.config strict U) : t.Becomes G strict U [new] :=
  ⟨fun hc => by simpa [Stmt.depthList] using hd hc, fun h => ⟨hs h, trivial⟩⟩

theorem Pass.ensures_unchanged (h : G.Holds U ctx s) : Ensures (pure StmtStep.keep) G.Allows
    (fun step s' => G.Holds U ctx s' ∧ step.Tames G strict U t) ctx s :=
  .pure ⟨h, trivial⟩

theorem Regime.Holds.frees (h : G.Holds U ctx s) (hs : s.Frees s') : G.Holds U ctx s' := by
  obtain ⟨log, vars, rfl⟩ := hs
  exact h.congr rfl rfl

namespace DeadCode

theorem tames_inPlaceOf {body} (h : t.Becomes G strict U body) : (inPlaceOf t body).Tames G strict U t := by
  unfold inPlaceOf
  split
  · exact Stmt.becomes_single (fun _ => t.one_le_depth) fun _ => by simp [Stmt.withKind, Stmt.Settled]
  · exact h

theorem Discards.tames {removed step} (h : Discards t removed step)
    (ht : G.sure → t.Settled G.config strict U) : step.Tames G strict U t := by
  cases h with
  | always | never | idleWhile | idleFor | tryFinal | tryElse =>
    refine tames_inPlaceOf ⟨fun _ => ?_, fun hs => ?_⟩
    · simp only [Stmt.depth, StmtKind.depth]
      omega
    · have hsettled := ht hs
      simp only [Stmt.Settled] at hsettled
      tauto
  | condElse =>
    refine Stmt.becomes_single (fun _ => ?_) fun hs => ?_
    · simp only [Stmt.depth, StmtKind.depth, Stmt.depthList, isEmpty_nil, ↓reduceIte]
      split <;> omega
    · have hsettled := ht hs
      simp only [Stmt.Settled, Stmt.SettledList] at hsettled ⊢
      tauto
  | negated _ horelse =>
    rename_i pos test body orelse hbody
    -- there is something in the `else` block, so that the test may become its negation
    have hne : orelse.isEmpty = false := by
      cases orelse with
      | nil => cases horelse
      | cons => rfl
    refine Stmt.becomes_single (fun _ => ?_) fun hs => ?_
    · simp only [Expr.withKind, Stmt.depth, StmtKind.depth, Expr.depth, ExprKind.depth, Stmt.depthList,
        isEmpty_nil, hne, ↓reduceIte, Bool.false_eq_true]
      omega
    · have hsettled := ht hs
      simp only [Stmt.Settled, Stmt.SettledList] at hsettled ⊢
      tauto
  | whileElse | forElse | tryMoved | tryWithoutElse =>
    refine Stmt.becomes_single (fun _ => ?_) fun hs => ?_
    · simp only [Stmt.depth, StmtKind.depth, Stmt.depthList, Handler.depthList]
      omega
    · have hsettled := ht hs
      simp only [Stmt.Settled, Stmt.SettledList, Handler.SettledList] at hsettled ⊢
      tauto

end DeadCode

namespace Pass

theorem tamesStmts_of_exprs {p : Pass} (henter : p.enterStmt = fun _ => pure ())
    (hleave : p.leaveStmt = fun _ => pure .keep) : p.TamesStmts G := by
  refine ⟨fun t h => ?_, fun t _ h _ => ?_⟩
  · rw [henter]
    exact .pure h
  · rw [hleave]
    exact ensures_unchanged h

theorem tamesStmts_tracking : Pass.tracking.TamesStmts G := by
  refine ⟨fun {U ctx s} t h => ?_, fun t hU h ht => ?_⟩
  · change Ensures (Tracking.enterStmt t) _ _ ctx s
    unfold Tracking.enterStmt
    split
    · exact Tracking.ensures_forgetAll h _
    · exact Tracking.ensures_forgetAll h _
    · exact .pure h
  · exact (Tracking.ensures_leaveStmt hU h ht).bind fun _ s' h' => ensures_unchanged h'

theorem tamesStmts_inlining : Pass.inlining.TamesStmts G := by
  refine ⟨fun {U ctx s} t h => ?_, fun t _ h _ => ensures_unchanged h⟩
  change Ensures (Inlining.enterStmt t) _ _ ctx s
  unfold Inlining.enterStmt
  split
  · simp only [ensures_get_bind]
    split
    · exact .pure h
    · exact ensures_modifyScope.mpr (h.congr rfl rfl)
  · exact .pure h

theorem ensures_iterable {simplify : Expr → Visit (Option Expr)} (h : G.Holds U ctx s)
    (ht : G.sure → t.Settled G.config strict U)
    (hsimplify : ∀ iter, Ensures (simplify iter) G.Allows
      (fun r s' => G.Holds U ctx s' ∧ ∀ new, r = some new → new.depth G.height ≤ G.height) ctx s) :
    Ensures (Iterable.leaveStmt simplify t) G.Allows
      (fun step s' => G.Holds U ctx s' ∧ step.Tames G strict U t) ctx s := by
  have hreplaces := Iterable.ensures_leaveStmt (t := t) h fun iter =>
    (hsimplify iter).imp fun _ _ h' => And.intro h'.2 h'.1
  refine hreplaces.imp fun step s' h' => ⟨h'.2, ?_⟩
  obtain ⟨hstep, _⟩ := h'
  cases hstep with
  | keep => trivial
  | iter hnew =>
    refine Stmt.becomes_single (fun _ => ?_) fun hs => ?_
    · simp only [Stmt.depth, StmtKind.depth]
      omega
    · have hsettled := ht hs
      simp only [Stmt.Settled] at hsettled ⊢
      exact hsettled

theorem tamesStmts_constantIterable : Pass.constantIterable.TamesStmts G := by
  refine ⟨fun t h => .pure h, fun t _ h ht => ensures_iterable h ht fun iter => ?_⟩
  simp only [ensures_config_bind, ensures_pure]
  refine ⟨h, fun new hnew => ?_⟩
  rw [h.config] at hnew
  obtain ⟨_, hliteral, _⟩ := Iterable.exists_of_constantDisplay hnew
  exact Limits.depth_of_literal? hliteral

theorem tamesStmts_rangeToTuple : Pass.rangeToTuple.TamesStmts G := by
  refine ⟨fun t h => .pure h, fun {U ctx s strict} t _ h ht => ensures_iterable h ht fun iter => ?_⟩
  have hnothing : Ensures (pure none) G.Allows
      (fun (r : Option Expr) s' => G.Holds U ctx s' ∧ ∀ new, r = some new → new.depth G.height ≤ G.height) ctx s :=
    .pure ⟨h, fun _ hnew => by cases hnew⟩
  unfold Iterable.rangeTuple
  split
  · simp only [ensures_isBuiltin_bind]
    split
    · exact hnothing
    rw [ensures_config_bind]
    split
    · rename_i new hnew
      refine ensures_guarded fun allowed s' hknown hcopied => ?_
      refine .pure ⟨h.congr (by rw [hknown]) hcopied, fun new' hnew' => ?_⟩
      obtain ⟨_, _, hnew⟩ := Option.bind_eq_some_iff.mp hnew
      obtain ⟨_, _, hnew⟩ := Option.bind_eq_some_iff.mp hnew
      split at hnew'
      · cases hnew'
        rw [h.config] at hnew
        exact Limits.depth_of_literal? hnew
      · cases hnew'
    · exact hnothing
  · exact hnothing

theorem tames_iterations {at' : Position} {target iter : Expr} {body orelse : List Stmt} {items : List Value}
    {literals : List Expr} (hliterals : items.mapM (fun item => G.config.limits.literal? item at') = some literals)
    (ht : G.sure → (⟨pos, .forLoop target iter body orelse false⟩ : Stmt).Settled G.config strict U) :
    (StmtStep.revisit (Unrolling.iterations ⟨pos, .forLoop target iter body orelse false⟩ target body literals ++
      orelse)).Tames G strict U ⟨pos, .forLoop target iter body orelse false⟩ := by
  refine ⟨fun _ => ?_, fun hs => ?_⟩
  · have hiterations : Stmt.depthList G.height
        (Unrolling.iterations ⟨pos, .forLoop target iter body orelse false⟩ target body literals) ≤
        max (1 + max G.height (target.depth G.height)) (Stmt.depthList G.height body) := by
      refine Stmt.depthList_le_iff.mpr fun t htmem => ?_
      obtain ⟨l, hl, htmem⟩ := mem_flatMap.mp htmem
      rcases mem_cons.mp htmem with rfl | htmem
      · obtain ⟨item, _, hitem⟩ := mem_of_mapM hliterals hl
        have hl : l.depth G.height ≤ G.height := Limits.depth_of_literal? hitem
        simp only [Stmt.withKind, Stmt.depth, StmtKind.depth, Expr.depthList]
        omega
      · have := Stmt.depthList_le_iff.mp (Nat.le_refl (Stmt.depthList G.height body)) t htmem
        omega
    rw [Stmt.depthList_append]
    simp only [Stmt.depth, StmtKind.depth]
    omega
  · have hsettled := ht hs
    simp only [Stmt.Settled] at hsettled
    refine Stmt.settledList_iff.mpr fun t htmem => ?_
    rcases mem_append.mp htmem with htmem | htmem
    · obtain ⟨l, _, htmem⟩ := mem_flatMap.mp htmem
      rcases mem_cons.mp htmem with rfl | htmem
      · simp only [Stmt.withKind, Stmt.Settled, Expr.SafeTargets, and_true, mem_singleton, forall_eq]
        exact fun hstrict => ⟨(hsettled.1 hstrict).1, .inr (hsettled.1 hstrict).2⟩
      · exact Stmt.settledList_iff.mp hsettled.2.1 t htmem
    · exact Stmt.settledList_iff.mp hsettled.2.2 t htmem

theorem tamesStmts_unrolling : Pass.unrolling.TamesStmts G := by
  refine ⟨fun t h => .pure h, fun t _ h ht => ?_⟩
  refine Unrolling.ensures_leaveStmt.imp fun step s' h' => ⟨h.frees h'.2.frees, ?_⟩
  have hunrolls := h'.1
  rw [h.config] at hunrolls
  cases hunrolls with
  | keep => trivial
  | unroll _ _ _ hliterals => exact tames_iterations hliterals ht

theorem tamesStmts_deadCode : Pass.deadCode.TamesStmts G := by
  refine ⟨fun t h => .pure h, fun t _ h ht => ?_⟩
  refine DeadCode.ensures_leaveStmt.imp fun step s' h' => ⟨h.frees h'.frees, ?_⟩
  cases h' with
  | kept => trivial
  | discarded h' => exact h'.tames ht

theorem tamesStmts_passes (stage : Stage) : ∀ p ∈ stage.passes, p.TamesStmts G := by
  have hexprs := fun p => tamesStmts_of_exprs (p := p) (G := G)
  exact stage.forall_passes tamesStmts_tracking (hexprs _ rfl rfl) (hexprs _ rfl rfl) (hexprs _ rfl rfl)
    (hexprs _ rfl rfl) tamesStmts_constantIterable tamesStmts_unrolling tamesStmts_deadCode tamesStmts_inlining
    (hexprs _ rfl rfl) tamesStmts_rangeToTuple (hexprs _ rfl rfl)

end Pass

/-! ### Bodies -/

/-- What a sequence of statements may become. -/
structure Stmt.AllBecome (G : Regime) (strict : Prop) (U : Ident → Prop) (ts news : List Stmt) : Prop where
  depth : G.calm → Stmt.depthList G.height news ≤ Stmt.depthList G.height ts
  settled : G.sure → Stmt.SettledList G.config strict U news
  nil : ts = [] → news = []

theorem Stmt.AllBecome.filled {ts news kept} (h : Stmt.AllBecome G strict U ts news) (required : Bool)
    (hkept : kept ⊆ news) :
    Stmt.AllBecome G strict U ts (Stmt.filled required ts kept) := by
  unfold Stmt.filled
  split
  · refine ⟨fun _ => ?_, fun _ => ?_, fun hnil => by cases hnil⟩
    · rename_i first _ _ _
      have : 1 ≤ first.depth G.height := first.one_le_depth
      simp only [Stmt.depthList, Stmt.withKind, Stmt.depth, StmtKind.depth] at this ⊢
      omega
    · simp [Stmt.SettledList, Stmt.withKind, Stmt.Settled]
  · refine ⟨fun hc => ?_, fun hsure => ?_, fun hnil => ?_⟩
    · refine Nat.le_trans (Stmt.depthList_le_iff.mpr fun t ht => ?_) (h.depth hc)
      exact Stmt.depthList_le_iff.mp (Nat.le_refl _) t (hkept ht)
    · exact Stmt.settledList_iff.mpr fun t ht => Stmt.settledList_iff.mp (h.settled hsure) t (hkept ht)
    · rw [h.nil hnil] at hkept
      exact subset_nil.mp hkept

/-- Under the regime the children of the statement, which opens no scope, are visited like it. -/
def Visitor.TamesChildren (v : Visitor) (G : Regime) (n : Nat) (strict : Prop) (U : Ident → Prop) (ctx : Context)
    (t : Stmt) : Prop :=
  ∀ s, G.Holds U ctx s → (G.calm → t.depth G.height ≤ n + 1) → (G.sure → t.Settled G.config strict U) →
    Ensures (v.stmtChildren t) G.Allows (fun new s' => t.Becomes G strict U [new] ∧ G.Holds U ctx s') ctx s

namespace Visitor.Tame

variable (hv : v.Tame G n) (hU : ∀ id, strict ∨ U id)

include hv

section Bodies

include hU

variable (h : G.Holds U ctx s) (required : Bool) {ts : List Stmt} (hd : G.calm → Stmt.depthList G.height ts ≤ n)
  (hs : G.sure → Stmt.SettledList G.config strict U ts)

include h hd hs

theorem flatMap :
    Ensures (ts.flatMapM v.stmt) G.Allows
      (fun news s' => Stmt.AllBecome G strict U ts news ∧ G.Holds U ctx s') ctx s := by
  induction ts generalizing s with
  | nil => exact .pure ⟨⟨fun _ => Nat.le_refl _, fun _ => trivial, fun _ => rfl⟩, h⟩
  | cons t ts ih =>
    simp only [Stmt.depthList] at hd
    rw [flatMapM_cons]
    refine (hv.stmt t hU h (fun hc => by have := hd hc; omega) fun hsure => (hs hsure).1).bind fun first s1 h1 => ?_
    refine (ih h1.2 (fun hc => by have := hd hc; omega) fun hsure => (hs hsure).2).bind fun rest s2 h2 => ?_
    refine .pure ⟨⟨fun hc => ?_, fun hsure => ?_, fun hnil => by cases hnil⟩, h2.2⟩
    · have := h1.1.depth hc
      have := h2.1.depth hc
      rw [Stmt.depthList_append]
      simp only [Stmt.depthList]
      omega
    · refine Stmt.settledList_iff.mpr fun new hnew => ?_
      rcases mem_append.mp hnew with hnew | hnew
      · exact Stmt.settledList_iff.mp (h1.1.settled hsure) new hnew
      · exact Stmt.settledList_iff.mp (h2.1.settled hsure) new hnew

theorem body :
    Ensures (v.body required ts) G.Allows
      (fun news s' => Stmt.AllBecome G strict U ts news ∧ G.Holds U ctx s') ctx s := by
  refine Visitor.ensures_body ((hv.flatMap hU h hd hs).imp fun visited s1 h1 => ⟨?_, ?_⟩)
  · refine (DeadCode.ensures_trimBody visited).imp fun trimmed s2 h2 => ?_
    obtain ⟨dropped, htrims, hs⟩ := h2
    exact ⟨h1.1.filled required htrims.subset, h1.2.frees hs.frees⟩
  · exact ⟨h1.1.filled required (Subset.refl _), h1.2⟩

end Bodies

omit hv in
theorem expr_le {e} (he : e ∈ t.exprs) (hd : G.calm → t.depth G.height ≤ n + 1) (hc : G.calm) :
    e.depth G.height ≤ n := by
  have := Stmt.depth_expr (h := G.height) he
  have := hd hc
  omega

theorem stmtChildren (hU : ∀ id, strict ∨ U id) (t : Stmt) : v.TamesChildren G n strict U ctx t := by
  intro s h hd hs
  have hblock : ∀ ts ∈ t.blocks, G.calm → Stmt.depthList G.height ts ≤ n := fun ts hts hc => by
    have := Stmt.depthList_body (h := G.height) (Stmt.mem_bodies_of_block hts).2
    have := hd hc
    omega
  refine ((logic_ensures _).stmtChildren (fun s h => h.congr rfl rfl) (fun s _ h => h.congr rfl rfl)
    (fun e he => hv.visits (expr_le he hd)) (fun e he s h => hv.target e h (expr_le he hd))
    (fun required ts hts s h =>
      hv.body hU h required (hblock ts hts) fun hsure => ?_) h).imp fun new s' h' =>
    ⟨Stmt.becomes_single (fun hc => ?_) fun hsure => ?_, h'.2⟩
  · obtain ⟨hscope, hbody⟩ := Stmt.mem_bodies_of_block hts
    exact (hs hsure).of_body hscope hbody
  · exact h'.1.depth_le (fun h => (h hc).depth) (fun h => (h hc).depth) fun h => ⟨h.depth hc, h.nil⟩
  · have hc := G.calm_of_sure hsure
    exact h'.1.settled (fun h => (h hc).isOpen) (fun h => ⟨(h hc).safe hsure, (h hc).name⟩)
      (fun h _ => h.settled hsure) (hs hsure)

end Visitor.Tame

/-! ### Specialized functions -/

theorem Config.replaces_freshText (c : Config) (used : List String) :
    c.Replaces (freshText used "_ast_optimized" "") := by
  rcases freshText_eq used "_ast_optimized" "" with h | ⟨index, h⟩
  · exact .inr (.inl h)
  · exact .inr (.inr (.inl ⟨index, by rw [h]; simp⟩))

namespace Specialize

variable {slow : Stmt} {fast : FunctionDef} {guards : GuardSet} {copied : List (Ident × String)} {kept : Ident}

theorem mem_definitions (ht : t ∈ definitions slow fast guards copied kept) :
    t = slow ∨
    t = assign slow.pos ⟨slow.pos, .name kept⟩ ⟨slow.pos, .name fast.name⟩ ∨
    t = ⟨slow.pos, .functionDef
      ⟨fast.name, fast.params, Stmt.substituteList (placeholders slow.pos copied) fast.body, [], fast.isAsync⟩⟩ ∨
    t = assign slow.pos (member slow.pos fast.name "__code__")
      (supportCall slow.pos "replace_consts" [member slow.pos fast.name "__code__", patch slow.pos copied]) ∨
    t = ⟨slow.pos, .expr (supportCall slow.pos "specialize"
      [⟨slow.pos, .name kept⟩, member slow.pos fast.name "__code__", guards.toExpr supportName slow.pos])⟩ ∨
    t = assign slow.pos ⟨slow.pos, .name fast.name⟩ ⟨slow.pos, .name kept⟩ ∨
    t = ⟨slow.pos, .delete [⟨slow.pos, .name kept⟩]⟩ := by
  unfold definitions at ht
  extract_lets pos var code body patched at ht
  rcases mem_append.mp ht with ht | ht
  · rcases mem_append.mp ht with ht | ht
    · simp only [mem_cons, not_mem_nil, or_false] at ht
      rcases ht with ht | ht | ht
      · exact .inl ht
      · exact .inr (.inl ht)
      · exact .inr (.inr (.inl ht))
    · simp only [patched] at ht
      split at ht
      · cases ht
      · exact .inr (.inr (.inr (.inl (mem_singleton.mp ht))))
  · simp only [mem_cons, not_mem_nil, or_false] at ht
    exact .inr (.inr (.inr (.inr ht)))

theorem depth_guards (guards : GuardSet) (height : Nat) (pos : Position) :
    (guards.toExpr supportName pos).depth height ≤ height + 3 := by
  have hguard : Expr.depthList height (guards.guards.map fun g => g.toExpr supportName pos) ≤ height + 2 := by
    refine Expr.depthList_le_iff.mpr fun e he => ?_
    obtain ⟨g, _, rfl⟩ := mem_map.mp he
    have hargs : ∀ args : List Expr, Expr.depthList height args ≤ height + 1 →
        (⟨pos, .call ⟨pos, .attr ⟨pos, .name supportName⟩ g.builder⟩ args []⟩ : Expr).depth height ≤ height + 2 := by
      intro args hargs
      simp only [Expr.depth, ExprKind.depth, Keyword.depthList]
      omega
    have hconsts : ∀ names : List Ident,
        Expr.depthList height (names.map fun name => ⟨pos, .const (.str name)⟩) ≤ height + 1 := by
      intro names
      refine Expr.depthList_le_iff.mpr fun e he => ?_
      obtain ⟨name, _, rfl⟩ := mem_map.mp he
      simp [Expr.depth, ExprKind.depth]
    cases g with
    | builtins names | globals names => exact hargs _ (hconsts names)
    | argType position types =>
      have htypes : Expr.depthList height (types.map fun name => ⟨pos, .name name⟩) ≤ height := by
        refine Expr.depthList_le_iff.mpr fun e he => ?_
        obtain ⟨name, _, rfl⟩ := mem_map.mp he
        simp [Expr.depth, ExprKind.depth]
      refine hargs _ ?_
      simp only [Expr.depthList, Expr.depth, ExprKind.depth]
      omega
  simp only [GuardSet.toExpr, Expr.depth, ExprKind.depth]
  omega

variable {height : Nat} (hh : 1 ≤ height)

include hh

theorem depth_placeholders (pos : Position) (copied : List (Ident × String)) :
    ∀ p ∈ placeholders pos copied, p.2.depth height ≤ height := by
  intro p hp
  obtain ⟨entry, _, rfl⟩ := mem_map.mp hp
  simpa [Expr.depth, ExprKind.depth] using hh

theorem depth_patch (pos : Position) (copied : List (Ident × String)) :
    (patch pos copied).depth height ≤ height + 1 := by
  have hkeys : Expr.depthList height ((placeholders pos copied).map Prod.snd) ≤ height := by
    refine Expr.depthList_le_iff.mpr fun e he => ?_
    obtain ⟨p, hp, rfl⟩ := mem_map.mp he
    exact depth_placeholders hh pos copied p hp
  have hvalues : Expr.depthList height (copied.map fun entry => ⟨pos, .name entry.1⟩) ≤ height := by
    refine Expr.depthList_le_iff.mpr fun e he => ?_
    obtain ⟨entry, _, rfl⟩ := mem_map.mp he
    simp [Expr.depth, ExprKind.depth]
  simp only [patch, Expr.depth, ExprKind.depth]
  omega

theorem depth_definitions :
    Stmt.depthList height (definitions slow fast guards copied kept) ≤ max (slow.depth height)
      (fast.depth height) := by
  refine Stmt.depthList_le_iff.mpr fun t ht => ?_
  have hfloor : height + 6 ≤ fast.depth height := by
    obtain ⟨name, params, body, decorators, isAsync⟩ := fast
    simp only [FunctionDef.depth]
    omega
  rcases mem_definitions ht with rfl | rfl | rfl | rfl | rfl | rfl | rfl
  · exact Nat.le_max_left _ _
  · simp only [assign, Stmt.depth, StmtKind.depth, Expr.depthList, Expr.depth, ExprKind.depth]
    omega
  · refine Nat.le_trans ?_ (Nat.le_max_right _ _)
    obtain ⟨name, params, body, decorators, isAsync⟩ := fast
    have := Stmt.depthList_substitute (depth_placeholders hh slow.pos copied) body
    simp only [Stmt.depth, StmtKind.depth, FunctionDef.depth, Expr.depthList]
    omega
  · have := depth_patch hh slow.pos copied
    simp only [assign, supportCall, member, Stmt.depth, StmtKind.depth, Expr.depthList, Expr.depth, ExprKind.depth,
      Keyword.depthList]
    omega
  · have := depth_guards guards height slow.pos
    simp only [supportCall, member, Stmt.depth, StmtKind.depth, Expr.depthList, Expr.depth, ExprKind.depth,
      Keyword.depthList]
    omega
  · simp only [assign, Stmt.depth, StmtKind.depth, Expr.depthList, Expr.depth, ExprKind.depth]
    omega
  · simp only [Stmt.depth, StmtKind.depth, Expr.depthList, Expr.depth, ExprKind.depth]
    omega

omit hh in
theorem settled_definitions {c} (hname : strict → U fast.name) (hkept : U kept)
    (hslow : slow.Settled c strict U)
    (hfast : ∃ V, (∀ id, c.Replaces id → V id) ∧ Stmt.SettledList c True V fast.body)
    (hcopied : ∀ p ∈ copied, c.Copies p.1) :
    Stmt.SettledList c strict U (definitions slow fast guards copied kept) := by
  obtain ⟨V, hV, hbody⟩ := hfast
  have hplaceholders : ∀ p ∈ placeholders slow.pos copied, V p.1 ∧ ∃ v, p.2.kind = .const v := by
    intro p hp
    obtain ⟨entry, hentry, rfl⟩ := mem_map.mp hp
    exact ⟨hV _ (.inr (.inr (.inr (hcopied entry hentry)))), _, rfl⟩
  have hassign : ∀ target value : Ident, (strict → U target) →
      (assign slow.pos ⟨slow.pos, .name target⟩ ⟨slow.pos, .name value⟩).Settled c strict U := by
    intro target value htarget
    simp only [assign, Stmt.Settled, Expr.SafeTargets, Expr.SafeTarget, mem_singleton, forall_eq, Expr.name?,
      and_true, true_and, Option.some.injEq]
    exact fun hstrict => .inr fun id hid => hid ▸ htarget hstrict
  refine Stmt.settledList_iff.mpr fun t ht => ?_
  rcases mem_definitions ht with rfl | rfl | rfl | rfl | rfl | rfl | rfl
  · exact hslow
  · exact hassign _ _ fun _ => hkept
  · simp only [Stmt.Settled, FunctionDef.Steady]
    exact ⟨hname, .inr ⟨V, hV, Stmt.settledList_substitute hplaceholders fast.body hbody⟩⟩
  · simp only [assign, member, Stmt.Settled, Expr.SafeTargets, Expr.SafeTarget, Expr.SafeBase, mem_singleton,
      forall_eq, Expr.name?, and_true]
    exact fun _ => ⟨trivial, .inr fun id hid => by cases hid⟩
  · simp [Stmt.Settled]
  · exact hassign _ _ hname
  · simp [Stmt.Settled, Expr.SafeTargets, Expr.SafeTarget]

end Specialize

theorem Specialize.ensures_specialize (h : G.Holds U ctx s) {scope slow fast}
    (hdepth : G.calm → max (slow.depth G.height) (fast.depth G.height) ≤ t.depth G.height)
    (hname : G.sure → strict → U fast.name) (hslow : G.sure → slow.Settled G.config strict U)
    (hfast : G.sure → ∃ V, (∀ id, G.config.Replaces id → V id) ∧ Stmt.SettledList G.config True V fast.body)
    (hcopied : G.sure → ∀ p ∈ scope.copied, G.config.Copies p.1) :
    Ensures (Specialize.specialize scope slow fast) G.Allows
      (fun ts s' => t.Becomes G strict U ts ∧ G.Holds U ctx s') ctx s := by
  refine ensures_definitions fun log => ⟨⟨fun hc => ?_, fun hs => ?_⟩, h.congr rfl rfl⟩
  · exact Nat.le_trans (depth_definitions Regime.one_le_height) (hdepth hc)
  · exact settled_definitions (hname hs) (h.replaced _ (G.config.replaces_freshText _)) (hslow hs) (hfast hs)
      (hcopied hs)

/-! ### Functions and classes -/

/-- A version of a function in which the names in `V` may be replaced: it has another body. -/
structure FunctionDef.Version (G : Regime) (V : Ident → Prop) (fn version : FunctionDef) : Prop where
  header : version = { fn with body := version.body }
  depth : G.calm → Stmt.depthList G.height version.body ≤ Stmt.depthList G.height fn.body
  settled : G.sure → Stmt.SettledList G.config True V version.body

namespace FunctionDef.Version

variable {V : Ident → Prop} {fn slow fast : FunctionDef} {pos : Position} {scope : Scope}

theorem refl (h : G.sure → Stmt.SettledList G.config True V fn.body) : fn.Version G V fn := by
  obtain ⟨name, params, body, decorators, isAsync⟩ := fn
  exact ⟨rfl, fun _ => Nat.le_refl _, h⟩

theorem depth_le (h : fn.Version G V fast) (hc : G.calm) : fast.depth G.height ≤ fn.depth G.height := by
  have hbody := h.depth hc
  rw [h.header]
  obtain ⟨name, params, body, decorators, isAsync⟩ := fn
  simp only [FunctionDef.depth] at hbody ⊢
  omega

theorem becomes (h : fn.Version G V fast) (hV : ∀ id, G.config.Replaces id → V id)
    (hname : G.sure → strict → U fn.name) :
    (⟨pos, .functionDef fn⟩ : Stmt).Becomes G strict U [⟨pos, .functionDef fast⟩] := by
  refine Stmt.becomes_single (fun hc => ?_) fun hs => ?_
  · have := h.depth_le hc
    simp only [Stmt.depth, StmtKind.depth]
    omega
  · have hbody := h.settled hs
    rw [h.header]
    simp only [Stmt.Settled, FunctionDef.Steady]
    exact ⟨hname hs, .inr ⟨V, hV, hbody⟩⟩

theorem ensures_specialize {V' : Ident → Prop} (hslow : fn.Version G V slow) (hfast : fn.Version G V' fast)
    (hV : ∀ id, G.config.Replaces id → V id) (hV' : ∀ id, G.config.Replaces id → V' id)
    (hname : G.sure → strict → U fn.name) (h : G.Holds U ctx s)
    (hcopied : G.sure → ∀ p ∈ scope.copied, G.config.Copies p.1) :
    Ensures (Specialize.specialize scope ⟨pos, .functionDef slow⟩ fast) G.Allows
      (fun ts s' => (⟨pos, .functionDef fn⟩ : Stmt).Becomes G strict U ts ∧ G.Holds U ctx s') ctx s := by
  refine Specialize.ensures_specialize h (fun hc => ?_) ?_ (fun hs => ((hslow.becomes hV hname).settled hs).1)
    (fun hs => ⟨V', hV', hfast.settled hs⟩) hcopied
  · have := hslow.depth_le hc
    have := hfast.depth_le hc
    simp only [Stmt.depth, StmtKind.depth]
    omega
  · rw [hfast.header]
    exact hname

end FunctionDef.Version

namespace Visitor.Tame

variable (hv : v.Tame G n)

include hv

theorem functionStage {V : Ident → Prop} (hV : ∀ id, G.config.Replaces id → V id) (h : G.Holds U ctx s)
    {stage : Stage}
    {allowGuards : Bool} {scope : Scope} {fn version : FunctionDef}
    (hd : G.calm → Stmt.depthList G.height fn.body ≤ n) (hversion : fn.Version G V version)
    (hcopied : G.sure → ∀ p ∈ scope.copied, G.config.Copies p.1) :
    Ensures (v.functionStage stage allowGuards scope version) G.Allows (fun r s' => fn.Version G V r.1 ∧
      (G.sure → ∀ p ∈ r.2.copied, G.config.Copies p.1) ∧ G.Holds U ctx s') ctx s := by
  cases hvars : Variables.ofBody version.body version.params.names with
  | error cause =>
    -- the stores of a settled body can be analyzed
    unfold Visitor.functionStage
    rw [hvars, ensures_bind_iff, ensures_ofExcept_error]
    obtain ⟨target, line, rfl⟩ := Variables.cause_of_ofBody hvars
    refine .inr (.inl ⟨fun hs => ?_, target, line, rfl⟩)
    obtain ⟨vars, hok⟩ := Variables.ofBody_of_settled (hversion.settled hs) version.params.names
    rw [hok] at hvars
    cases hvars
  | ok vars =>
    have hin : G.Holds V (ctx.inside s.scope stage allowGuards)
        (s.inside { scope with vars := vars, functions := [] }) := by
      refine h.enter hV ?_
      exact hcopied
    have hdepth : G.calm → Stmt.depthList G.height version.body ≤ n := fun hc =>
      Nat.le_trans (hversion.depth hc) (hd hc)
    refine Visitor.ensures_functionStage_of_ok hvars ?_
    refine (hv.body (fun _ => .inl trivial) hin true hdepth hversion.settled).imp fun body s' h' => ?_
    refine ⟨⟨?_, fun hc => ?_, h'.1.settled⟩, h'.2.copied, h.congr rfl rfl⟩
    · rw [hversion.header]
    · exact Nat.le_trans (h'.1.depth hc) (hversion.depth hc)

theorem function (h : G.Holds U ctx s) {fn} (hd : G.calm → fn.depth G.height ≤ n + 1)
    (ht : G.sure → (⟨pos, .functionDef fn⟩ : Stmt).Settled G.config strict U) :
    Ensures (v.function ⟨pos, .functionDef fn⟩ fn) G.Allows (fun r s' =>
      (⟨pos, .functionDef fn⟩ : Stmt).Becomes G strict U (r.elim ([·]) id) ∧ G.Holds U ctx s') ctx s := by
  have hsame : (⟨pos, .functionDef fn⟩ : Stmt).Becomes G strict U [⟨pos, .functionDef fn⟩] :=
    Stmt.becomes_single (fun _ => Nat.le_refl _) ht
  have hbody : G.calm → Stmt.depthList G.height fn.body ≤ n := by
    intro hc
    have := hd hc
    obtain ⟨name, params, body, decorators, isAsync⟩ := fn
    simp only [FunctionDef.depth] at this ⊢
    omega
  simp only [Stmt.Settled] at ht
  have hname : G.sure → strict → U fn.name := fun hs => (ht hs).1
  refine ensures_function_of_stages (I := fun version scope s' => (∃ V, (∀ id, G.config.Replaces id → V id) ∧
      fn.Version G V version) ∧ (G.sure → ∀ p ∈ scope.copied, G.config.Copies p.1) ∧ G.Holds U ctx s')
    (fun s' hs' => ⟨hsame, h.frees hs'.frees⟩) (fun vars hvars => ⟨?_, fun _ p hp => by simp at hp, h⟩)
    (fun stage allowGuards hversion => ?_) (fun hversion hlogs => ?_) fun hslow hfast => ?_
  · -- the function is analyzed, so that its stores stay analyzable if it is steady
    by_cases hs : G.sure
    · rcases FunctionDef.steady_iff.mp (ht hs).2 with ⟨cause, hcause⟩ | ⟨V, hV, hsettled⟩
      · rw [hvars] at hcause
        cases hcause
      · exact ⟨V, hV, .refl fun _ => hsettled⟩
    · exact ⟨fun _ => True, fun _ _ => trivial, .refl fun h => (hs h).elim⟩
  · obtain ⟨⟨V, hV, hversion⟩, hcopied, hholds⟩ := hversion
    exact (hv.functionStage hV hholds hbody hversion hcopied).imp fun r s' hr => ⟨⟨V, hV, hr.1⟩, hr.2⟩
  · obtain ⟨⟨V, hV, hversion⟩, -, hholds⟩ := hversion
    exact ⟨hversion.becomes hV hname, hholds.frees hlogs.frees⟩
  · obtain ⟨⟨V, hV, hslow⟩, -⟩ := hslow
    obtain ⟨⟨V', hV', hfast⟩, hcopied, hholds⟩ := hfast
    exact hslow.ensures_specialize hfast hV hV' hname hholds hcopied

theorem classBody (h : G.Holds U ctx s) {cls} (hd : G.calm → cls.depth G.height ≤ n + 1)
    (ht : G.sure → (⟨pos, .classDef cls⟩ : Stmt).Settled G.config strict U) :
    Ensures (v.classBody ⟨pos, .classDef cls⟩ cls) G.Allows
      (fun new s' => (⟨pos, .classDef cls⟩ : Stmt).Becomes G strict U [new] ∧ G.Holds U ctx s') ctx s := by
  have hsame : (⟨pos, .classDef cls⟩ : Stmt).Becomes G strict U [⟨pos, .classDef cls⟩] :=
    Stmt.becomes_single (fun _ => Nat.le_refl _) ht
  obtain ⟨name, bases, keywords, body, decorators⟩ := cls
  simp only [ClassDef.depth] at hd
  simp only [Stmt.Settled] at ht
  refine ensures_ofBody_bind (fun s' hs' => ?_) fun vars hvars => ?_
  · exact .pure ⟨hsame, h.frees hs'.frees⟩
  refine (h.ensures_inside fun hin => hv.body (fun _ => .inr trivial) hin true (fun hc => ?_) ht).bind
    fun body' s' h' => ?_
  · have := hd hc
    omega
  refine .pure ⟨Stmt.becomes_single (fun hc => ?_) fun hs => ?_, h'.2⟩
  · have := h'.1.depth hc
    simp only [Stmt.withKind, Stmt.depth, StmtKind.depth, ClassDef.depth]
    omega
  · simp only [Stmt.withKind, Stmt.Settled]
    exact h'.1.settled hs

/-! ### Visits of statements -/

variable (hU : ∀ id, strict ∨ U id) (h : G.Holds U ctx s) (t : Stmt) (hd : G.calm → t.depth G.height ≤ n + 1)
  (ht : G.sure → t.Settled G.config strict U)

include h hd ht

theorem stmtHeader :
    Ensures (v.stmtHeader t) G.Allows (fun new s' => ((G.calm → new.depth G.height ≤ t.depth G.height) ∧
      (G.sure → new.Settled G.config strict U)) ∧ G.Holds U ctx s') ctx s := by
  cases hscope : t.isScope with
  | false =>
    rw [v.stmtHeader_of_not_scope hscope]
    exact .pure ⟨⟨fun _ => Nat.le_refl _, ht⟩, h⟩
  | true =>
    refine ((logic_ensures _).stmtHeader hscope (fun e he => hv.visits (expr_le he hd)) h).imp fun new s' h' => ?_
    have hnew : t.Rebuilds _ (fun _ _ => False) (fun _ _ => False) new := .header h'.1
    refine ⟨⟨fun hc => ?_, fun hsure => ?_⟩, h'.2⟩
    · exact hnew.depth_le (fun h => (h hc).depth) False.elim False.elim
    · exact hnew.settled (fun h => (h (G.calm_of_sure hsure)).isOpen) False.elim False.elim (ht hsure)

include hU

theorem stmtInside :
    Ensures (v.stmtInside t) G.Allows (fun r s' =>
      t.Becomes G strict U (r.elim ([·]) id) ∧ G.Holds U ctx s') ctx s := by
  have hsame : t.Becomes G strict U [t] := Stmt.becomes_single (fun _ => Nat.le_refl _) ht
  obtain ⟨pos, kind⟩ := t
  unfold Visitor.stmtInside
  simp only [ensures_read_bind]
  split
  · rename_i fn hk
    cases hk
    split
    · exact hv.function h hd ht
    · exact .pure ⟨hsame, h⟩
  · rename_i cls hk
    cases hk
    split
    · exact (hv.classBody h hd ht).bind fun new s' h' => .pure h'
    · exact .pure ⟨hsame, h⟩
  · exact (hv.stmtChildren hU _ s h hd ht).bind fun new s' h' => .pure h'

theorem leaveStmt {ps} (hps : ∀ p ∈ ps, p.TamesStmts G) :
    Ensures (v.leaveStmt ps t) G.Allows (fun news s' => t.Becomes G strict U news ∧ G.Holds U ctx s') ctx s := by
  induction ps generalizing s t with
  | nil => exact .pure ⟨Stmt.becomes_single (fun _ => Nat.le_refl _) ht, h⟩
  | cons p ps ih =>
    have hrest : ∀ q ∈ ps, q.TamesStmts G := fun q hq => hps q (by simp [hq])
    unfold Visitor.leaveStmt
    refine ((hps p (by simp)).leave t hU h ht).bind fun step s1 h1 => ?_
    cases step with
    | keep => exact ih h1.1 t hd ht hrest
    | replace new =>
      have hnew : t.Becomes G strict U [new] := h1.2
      have hdepth : G.calm → new.depth G.height ≤ t.depth G.height := fun hc => by
        simpa [Stmt.depthList] using hnew.depth hc
      dsimp only
      split
      · refine (ih h1.1 new (fun hc => Nat.le_trans (hdepth hc) (hd hc)) (fun hs => (hnew.settled hs).1) hrest).imp
          fun news s' h' => ⟨⟨fun hc => ?_, h'.1.settled⟩, h'.2⟩
        exact Nat.le_trans (h'.1.depth hc) (hdepth hc)
      · exact .pure ⟨hnew, h1.1⟩
    | splice body => exact .pure ⟨h1.2, h1.1⟩
    | revisit body =>
      refine (hv.body hU h1.1 false (fun hc => ?_) h1.2.2).imp fun news s' h' =>
        ⟨⟨fun hc => ?_, h'.1.settled⟩, h'.2⟩
      · have := hd hc
        have := h1.2.1 hc
        omega
      · have := h'.1.depth hc
        have := h1.2.1 hc
        omega

theorem visitStmt :
    Ensures (v.visitStmt t) G.Allows (fun news s' => t.Becomes G strict U news ∧ G.Holds U ctx s') ctx s := by
  refine Ensures.atStmt ?_ fun failure location node => Regime.Allows.locate location node
  simp only [ensures_read_bind]
  have hps : ∀ p ∈ ctx.stage.passes, p.TamesStmts G := Pass.tamesStmts_passes ctx.stage
  refine (hv.stmtHeader h t hd ht).bind fun t1 s1 h1 => ?_
  obtain ⟨⟨hdepth1, hsettled1⟩, hholds1⟩ := h1
  have hd1 : G.calm → t1.depth G.height ≤ n + 1 := fun hc => Nat.le_trans (hdepth1 hc) (hd hc)
  refine (ensures_forM hholds1 fun p hp s' h' => (hps p hp).enter t1 h').bind fun _ s2 hholds2 => ?_
  refine (hv.stmtInside hU hholds2 t1 hd1 hsettled1).bind fun r s3 h3 => ?_
  obtain ⟨hr, hholds3⟩ := h3
  cases r with
  | inr news => exact .pure ⟨⟨fun hc => Nat.le_trans (hr.depth hc) (hdepth1 hc), hr.settled⟩, hholds3⟩
  | inl t3 =>
    have hdepth3 : G.calm → t3.depth G.height ≤ t1.depth G.height := fun hc => by
      simpa [Stmt.depthList] using hr.depth hc
    refine (hv.leaveStmt hU hholds3 t3 (fun hc => Nat.le_trans (hdepth3 hc) (hd1 hc)) (fun hs => (hr.settled hs).1)
      hps).imp fun news s' h' => ⟨⟨fun hc => ?_, h'.1.settled⟩, h'.2⟩
    have := h'.1.depth hc
    have := hdepth3 hc
    have := hdepth1 hc
    omega

end Visitor.Tame

/-- The visits of every depth are tame. -/
theorem visitor_tame (depth : Nat) : (visitor depth).Tame G depth := by
  induction depth with
  | zero =>
    -- nothing is as shallow as zero, so that the bound is only met where calls are inlined
    refine ⟨fun e h hd => ?_, fun t hU h hd _ => ?_⟩
    · by_cases hc : G.calm
      · have := hd hc
        have : 1 ≤ e.depth G.height := e.one_le_depth Regime.one_le_height
        omega
      · exact .inr (.inr ⟨hc, rfl⟩)
    · by_cases hc : G.calm
      · have := hd hc
        have : 1 ≤ t.depth G.height := t.one_le_depth
        omega
      · exact .inr (.inr ⟨hc, rfl⟩)
  | succ depth ih =>
    exact ⟨fun e h hd => ih.visitExpr h e hd, fun t hU h hd ht => ih.visitStmt hU h t hd ht⟩

end Speculator
