import Speculator.Proofs.KnownValues

/-!
# Known values around `try` statements

A `try` statement is left on many paths: its body completes or raises at any point, a handler takes the exception or
none does, and what runs after the body may raise again.  A handler with a name binds the exception to it and unbinds
the name when it is left.  This module follows the variables on these paths (`Stmt.ReachesFinal`), for blocks of
assignments and deletions of names and of calls, and compares them with the reads that are replaced by constants.

What is known before the statement, without the variables that are assigned or deleted in it, is taken to hold at the
start of the `finally` block.  This is right but for the names of the handlers, which are only forgotten at the end of
the statement: in the `finally` block such a name may be unbound although its reads are replaced.
-/

namespace Speculator

open List Visit

variable {t : Stmt} {id : Ident} {ns : Namespace} {lost : List Ident} {ctx : Context} {s : State} {n : Nat}

/-! ### Paths -/

/-- The values that an expression may give where the variables are known.  A call may give any value. -/
inductive Expr.Yields (env : Env) : Expr → Value → Prop
  | const {pos v} : Yields env ⟨pos, .const v⟩ v
  | name {pos id v} (h : env id = some v) : Yields env ⟨pos, .name id⟩ v
  | call {pos func args keywords f v as bs}
    (hfunc : Yields env func f) (hargs : Forall₂ (Yields env) args as)
    (hkeywords : Forall₂ (Yields env) (keywords.map Keyword.value) bs) :
    Yields env ⟨pos, .call func args keywords⟩ v

def Env.store (env : Env) (ids : List Ident) (value : Option Value) : Env := fun id =>
  if id ∈ ids then value else env id

def Stmt.boundNames (t : Stmt) : List Ident :=
  match t.kind with
  | .assign targets _ | .delete targets => targets.filterMap Expr.name?
  | _ => []

/-- How the variables are changed by a statement that completes. -/
inductive Stmt.Completes : Stmt → Env → Env → Prop
  | assign {pos targets e env v} (he : Expr.Yields env e v) :
    Completes ⟨pos, .assign targets e⟩ env (env.store (targets.filterMap Expr.name?) (some v))
  | delete {pos targets env} (hdistinct : (targets.filterMap Expr.name?).Nodup)
    (hbound : ∀ id ∈ targets.filterMap Expr.name?, (env id).isSome) :
    Completes ⟨pos, .delete targets⟩ env (env.store (targets.filterMap Expr.name?) none)
  | expr {pos e env v} (he : Expr.Yields env e v) : Completes ⟨pos, .expr e⟩ env env
  | pass {pos env} : Completes ⟨pos, .pass⟩ env env

/-- How the variables are changed by a statement that raises: while it evaluates an expression, or after it has
deleted some of its names. -/
inductive Stmt.Raises : Stmt → Env → Env → Prop
  | evaluating {t env} : Raises t env env
  | deleting {pos targets env} (count : Nat) :
    Raises ⟨pos, .delete targets⟩ env (env.store ((targets.filterMap Expr.name?).take count) none)

inductive Stmt.CompletesAll : List Stmt → Env → Env → Prop
  | nil {env} : CompletesAll [] env env
  | cons {t ts env env₁ env₂} (h : t.Completes env env₁) (h' : CompletesAll ts env₁ env₂) :
    CompletesAll (t :: ts) env env₂

inductive Stmt.RaisesIn : List Stmt → Env → Env → Prop
  | here {t ts env env₁} (h : t.Raises env env₁) : RaisesIn (t :: ts) env env₁
  | later {t ts env env₁ env₂} (h : t.Completes env env₁) (h' : RaisesIn ts env₁ env₂) : RaisesIn (t :: ts) env env₂

def Handler.names (handlers : List Handler) : List Ident := handlers.filterMap Handler.name

/-- The variables at the start of the `finally` block, and whether an exception is on its way. -/
inductive Stmt.ReachesFinal (body : List Stmt) (handlers : List Handler) (orelse : List Stmt) (env : Env) :
    Bool → Env → Prop
  | completed {env₁ env₂} (hbody : CompletesAll body env env₁) (horelse : CompletesAll orelse env₁ env₂) :
    ReachesFinal body handlers orelse env false env₂
  | elseRaised {env₁ env₂} (hbody : CompletesAll body env env₁) (horelse : RaisesIn orelse env₁ env₂) :
    ReachesFinal body handlers orelse env true env₂
  | uncaught {env₁} (hbody : RaisesIn body env env₁) : ReachesFinal body handlers orelse env true env₁
  /-- The name of the handler is bound to the exception and unbound at the end. -/
  | handled {env₁ env₂ h exception} (hbody : RaisesIn body env env₁) (hh : h ∈ handlers)
    (hhandler : CompletesAll h.body (env₁.store h.name.toList (some exception)) env₂) :
    ReachesFinal body handlers orelse env false (env₂.store h.name.toList none)
  | handlerRaised {env₁ env₂ h exception} (hbody : RaisesIn body env env₁)
    (hh : h ∈ handlers) (hhandler : RaisesIn h.body (env₁.store h.name.toList (some exception)) env₂) :
    ReachesFinal body handlers orelse env true (env₂.store h.name.toList none)

/-! ### What paths leave alone -/

section

variable {ts body orelse : List Stmt} {handlers : List Handler} {env env' : Env}

theorem Env.store_of_not_mem {ids} (value : Option Value) (h : id ∉ ids) : env.store ids value id = env id := if_neg h

theorem Stmt.Completes.keeps (h : t.Completes env env') (hid : id ∉ t.boundNames) : env' id = env id := by
  cases h with
  | assign | delete => exact Env.store_of_not_mem _ hid
  | expr | pass => rfl

theorem Stmt.Raises.keeps (h : t.Raises env env') (hid : id ∉ t.boundNames) : env' id = env id := by
  cases h with
  | evaluating => rfl
  | deleting count => exact Env.store_of_not_mem _ fun hmem => hid (mem_of_mem_take hmem)

theorem Stmt.CompletesAll.keeps (h : CompletesAll ts env env') (hid : id ∉ ts.flatMap boundNames) :
    env' id = env id := by
  induction h with
  | nil => rfl
  | cons h _ ih =>
    rw [flatMap_cons, mem_append, not_or] at hid
    rw [ih hid.2, h.keeps hid.1]

theorem Stmt.RaisesIn.keeps (h : RaisesIn ts env env') (hid : id ∉ ts.flatMap boundNames) : env' id = env id := by
  induction h with
  | here h =>
    rw [flatMap_cons, mem_append, not_or] at hid
    exact h.keeps hid.1
  | later h _ ih =>
    rw [flatMap_cons, mem_append, not_or] at hid
    rw [ih hid.2, h.keeps hid.1]

def Stmt.triedNames (body : List Stmt) (handlers : List Handler) (orelse : List Stmt) : List Ident :=
  body.flatMap boundNames ++ (handlers.flatMap fun h => h.body.flatMap boundNames) ++ orelse.flatMap boundNames

/-- A variable that no block assigns or deletes keeps its value up to the `finally` block, or is the name of a handler
and unbound. -/
theorem Stmt.ReachesFinal.keeps {pending : Bool} (h : ReachesFinal body handlers orelse env pending env')
    (hid : id ∉ triedNames body handlers orelse) :
    env' id = env id ∨ (id ∈ Handler.names handlers ∧ env' id = none) := by
  unfold triedNames at hid
  simp only [mem_append, not_or] at hid
  obtain ⟨⟨hbody, hhandlers⟩, horelse⟩ := hid
  have hleave : ∀ {handler : Handler} {exception : Value} {env1 env2 : Env}, handler ∈ handlers →
      env1 id = env id → env2 id = env1.store handler.name.toList (some exception) id →
      env2.store handler.name.toList none id = env id ∨
        (id ∈ Handler.names handlers ∧ env2.store handler.name.toList none id = none) := by
    intro handler exception env1 env2 hmem h1 h2
    by_cases hname : id ∈ handler.name.toList
    · right
      refine ⟨mem_filterMap.mpr ⟨handler, hmem, ?_⟩, if_pos hname⟩
      exact Option.mem_toList.mp hname
    · left
      rw [Env.store_of_not_mem _ hname, h2, Env.store_of_not_mem _ hname, h1]
  have hinside : ∀ handler ∈ handlers, id ∉ handler.body.flatMap boundNames := by
    intro handler hmem hin
    exact hhandlers (mem_flatMap.mpr ⟨handler, hmem, hin⟩)
  cases h with
  | completed h h' | elseRaised h h' => exact .inl (by rw [h'.keeps horelse, h.keeps hbody])
  | uncaught h => exact .inl (h.keeps hbody)
  | handled h hmem h' | handlerRaised h hmem h' => exact hleave hmem (h.keeps hbody) (h'.keeps (hinside _ hmem))

end

/-- The expressions that are made of constants, names and calls. -/
inductive Expr.Basic : Expr → Prop
  | const {pos v} : Basic ⟨pos, .const v⟩
  | name {pos : Position} {id : Ident} (h : id ≠ "__debug__") : Basic ⟨pos, .name id⟩
  | call {pos func args keywords} (hfunc : Basic func)
    (hargs : ∀ e ∈ args, Basic e) (hkeywords : ∀ k ∈ keywords, Basic k.value) : Basic ⟨pos, .call func args keywords⟩

/-- The statements that assign and delete names and evaluate such expressions. -/
inductive Stmt.Basic : Stmt → Prop
  | assign {pos targets e} (htargets : ∀ target ∈ targets, target.name?.isSome)
    (he : e.Basic) : Basic ⟨pos, .assign targets e⟩
  | delete {pos targets} (htargets : ∀ target ∈ targets, target.name?.isSome) : Basic ⟨pos, .delete targets⟩
  | expr {pos e} (he : e.Basic) : Basic ⟨pos, .expr e⟩
  | pass {pos} : Basic ⟨pos, .pass⟩

/-- Some reads of an expression are replaced by constants, as `allowed`. -/
inductive Expr.Propagated (allowed : Ident → Value → Prop) : Expr → Expr → Prop
  | refl (e : Expr) : Propagated allowed e e
  | read {pos id v} (h : allowed id v) : Propagated allowed ⟨pos, .name id⟩ (v.toExpr pos)
  | call {pos func func' args args' keywords keywords'}
    (hfunc : Propagated allowed func func') (hargs : Forall₂ (Propagated allowed) args args')
    (hnames : keywords'.map Keyword.name = keywords.map Keyword.name)
    (hvalues : Forall₂ (Propagated allowed) (keywords.map Keyword.value) (keywords'.map Keyword.value)) :
    Propagated allowed ⟨pos, .call func args keywords⟩ ⟨pos, .call func' args' keywords'⟩

inductive Stmt.Propagated (allowed : Ident → Value → Prop) : Stmt → Stmt → Prop
  | refl (t : Stmt) : Propagated allowed t t
  | assign {pos targets e e'} (he : Expr.Propagated allowed e e') :
    Propagated allowed ⟨pos, .assign targets e⟩ ⟨pos, .assign targets e'⟩
  | expr {pos e e'} (he : Expr.Propagated allowed e e') : Propagated allowed ⟨pos, .expr e⟩ ⟨pos, .expr e'⟩

/-- Reads of a block that may start with the variables `starts` are replaced by constants.  Whenever one is reached,
its variable has the constant as its value, or is one of the names `lost` and unbound. -/
inductive Stmt.PropagatedFrom (lost : List Ident) : (Env → Prop) → List Stmt → List Stmt → Prop
  | nil {starts : Env → Prop} : PropagatedFrom lost starts [] []
  | cons {starts : Env → Prop} {t t' ts ts'}
    (h : t.Propagated (fun id v => ∀ env, starts env → env id = some v ∨ (id ∈ lost ∧ env id = none)) t')
    (hrest : PropagatedFrom lost (fun env' => ∃ env, starts env ∧ t.Completes env env') ts ts') :
    PropagatedFrom lost starts (t :: ts) (t' :: ts')

/-! ### What is recorded of a statement -/

def Stmt.assigned? (t : Stmt) : Option Value :=
  match t.kind with
  | .assign _ value => value.constant?
  | _ => none

namespace Namespace

variable {name : Ident} {v : Value}

def Coherent (ns : Namespace) : Prop := ns.unknown = true → ns.values = []

theorem Coherent.forget (h : ns.Coherent) (name : Ident) : (ns.forget name).Coherent := by
  intro hunknown
  unfold Namespace.forget
  rw [h hunknown]
  rfl

theorem Coherent.set (h : ns.Coherent) (name : Ident) (value : Option Value) : (ns.set name value).Coherent := by
  rcases ns.set_cases name value with ⟨-, hset⟩ | ⟨-, hset⟩ | ⟨v, -, hunknown, -, hset⟩ <;> rw [hset]
  · exact h
  · exact h.forget name
  · intro hunknown'
    cases hunknown.symm.trans hunknown'

theorem Coherent.lookup_set (h : ns.Coherent) {value} (hlookup : (ns.set name value).values.lookup id = some v) :
    (id = name ∧ value = some v ∧ ns.conditional = false) ∨ (id ≠ name ∧ ns.values.lookup id = some v) := by
  rw [Namespace.lookup_set ns name value id fun hunknown => by rw [h hunknown]; rfl] at hlookup
  by_cases hid : id = name
  · rw [if_pos hid, Option.ite_none_left_eq_some, Bool.or_eq_true, not_or] at hlookup
    exact .inl ⟨hid, hlookup.2, by simpa using hlookup.1.2⟩
  · rw [if_neg hid] at hlookup
    exact .inr ⟨hid, hlookup⟩

def setAll (ns : Namespace) (names : List Ident) (value : Option Value) : Namespace :=
  names.foldl (fun ns name => ns.set name value) ns

theorem Coherent.setAll (h : ns.Coherent) (names : List Ident) (value : Option Value) :
    (ns.setAll names value).Coherent := by
  induction names generalizing ns with
  | nil => exact h
  | cons name names ih => exact ih (h.set name value)

theorem conditional_setAll (names : List Ident) (value : Option Value) :
    (ns.setAll names value).conditional = ns.conditional := by
  induction names generalizing ns with
  | nil => rfl
  | cons name names ih => exact ih.trans (conditional_set ns name value)

theorem lookup_setAll (h : ns.Coherent) {names value} (hlookup : (ns.setAll names value).values.lookup id = some v) :
    (id ∈ names ∧ value = some v ∧ ns.conditional = false) ∨ (id ∉ names ∧ ns.values.lookup id = some v) := by
  induction names generalizing ns with
  | nil => exact .inr ⟨by simp, hlookup⟩
  | cons name names ih =>
    rcases ih (h.set name value) hlookup with ⟨hmem, hvalue, hcond⟩ | ⟨hmem, hrest⟩
    · rw [conditional_set] at hcond
      exact .inl ⟨by simp [hmem], hvalue, hcond⟩
    · rcases h.lookup_set hrest with ⟨rfl, hvalue, hcond⟩ | ⟨hne, hbefore⟩
      · exact .inl ⟨by simp, hvalue, hcond⟩
      · exact .inr ⟨by simp [hne, hmem], hbefore⟩

def record (ns : Namespace) (t : Stmt) : Namespace := ns.setAll t.boundNames t.assigned?

/-- The variables have their known values, except that the names `lost` may be unbound. -/
def Matches (ns : Namespace) (lost : List Ident) (env : Env) : Prop :=
  ∀ id v, ns.get? id = some v → env id = some v ∨ (id ∈ lost ∧ env id = none)

theorem lookup_of_get? (h : ns.get? id = some v) : ns.conditional = false ∧ ns.values.lookup id = some v := by
  unfold get? at h
  split at h
  · cases h
  · rename_i hcond
    exact ⟨by simpa using hcond, h⟩

theorem get?_of_lookup (hcond : ns.conditional = false) (h : ns.values.lookup id = some v) : ns.get? id = some v := by
  rw [get?, hcond]
  exact h

end Namespace

/-! ### Constants that are assigned -/

section

variable {env env' : Env} {allowed : Ident → Value → Prop}

theorem Expr.Yields.eq_of_constant {e e' v w} (h : Expr.Yields env e w) (hbasic : e.Basic)
    (he : Expr.Propagated allowed e e') (hallowed : ∀ id v, allowed id v → env id = some v ∨ env id = none)
    (hconst : e'.constant? = some v) : w = v := by
  cases he with
  | refl =>
    cases hbasic with
    | const =>
      cases h
      exact Option.some.inj hconst
    | name | call => simp [Expr.constant?, ExprKind.scalar?] at hconst
  | read hread =>
    cases h with
    | name hid =>
      rw [Value.constant?_toExpr, Option.ite_none_right_eq_some] at hconst
      have hv := (Option.some.inj hconst.2).symm
      rcases hallowed _ _ hread with hsome | hnone
      · rw [hsome] at hid
        rw [hv]
        exact (Option.some.inj hid).symm
      · rw [hnone] at hid
        cases hid
  | call => simp [Expr.constant?, ExprKind.scalar?] at hconst

theorem Stmt.Propagated.boundNames {t t'} (h : Stmt.Propagated allowed t t') : t'.boundNames = t.boundNames := by
  cases h with
  | refl | assign | expr => rfl

theorem Stmt.Completes.assigned {t t' v id} (h : t.Completes env env') (hbasic : t.Basic)
    (ht : Stmt.Propagated allowed t t') (hallowed : ∀ id v, allowed id v → env id = some v ∨ env id = none)
    (hid : id ∈ t.boundNames) (hv : t'.assigned? = some v) : env' id = some v := by
  cases h with
  | assign he =>
    rename_i targets e w
    have hstored : w = v → env.store (targets.filterMap Expr.name?) (some w) id = some v := by
      intro hw
      rw [hw]
      exact if_pos hid
    cases hbasic with
    | assign _ hbasic =>
      cases ht with
      | refl => exact hstored (he.eq_of_constant hbasic (.refl _) hallowed hv)
      | assign he' => exact hstored (he.eq_of_constant hbasic he' hallowed hv)
  | delete =>
    cases ht
    cases hv
  | expr | pass => cases hid

theorem Namespace.Matches.record {t t'} (hns : ns.Matches lost env) (hcoherent : ns.Coherent)
    (h : t.Completes env env') (hbasic : t.Basic) (ht : Stmt.Propagated allowed t t')
    (hallowed : ∀ id v, allowed id v → env id = some v ∨ env id = none) : (ns.record t').Matches lost env' := by
  intro id v hget
  obtain ⟨hcond, hlookup⟩ := lookup_of_get? hget
  rcases lookup_setAll hcoherent hlookup with ⟨hid, hv, _⟩ | ⟨hid, hbefore⟩
  · rw [ht.boundNames] at hid
    exact .inl (h.assigned hbasic ht hallowed hid hv)
  · rw [ht.boundNames] at hid
    rw [h.keeps hid]
    have hcond' : ns.conditional = false := (conditional_setAll _ _).symm.trans hcond
    exact hns id v (get?_of_lookup hcond' hbefore)

end

/-! ### Visits of expressions and statements -/

section

variable {allowed : Ident → Value → Prop}

theorem Propagation.get?_of_value? {config scope known id v}
    (h : value? config scope known id = some v) : known.get? id = some v := by
  unfold value? at h
  split at h
  · exact (Option.filter_eq_some_iff.mp h).1
  · cases h

variable {e : Expr} {v : Visitor} {targets : List Expr}

theorem Expr.Propagated.isAttr {e'} (h : Expr.Propagated allowed e e') (he : e.Basic) : e'.isAttr = false := by
  cases h with
  | refl => cases he <;> rfl
  | read => exact Value.isAttr_toExpr _ _
  | call => rfl

def Stmt.isLine (t : Stmt) : Bool :=
  match t.kind with
  | .assign .. | .delete _ | .expr _ | .pass => true
  | _ => false

theorem Pass.run_leaveStmt_of_isLine (ht : t.isLine = true) :
    ∀ p ∈ Stage.generic.passes.tail, p.leaveStmt t ctx s = .ok .keep s := by
  intro p hp
  simp only [Stage.passes, tail_cons, mem_cons, not_mem_nil, or_false] at hp
  obtain ⟨pos, kind⟩ := t
  cases kind with
  | assign | delete | expr | pass =>
    rcases hp with rfl | rfl | rfl | rfl | rfl | rfl | rfl | rfl
    · rfl
    · rfl
    · rfl
    · rfl
    · rfl
    · rfl
    · change (if !ctx.config.removeDeadCode then (pure .keep : Visit StmtStep) else pure .keep) ctx s = _
      rw [ite_self]
      rfl
    · rfl
  | _ => cases ht

theorem Visitor.run_leaveStmt_of_all_keep {ps} (hps : ∀ p ∈ ps, p.leaveStmt t ctx s = .ok .keep s) :
    v.leaveStmt ps t ctx s = .ok [t] s := by
  induction ps with
  | nil => rfl
  | cons p ps ih =>
    rw [Visitor.leaveStmt, run_bind, hps p (by simp)]
    exact ih fun q hq => hps q (by simp [hq])

theorem Tracking.run_forM {f : Expr → Visit Unit} {value} (htargets : ∀ target ∈ targets, target.name?.isSome)
    (hf : ∀ pos id s, f ⟨pos, .name id⟩ ctx s = .ok () { s with known := s.known.set id value }) :
    targets.forM f ctx s = .ok () { s with known := s.known.setAll (targets.filterMap Expr.name?) value } := by
  induction targets generalizing s with
  | nil => rfl
  | cons target targets ih =>
    obtain ⟨pos, kind⟩ := target
    obtain ⟨hname, hrest⟩ := forall_mem_cons.mp htargets
    cases kind with
    | name id =>
      change (f ⟨pos, .name id⟩ >>= fun _ => targets.forM f) ctx s = _
      rw [run_bind, hf pos id s]
      exact ih hrest
    | _ => cases hname

theorem Visitor.targets_of_names (htargets : ∀ target ∈ targets, target.name?.isSome) :
    v.targets targets = pure targets := by
  induction targets with
  | nil => rw [Visitor.targets]
  | cons target targets ih =>
    obtain ⟨pos, kind⟩ := target
    have hname := htargets ⟨pos, kind⟩ (by simp)
    cases kind with
    | name id =>
      rw [Visitor.targets, Visitor.target, ih fun target htarget => htargets target (by simp [htarget])]
      rfl
    | _ => cases hname

variable (hstage : ctx.stage ≠ .specialize)
include hstage

theorem Visitor.run_leave_line (ht : t.isLine = true) {known}
    (hrecord : Tracking.leaveStmt t ctx s = .ok () { s with known := known }) :
    v.leaveStmt ctx.stage.passes t ctx s = .ok [t] { s with known := known } := by
  have hpasses : ctx.stage.passes = Pass.tracking :: Stage.generic.passes.tail := Stage.passes_of_ne hstage
  have htracking : Pass.tracking.leaveStmt t ctx s = .ok .keep { s with known := known } := by
    change (Tracking.leaveStmt t >>= fun _ => pure StmtStep.keep) ctx s = _
    rw [run_bind, hrecord]
    rfl
  rw [hpasses, Visitor.leaveStmt, run_bind, htracking]
  dsimp only
  rw [run_leaveStmt_of_all_keep (Pass.run_leaveStmt_of_isLine ht)]

theorem Visitor.ensures_leave_line {bad : Failure → Prop} {post : List Stmt → State → Prop} (ht : t.isLine = true)
    (hrecord : Tracking.leaveStmt t ctx s = .ok () { s with known := s.known.record t })
    (hpost : ∀ s', s'.known = s.known.record t → post [t] s') :
    Ensures (v.leaveStmt ctx.stage.passes t) bad post ctx s :=
  .of_eq (run_leave_line hstage ht hrecord) (hpost _ rfl)

variable (hinlining : ctx.config.inlining = false)
include hinlining

theorem Visitor.run_leave_call {pos func args keywords} (hattr : func.isAttr = false) :
    v.leaveExpr ctx.stage.passes ⟨pos, .call func args keywords⟩ ctx s = .ok ⟨pos, .call func args keywords⟩ s := by
  rw [Stage.passes_of_ne hstage]
  refine run_leaveExpr_of_all_keep fun p hp => ?_
  simp only [Stage.passes, drop_succ_cons, drop_zero, mem_cons, not_mem_nil, or_false] at hp
  rcases hp with rfl | rfl | rfl | rfl | rfl | rfl | rfl | rfl | rfl
  · rfl
  · rfl
  · rfl
  · change (if !ctx.config.constantFolding then (pure .keep : Visit ExprStep) else pure .keep) ctx s = _
    rw [ite_self]
    rfl
  · obtain ⟨at', kind⟩ := func
    cases kind with
    | attr => cases hattr
    | _ => rfl
  · rfl
  · rfl
  · rfl
  · change (if !ctx.config.inlining then (pure .keep : Visit ExprStep) else _) ctx s = _
    rw [hinlining]
    rfl

theorem Visitor.ensures_basic_expr (he : e.Basic) (hallowed : ∀ id v, s.known.get? id = some v → allowed id v) :
    Ensures ((visitor n).expr e) TooDeep (fun e' s' => Expr.Propagated allowed e e' ∧ s.Frame s') ctx s := by
  induction he generalizing n s with
  | const =>
    cases n with
    | zero => exact ensures_fail.mpr rfl
    | succ n =>
      refine ensures_visitExpr rfl (fun _ => TooDeep.locate) ?_
      exact .of_eq (run_leave_const hstage _ _) ⟨.refl _, .refl s⟩
  | name hid =>
    cases n with
    | zero => exact ensures_fail.mpr rfl
    | succ n =>
      refine (ensures_name n hstage (fun h => absurd h hid) _).mono (fun _ h => h.elim) fun e' s' h => ?_
      refine ⟨?_, h.1⟩
      rw [h.2]
      cases hvalue : Propagation.value? ctx.config s.scope s.known _ with
      | none => exact .refl _
      | some v => exact .read (hallowed _ v (Propagation.get?_of_value? hvalue))
  | call hfunc hargs hkeywords ihfunc ihargs ihkeywords =>
    cases n with
    | zero => exact ensures_fail.mpr rfl
    | succ n =>
      rename_i pos func args keywords
      have hvisits : ∀ c ∈ Expr.children ⟨pos, .call func args keywords⟩, Logic.Visits (I := Unit)
          (fun x post ctx s => Ensures (x ()) TooDeep post ctx s) (fun _ => visitor n)
            (Expr.Propagated allowed) s.Frame
          ctx c := by
        intro c hc s1 hs1
        rw [← hs1.known] at hallowed
        have hvisit : Ensures ((visitor n).expr c) TooDeep (fun new s' => Expr.Propagated allowed c new ∧ s1.Frame s')
            ctx s1 := by
          simp only [Expr.children, mem_cons, mem_append, mem_map] at hc
          rcases hc with rfl | hc | ⟨k, hk, rfl⟩
          · exact ihfunc hallowed
          · exact ihargs c hc hallowed
          · exact ihkeywords k hk hallowed
        exact hvisit.imp fun _ _ h => ⟨h.1, hs1.trans h.2⟩
      refine ensures_visitExpr rfl (fun _ => TooDeep.locate) ?_
      refine ((logic_ensures TooDeep).exprChildren rfl hvisits (.refl s)).bind fun e' s' h => ?_
      obtain ⟨hrebuilds, hframe⟩ := h
      cases hrebuilds with
      | call hfunc' hargs' hkeywords' =>
        refine .of_eq (run_leave_call hstage hinlining (hfunc'.isAttr hfunc)) ⟨?_, hframe⟩
        exact .call hfunc' hargs' (Keyword.map_name_of_rebuilds hkeywords') (Keyword.forall₂_values hkeywords')

theorem Visitor.ensures_basic_stmt (ht : t.Basic) (hallowed : ∀ id v, s.known.get? id = some v → allowed id v) :
    Ensures ((visitor n).stmt t) TooDeep
      (fun ts s' => ∃ t', ts = [t'] ∧ Stmt.Propagated allowed t t' ∧ s'.known = s.known.record t') ctx s := by
  cases n with
  | zero => exact ensures_fail.mpr rfl
  | succ n =>
    have hscope : t.isScope = false := by cases ht <;> rfl
    refine ensures_visitStmt hscope (fun _ => TooDeep.locate) ?_
    cases ht with
    | assign htargets he =>
      rename_i pos targets e
      have hchildren : (visitor n).stmtChildren ⟨pos, .assign targets e⟩ =
          (visitor n).expr e >>= fun e' => pure ⟨pos, .assign targets e'⟩ := by
        change ((visitor n).expr e >>= fun e' => (visitor n).targets targets >>= _) = _
        rw [targets_of_names htargets]
        rfl
      rw [hchildren, bind_assoc]
      refine (ensures_basic_expr hstage hinlining he hallowed).bind fun e' s1 h1 => ?_
      rw [pure_bind]
      refine ensures_leave_line hstage rfl (Tracking.run_forM htargets fun _ _ _ => rfl) fun s' hs' => ?_
      exact ⟨_, rfl, .assign h1.1, by rw [hs', h1.2.known]⟩
    | delete htargets =>
      rename_i pos targets
      have hchildren : (visitor n).stmtChildren ⟨pos, .delete targets⟩ = pure ⟨pos, .delete targets⟩ := by
        change ((visitor n).targets targets >>= _) = _
        rw [targets_of_names htargets]
        rfl
      rw [hchildren, pure_bind]
      refine ensures_leave_line hstage rfl (Tracking.run_forM htargets fun _ _ _ => rfl) fun s' hs' => ?_
      exact ⟨_, rfl, .refl _, hs'⟩
    | expr he =>
      refine ensures_bind_iff.mpr ?_
      refine (ensures_basic_expr hstage hinlining he hallowed).bind fun e' s1 h1 => .pure ?_
      refine ensures_leave_line hstage rfl rfl fun s' hs' => ?_
      exact ⟨_, rfl, .expr h1.1, by rw [hs', ← h1.2.known]⟩
    | pass =>
      refine ensures_leave_line hstage rfl rfl fun s' hs' => ?_
      exact ⟨_, rfl, .refl _, hs'⟩

end

/-! ### Blocks -/

section

variable {s' : State} {starts : Env → Prop} {ts ts' : List Stmt}

/-- What is known after a block, if it was `ns` before: in a conditional region, only of variables left alone. -/
structure Namespace.After (ns : Namespace) (names : List Ident) (ns' : Namespace) : Prop where
  coherent : ns'.Coherent
  conditional : ns'.conditional = ns.conditional
  kept : ns.conditional = true → ∀ id v, ns'.values.lookup id = some v → id ∉ names ∧ ns.values.lookup id = some v

namespace Namespace.After

theorem refl {ns : Namespace} (h : ns.Coherent) : ns.After [] ns := ⟨h, rfl, fun _ _ _ hlookup => ⟨by simp, hlookup⟩⟩

theorem trans {ns1 ns2 ns3 : Namespace} {names names' : List Ident} (h : ns1.After names ns2)
    (h' : ns2.After names' ns3) : ns1.After (names ++ names') ns3 := by
  refine ⟨h'.coherent, h'.conditional.trans h.conditional, fun hcond id v hlookup => ?_⟩
  obtain ⟨hid', hlookup2⟩ := h'.kept (h.conditional.trans hcond) id v hlookup
  obtain ⟨hid, hlookup1⟩ := h.kept hcond id v hlookup2
  exact ⟨by simp [hid, hid'], hlookup1⟩

theorem record {ns : Namespace} (h : ns.Coherent) (t : Stmt) : ns.After t.boundNames (ns.record t) := by
  refine ⟨h.setAll _ _, conditional_setAll _ _, fun hcond id v hlookup => ?_⟩
  rcases lookup_setAll h hlookup with ⟨_, _, hcond'⟩ | hkept
  · rw [hcond] at hcond'
    cases hcond'
  · exact hkept

end Namespace.After

/-- What a visit makes of a block that may start with the variables `starts`. -/
structure Stmt.VisitedBlock (lost : List Ident) (starts : Env → Prop) (ts : List Stmt) (s : State) (ts' : List Stmt)
    (s' : State) : Prop where
  propagated : PropagatedFrom lost starts ts ts'
  after : s.known.After (ts.flatMap boundNames) s'.known
  known : ∀ env env', starts env → CompletesAll ts env env' → s'.known.Matches lost env'

variable (hstage : ctx.stage ≠ .specialize) (hinlining : ctx.config.inlining = false)
include hstage hinlining

theorem Visitor.ensures_basic_stmts (hts : ∀ t ∈ ts, t.Basic) (hcoherent : s.known.Coherent)
    (hstarts : ∀ env, starts env → s.known.Matches lost env) :
    Ensures (ts.flatMapM (visitor n).stmt) TooDeep (Stmt.VisitedBlock lost starts ts s) ctx s := by
  induction ts generalizing s starts with
  | nil =>
    refine .pure ⟨.nil, .refl hcoherent, fun env env' henv hrun => ?_⟩
    cases hrun
    exact hstarts env henv
  | cons t ts ih =>
    have ht := hts t (by simp)
    rw [flatMapM_cons]
    have hallowed : ∀ id v, s.known.get? id = some v →
        ∀ env, starts env → env id = some v ∨ (id ∈ lost ∧ env id = none) :=
      fun id v hget env henv => hstarts env henv id v hget
    refine (ensures_basic_stmt hstage hinlining ht hallowed).bind fun us s1 h1 => ?_
    obtain ⟨t', rfl, hpropagated, hknown⟩ := h1
    have hstep : ∀ env env', starts env → t.Completes env env' → s1.known.Matches lost env' := by
      intro env env' henv hrun
      rw [hknown]
      refine (hstarts env henv).record hcoherent hrun ht hpropagated fun id v hread => ?_
      exact (hread env henv).imp_right And.right
    have hafter : s.known.After t.boundNames s1.known := by
      rw [hknown, ← hpropagated.boundNames]
      exact .record hcoherent t'
    have hrest : Ensures (ts.flatMapM (visitor n).stmt) TooDeep
        (Stmt.VisitedBlock lost (fun env' => ∃ env, starts env ∧ t.Completes env env') ts s1) ctx s1 :=
      ih (fun u hu => hts u (by simp [hu])) hafter.coherent fun env' ⟨env, henv, hrun⟩ => hstep env env' henv hrun
    refine hrest.bind fun us s2 h2 => .pure ?_
    refine ⟨.cons hpropagated h2.propagated, hafter.trans h2.after, fun env env' henv hrun => ?_⟩
    cases hrun with
    | cons h h' => exact h2.known _ env' ⟨env, henv, h⟩ h'

omit hstage hinlining in
theorem Stmt.PropagatedFrom.endsBody (h : PropagatedFrom lost starts ts ts') (hts : ∀ t ∈ ts, t.Basic) :
    ∀ t ∈ ts', t.endsBody = false := by
  induction h with
  | nil => simp
  | cons h hrest ih =>
    rename_i t t' ts ts'
    have ht' : t'.endsBody = false := by
      cases h with
      | refl => cases hts t (by simp) <;> rfl
      | assign | expr => rfl
    intro u hu
    rcases mem_cons.mp hu with rfl | hu
    · exact ht'
    · exact ih (fun v hv => hts v (by simp [hv])) u hu

omit hstage hinlining in
theorem Stmt.PropagatedFrom.filled (h : PropagatedFrom lost starts ts ts') (required : Bool) :
    Stmt.filled required ts ts' = ts' := by
  cases h with
  | nil | cons => cases required <;> rfl

theorem Visitor.ensures_basic_body (hts : ∀ t ∈ ts, t.Basic) (hcoherent : s.known.Coherent)
    (hstarts : ∀ env, starts env → s.known.Matches lost env) (required : Bool) :
    Ensures ((visitor n).body required ts) TooDeep (Stmt.VisitedBlock lost starts ts s) ctx s := by
  refine ensures_body_of_kept ?_
  refine (ensures_basic_stmts hstage hinlining hts hcoherent hstarts).imp fun ts' s' h => ⟨fun t ht => ?_, ?_⟩
  · exact h.propagated.endsBody hts t ((dropLast_sublist ts').subset ht)
  · rw [h.propagated.filled required]
    exact h

theorem Visitor.ensures_region (hts : ∀ t ∈ ts, t.Basic) (hcoherent : s.known.Coherent) (required : Bool) :
    Ensures ((visitor n).body required ts) TooDeep
      (fun _ s' => s.known.After (ts.flatMap Stmt.boundNames) s'.known) ctx s := by
  have hbody : Ensures ((visitor n).body required ts) TooDeep (Stmt.VisitedBlock [] (fun _ => False) ts s) ctx s :=
    ensures_basic_body hstage hinlining hts hcoherent (fun _ h => h.elim) required
  exact hbody.imp fun _ _ h => h.after

theorem Visitor.ensures_handlers {handlers} (htypes : ∀ h ∈ handlers, ∀ e ∈ h.type, e.Basic)
    (hbodies : ∀ h ∈ handlers, ∀ t ∈ h.body, t.Basic) (hcoherent : s.known.Coherent) :
    Ensures (handlers.mapM (visitor n).handler) TooDeep (fun handlers' s' =>
      Handler.names handlers' = Handler.names handlers ∧
        s.known.After (handlers.flatMap fun h => h.body.flatMap Stmt.boundNames) s'.known) ctx s := by
  induction handlers generalizing s with
  | nil => exact .pure ⟨rfl, .refl hcoherent⟩
  | cons h handlers ih =>
    rw [mapM_cons]
    have hhandler : Ensures ((visitor n).handler h) TooDeep (fun h' s' => h'.name = h.name ∧
        s.known.After (h.body.flatMap Stmt.boundNames) s'.known) ctx s := by
      have htype : Ensures ((visitor n).option h.type) TooDeep (fun _ s' => s.Frame s') ctx s := by
        cases hoption : h.type with
        | none => exact .pure (.refl s)
        | some e =>
          have he : e.Basic := htypes h (by simp) e (by simp [hoption])
          refine (ensures_basic_expr hstage hinlining he fun _ _ _ => True.intro).bind fun e' s1 h1 => ?_
          exact .pure h1.2
      refine htype.bind fun type s1 h1 => ?_
      rw [← h1.known] at hcoherent ⊢
      refine (ensures_region hstage hinlining (hbodies h (by simp)) hcoherent true).bind fun body s2 h2 => ?_
      exact .pure ⟨rfl, h2⟩
    refine hhandler.bind fun h' s1 h1 => ?_
    have hrest := ih (fun g hg => htypes g (by simp [hg])) (fun g hg => hbodies g (by simp [hg])) h1.2.coherent
    refine hrest.bind fun handlers' s2 h2 => .pure ⟨?_, ?_⟩
    · unfold Handler.names at h2 ⊢
      rw [filterMap_cons, filterMap_cons, h1.1, h2.1]
    · rw [flatMap_cons]
      exact h1.2.trans h2.2

end

/-! ### The statement -/

section

variable {pos : Position} {body orelse final rest : List Stmt}
  {handlers : List Handler}

theorem Namespace.Matches.reachesFinal {ns ns' : Namespace} {env env' : Env} {pending : Bool}
    (h : ns.Matches [] env) (hcond : ns'.conditional = ns.conditional)
    (hkept : ∀ id v, ns'.values.lookup id = some v →
      id ∉ Stmt.triedNames body handlers orelse ∧ ns.values.lookup id = some v)
    (hpath : Stmt.ReachesFinal body handlers orelse env pending env') :
    ns'.Matches (Handler.names handlers) env' := by
  intro id v hget
  obtain ⟨hcond', hlookup⟩ := lookup_of_get? hget
  obtain ⟨hid, hbefore⟩ := hkept id v hlookup
  have hvalue : env id = some v := by
    rcases h id v (get?_of_lookup (hcond.symm.trans hcond') hbefore) with hvalue | ⟨hmem, _⟩
    · exact hvalue
    · cases hmem
  rcases hpath.keeps hid with hsame | hlost
  · exact .inl (hsame.trans hvalue)
  · exact .inr hlost

theorem Namespace.Matches.forgotten {ns : Namespace} {env : Env} {names : List Ident} (h : ns.Matches names env)
    (hcoherent : ns.Coherent) : (ns.setAll names none).Matches [] env := by
  intro id v hget
  obtain ⟨hcond, hlookup⟩ := lookup_of_get? hget
  rcases lookup_setAll hcoherent hlookup with ⟨_, hnone, _⟩ | ⟨hid, hbefore⟩
  · cases hnone
  · have hcond' : ns.conditional = false := (conditional_setAll _ _).symm.trans hcond
    rcases h id v (get?_of_lookup hcond' hbefore) with hvalue | ⟨hmem, _⟩
    · exact .inl hvalue
    · exact absurd hmem hid

theorem Visitor.ensures_leave_try {v : Visitor} {bad : Failure → Prop} (hstage : ctx.stage ≠ .specialize) :
    Ensures (v.leaveStmt ctx.stage.passes ⟨pos, .tryBlock body handlers orelse final⟩) bad
      (fun _ s' => s'.known = s.known.setAll (Handler.names handlers) none) ctx s := by
  let s1 : State := { s with known := s.known.setAll (Handler.names handlers) none }
  -- the passes between the tracking of known values and the removal of dead code do nothing here
  have hrun : v.leaveStmt ctx.stage.passes ⟨pos, .tryBlock body handlers orelse final⟩ ctx s =
      v.leaveStmt [Pass.deadCode, Pass.inlining] ⟨pos, .tryBlock body handlers orelse final⟩ ctx s1 := by
    rw [Stage.passes_of_ne hstage]
    rfl
  have hlast : ∀ (t : Stmt) (s2 : State), s2.known = s1.known →
      Ensures (v.leaveStmt [Pass.inlining] t) bad (fun _ s' => s'.known = s1.known) ctx s2 := fun _ _ h => h
  have hdead : Ensures (v.leaveStmt [Pass.deadCode, Pass.inlining] ⟨pos, .tryBlock body handlers orelse final⟩) bad
      (fun _ s' => s'.known = s1.known) ctx s1 := by
    have hstep : Ensures (DeadCode.leaveStmt ⟨pos, .tryBlock body handlers orelse final⟩) bad
        (DeadCode.Result ⟨pos, .tryBlock body handlers orelse final⟩ s1) ctx s1 := DeadCode.ensures_leaveStmt
    refine Ensures.bind (x := Pass.deadCode.leaveStmt _) hstep fun step s2 h => ?_
    have hknown : s2.known = s1.known := by
      obtain ⟨log, vars, rfl⟩ := h.frees
      rfl
    cases step with
    | keep => exact hlast _ s2 hknown
    | replace new =>
      dsimp only
      split
      · exact hlast new s2 hknown
      · exact .pure hknown
    | splice new => exact .pure hknown
    | revisit new =>
      cases h with
      | discarded h _ => obtain ⟨new, hstep⟩ | ⟨new, hstep⟩ := h.cases_step <;> cases hstep
  unfold Ensures at hdead ⊢
  rw [hrun]
  exact hdead

section

variable (hstage : ctx.stage ≠ .specialize) (hinlining : ctx.config.inlining = false)
  (hbody : ∀ t ∈ body, t.Basic) (htypes : ∀ h ∈ handlers, ∀ e ∈ h.type, e.Basic)
  (hbodies : ∀ h ∈ handlers, ∀ t ∈ h.body, t.Basic) (horelse : ∀ t ∈ orelse, t.Basic)
include hstage hinlining hbody htypes hbodies horelse

theorem Visitor.ensures_tried (hcoherent : s.known.Coherent) :
    Ensures (Visit.conditionally do
        let body ← (visitor n).body true body
        let handlers ← handlers.mapM (visitor n).handler
        return (body, handlers, ← (visitor n).body false orelse)) TooDeep
      (fun r s' => Handler.names r.2.1 = Handler.names handlers ∧ s'.known.Coherent ∧
        s'.known.conditional = s.known.conditional ∧
        ∀ id v, s'.known.values.lookup id = some v →
          id ∉ Stmt.triedNames body handlers orelse ∧ s.known.values.lookup id = some v) ctx s := by
  rw [ensures_conditionally]
  let s0 : State := { s with known := s.known.enterCond }
  have hcoherent0 : s0.known.Coherent := hcoherent
  refine (ensures_region hstage hinlining hbody hcoherent0 true).bind fun body' s1 h1 => ?_
  refine (ensures_handlers hstage hinlining htypes hbodies h1.coherent).bind fun handlers' s2 h2 => ?_
  refine (ensures_region hstage hinlining horelse h2.2.coherent false).bind fun orelse' s3 h3 => ?_
  have hafter := (h1.trans h2.2).trans h3
  exact .pure ⟨h2.1, hafter.coherent, rfl, hafter.kept rfl⟩

theorem Visitor.ensures_try_children (hfinal : ∀ t ∈ final, t.Basic) (hcoherent : s.known.Coherent) :
    Ensures ((visitor n).stmtChildren ⟨pos, .tryBlock body handlers orelse final⟩) TooDeep (fun t s' =>
      ∃ body' handlers' orelse' final', t = ⟨pos, .tryBlock body' handlers' orelse' final'⟩ ∧
        Handler.names handlers' = Handler.names handlers ∧ s'.known.Coherent ∧
        Stmt.PropagatedFrom (Handler.names handlers) (fun env' => ∃ env pending, s.known.Matches [] env ∧
          Stmt.ReachesFinal body handlers orelse env pending env') final final' ∧
        ∀ env env1 env2 pending, s.known.Matches [] env → Stmt.ReachesFinal body handlers orelse env pending env1 →
          Stmt.CompletesAll final env1 env2 → s'.known.Matches (Handler.names handlers) env2) ctx s := by
  refine (ensures_tried hstage hinlining hbody htypes hbodies horelse hcoherent).bind fun r s1 h1 => ?_
  obtain ⟨body', handlers', orelse'⟩ := r
  obtain ⟨hnames, hcoherent1, hcond, hkept⟩ := h1
  have hstarts : ∀ env', (∃ env pending, s.known.Matches [] env ∧
      Stmt.ReachesFinal body handlers orelse env pending env') → s1.known.Matches (Handler.names handlers) env' := by
    rintro env' ⟨env, pending, henv, hpath⟩
    exact henv.reachesFinal hcond hkept hpath
  refine (ensures_basic_body hstage hinlining hfinal hcoherent1 hstarts true).bind fun final' s2 h2 => ?_
  refine .pure ⟨body', handlers', orelse', final', rfl, hnames, h2.after.coherent, h2.propagated, ?_⟩
  intro env env1 env2 pending henv hpath hfinished
  exact h2.known env1 env2 ⟨env, pending, henv, hpath⟩ hfinished

end

/-- Reads around a `try` statement.

A read in the `finally` block is replaced by a constant only if, on every path to it, the variable has this value, or
is unbound and the name of a handler.  A read in a statement after the `try` statement is replaced by a constant only
if, on every path to it, the variable has this value. -/
theorem visitor_try (n : Nat) (hstage : ctx.stage ≠ .specialize) (hinlining : ctx.config.inlining = false)
    (hbody : ∀ t ∈ body, t.Basic) (htypes : ∀ h ∈ handlers, ∀ e ∈ h.type, e.Basic)
    (hbodies : ∀ h ∈ handlers, ∀ t ∈ h.body, t.Basic) (horelse : ∀ t ∈ orelse, t.Basic)
    (hfinal : ∀ t ∈ final, t.Basic) (hrest : ∀ t ∈ rest, t.Basic) (hcoherent : s.known.Coherent) :
    Ensures ((visitor n).stmtChildren ⟨pos, .tryBlock body handlers orelse final⟩) TooDeep (fun t _ =>
        ∃ body' handlers' orelse' final', t = ⟨pos, .tryBlock body' handlers' orelse' final'⟩ ∧
          Stmt.PropagatedFrom (Handler.names handlers) (fun env' => ∃ env pending, s.known.Matches [] env ∧
            Stmt.ReachesFinal body handlers orelse env pending env') final final') ctx s ∧
      Ensures (List.flatMapM (visitor n).stmt (⟨pos, .tryBlock body handlers orelse final⟩ :: rest)) TooDeep
        (fun ts _ => ∃ block rest', ts = block ++ rest' ∧
          Stmt.PropagatedFrom [] (fun env' => ∃ env env₁, s.known.Matches [] env ∧
            Stmt.ReachesFinal body handlers orelse env false env₁ ∧ Stmt.CompletesAll final env₁ env') rest rest')
        ctx s := by
  have hchildren : ∀ n, Ensures ((visitor n).stmtChildren ⟨pos, .tryBlock body handlers orelse final⟩) _ _ ctx s :=
    fun n => Visitor.ensures_try_children hstage hinlining hbody htypes hbodies horelse hfinal hcoherent
  constructor
  · refine (hchildren n).imp fun t s' h => ?_
    obtain ⟨body', handlers', orelse', final', rfl, _, _, hpropagated, _⟩ := h
    exact ⟨body', handlers', orelse', final', rfl, hpropagated⟩
  · rw [List.flatMapM_cons]
    have hstmt : Ensures ((visitor n).stmt ⟨pos, .tryBlock body handlers orelse final⟩) TooDeep (fun _ s' =>
        s'.known.Coherent ∧ ∀ env env₁ env₂, s.known.Matches [] env →
          Stmt.ReachesFinal body handlers orelse env false env₁ → Stmt.CompletesAll final env₁ env₂ →
          s'.known.Matches [] env₂) ctx s := by
      cases n with
      | zero => exact ensures_fail.mpr rfl
      | succ n =>
        refine Visitor.ensures_visitStmt rfl (fun _ => TooDeep.locate) ?_
        refine (hchildren n).bind fun t s₁ h₁ => ?_
        obtain ⟨body', handlers', orelse', final', rfl, hnames, hcoherent₁, _, hknown⟩ := h₁
        refine (Visitor.ensures_leave_try hstage).imp fun _ s₂ h₂ => ?_
        rw [h₂, hnames]
        refine ⟨hcoherent₁.setAll _ _, fun env env₁ env₂ henv hpath hfinished => ?_⟩
        exact (hknown env env₁ env₂ false henv hpath hfinished).forgotten hcoherent₁
    refine hstmt.bind fun block s₁ h₁ => ?_
    have hstarts : ∀ env', (∃ env env₁, s.known.Matches [] env ∧
        Stmt.ReachesFinal body handlers orelse env false env₁ ∧ Stmt.CompletesAll final env₁ env') →
        s₁.known.Matches [] env' := by
      rintro env' ⟨env, env₁, henv, hpath, hfinished⟩
      exact h₁.2 env env₁ env' henv hpath hfinished
    refine (Visitor.ensures_basic_stmts hstage hinlining hrest h₁.1 hstarts).bind fun rest' s₂ h₂ => ?_
    exact .pure ⟨block, rest', rfl, h₂.propagated⟩

end

/-- The statement at `try: f()`, `except E as e: pass`, `finally: g(e)` and `g(e)` after it, where `e` is known. -/
theorem visitor_try_handler :
    let call (name : Ident) (args : List Expr) : Stmt := ⟨{}, .expr ⟨{}, .call ⟨{}, .name name⟩ args []⟩⟩
    let handlers : List Handler := [⟨{}, some ⟨{}, .name "E"⟩, some "e", [⟨{}, .pass⟩]⟩]
    let block : List Stmt := [call "g" [⟨{}, .name "e"⟩]]
    let ctx : Context := ⟨{}, "m.py", [], .generic, false, []⟩
    let s : State := ⟨{ kind := .module, vars := { locals := ["e"] } }, { values := [("e", .int 1)] }, [], [], false⟩
    s.known.Coherent ∧ (∀ t ∈ block, t.Basic) ∧
      Ensures (List.flatMapM (visitor 9).stmt (⟨{}, .tryBlock [call "f" []] handlers [] block⟩ :: block)) TooDeep
        (fun ts _ => ∃ tried block', ts = tried ++ block' ∧
          Stmt.PropagatedFrom [] (fun env' => ∃ env env₁, s.known.Matches [] env ∧
            Stmt.ReachesFinal [call "f" []] handlers [] env false env₁ ∧ Stmt.CompletesAll block env₁ env')
            block block') ctx s := by
  intro call handlers block ctx s
  have hread : Expr.Basic ⟨{}, .name "e"⟩ := .name (by decide)
  have hcalls : ∀ name args, name ≠ "__debug__" → (∀ e ∈ args, e.Basic) → (call name args).Basic :=
    fun name args h h' => .expr (.call (.name h) h' (by simp))
  have hbody : ∀ t ∈ [call "f" []], t.Basic := List.forall_mem_singleton.mpr (hcalls _ _ (by decide) (by simp))
  have hblock : ∀ t ∈ block, t.Basic :=
    List.forall_mem_singleton.mpr (hcalls _ _ (by decide) (List.forall_mem_singleton.mpr hread))
  have htypes : ∀ h ∈ handlers, ∀ e ∈ h.type, e.Basic := by
    refine List.forall_mem_singleton.mpr fun e he => ?_
    cases he
    exact .name (by decide)
  have hbodies : ∀ h ∈ handlers, ∀ t ∈ h.body, t.Basic :=
    List.forall_mem_singleton.mpr (List.forall_mem_singleton.mpr .pass)
  have hcoherent : s.known.Coherent := fun h => by cases h
  refine ⟨hcoherent, hblock, ?_⟩
  exact (visitor_try 9 (by decide) rfl hbody htypes hbodies (by simp) hblock hblock hcoherent).2

end Speculator
