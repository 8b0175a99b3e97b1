import Speculator.Proofs.Classification

/-!
# Demands on visits

What holds each time that a statement is visited in the course of optimizing a module is said by a visitor that checks
it: `demandingVisitor` does what `visitor` does and fails, with any failure one likes, where a visit of a statement
does not end as demanded.  If optimizing with it gives the same result, then all the visits that were made met the
demand.

What can be demanded of every visit is `Visited`: the scope keeps its local variables, and a function becomes one
statement or is specialized.  The variable for its slow version is new among those that the code of the scope and the
specializations before have bound, and its placeholders are taken from a table that is the same for the whole module,
in which no text appears twice (`optimize_demanding`).
-/

namespace Speculator

open List Visit

variable {ctx : Context} {s s' s1 : State} {texts : List String} {given : Table} {code : Code}

variable {scope : Scope} {n : Nat}

/-- The code of a scope: the parameters and the body. -/
structure Code where
  params : List Ident
  body : List Stmt

/-- The code of the scope that the inside of a statement is in, given that around the statement. -/
def Stmt.inner (around : Code) (t : Stmt) : Code :=
  match t.kind with
  | .functionDef fn => ⟨fn.params.names, fn.body⟩
  | .classDef cls => ⟨[], cls.body⟩
  | _ => around

/-- A demand on the code of the scope, the state before, the statement, what it becomes and the state after. -/
abbrev Demand := Code → State → Stmt → List Stmt → State → Prop

open Classical in
/-- The visit, which fails unless its result is as demanded. -/
noncomputable def Visit.demanding {α : Type} (x : Visit α) (demand : State → α → State → Prop) (failure : Failure) :
    Visit α := fun ctx s =>
  match x ctx s with
  | .ok a s' => if demand s a s' then .ok a s' else .error failure s'
  | .error other s' => .error other s'

theorem Visit.demanding_eq_iff {α : Type} {x : Visit α} {demand : State → α → State → Prop} {failure} :
    x.demanding demand failure ctx s = x ctx s ↔ ∀ a s', x ctx s = .ok a s' → demand s a s' := by
  simp only [Visit.demanding]
  cases x ctx s with
  | ok a s' =>
    by_cases hdemand : demand s a s'
    · simp [hdemand]
    · simp [hdemand]
  | error other s' => simp

/-- The visits in a scope with some code that fail where a statement does not meet the demand. -/
noncomputable def demandingVisitor (demand : Demand) (failure : Failure) : Nat → Code → Visitor
  | 0, _ => visitor 0
  | depth + 1, code =>
    ⟨(visitor (depth + 1)).expr, fun t =>
      ((demandingVisitor demand failure depth (t.inner code)).visitStmt t).demanding
        (fun s ts s' => demand code s t ts s') failure⟩

/-! ### Accounts of placeholders -/

/-- Names of builtins with the texts that stand for them. -/
abbrev Table := List (Ident × String)

/-- No text stands for two builtins, and none is a text of the module. -/
structure Table.Distinct (texts : List String) (given : Table) : Prop where
  nodup : (given.map Prod.snd).Nodup
  new : ∀ p ∈ given, p.2 ∉ texts

/-- The table lists the placeholders chosen so far, among them those of the current scope. -/
structure State.Accounts (texts : List String) (given : Table) (s : State) : Prop where
  distinct : given.Distinct texts
  texts : texts ⊆ s.texts
  chosen : ∀ p ∈ given, p.2 ∈ s.texts
  copied : s.scope.copied ⊆ given
  names : (s.scope.copied.map Prod.fst).Nodup

namespace State.Accounts

theorem chooses (h : s.Accounts texts given) (hs : s.Chooses s') : ∃ more, given ⊆ more ∧ s'.Accounts texts more := by
  obtain ⟨new, hcopied, hnew, hnodup⟩ := hs.copied
  refine ⟨given ++ new, subset_append_left _ _, ⟨?_, fun p hp => ?_⟩, fun text ht => hs.texts (h.texts ht),
    fun p hp => ?_, ?_, hs.names h.names⟩
  · rw [map_append, nodup_append]
    refine ⟨h.distinct.nodup, hnodup, fun text ht text' ht' heq => ?_⟩
    obtain ⟨p, hp, rfl⟩ := mem_map.mp ht
    obtain ⟨p', hp', rfl⟩ := mem_map.mp ht'
    exact (hnew p' hp').2 (heq ▸ h.chosen p hp)
  · rcases mem_append.mp hp with hp | hp
    · exact h.distinct.new p hp
    · exact fun ht => (hnew p hp).2 (h.texts ht)
  · rcases mem_append.mp hp with hp | hp
    · exact hs.texts (h.chosen p hp)
    · exact (hnew p hp).1
  · rw [hcopied]
    exact append_subset.mpr ⟨fun _ hp => mem_append_left _ (h.copied hp), subset_append_right _ _⟩

theorem withScope {known} (h : s.Accounts texts given) (hcopied : scope.copied ⊆ given)
    (hnames : (scope.copied.map Prod.fst).Nodup) :
    State.Accounts texts given { s with scope := scope, known := known } :=
  ⟨h.distinct, h.texts, h.chosen, hcopied, hnames⟩

end State.Accounts

def Code.BoundIn (code : Code) (locals : List Ident) : Prop :=
  ∃ vars, Variables.ofBody code.body code.params = .ok vars ∧ vars.locals ⊆ locals

/-- The table lists the placeholders so far.  If definitions are entered, all local variables are known. -/
structure Code.Fits (code : Code) (texts : List String) (given : Table) (ctx : Context) (s : State) : Prop where
  accounts : s.Accounts texts given
  bound : ctx.stage.entersScopes = true → code.BoundIn s.scope.vars.locals

/-- What a visit adds to a scope: local variables, literal texts, and new placeholders. -/
structure State.Gains (s s' : State) : Prop where
  locals : s.scope.vars.locals ⊆ s'.scope.vars.locals
  texts : s.texts ⊆ s'.texts
  copied : ∀ p ∈ s'.scope.copied, p ∈ s.scope.copied ∨ p.2 ∉ s.texts

namespace State.Gains

theorem refl (s : State) : s.Gains s := ⟨Subset.refl _, Subset.refl _, fun _ hp => .inl hp⟩

theorem trans (h : s.Gains s1) (h' : s1.Gains s') : s.Gains s' := by
  refine ⟨fun _ hname => h'.locals (h.locals hname), fun _ ht => h'.texts (h.texts ht), fun p hp => ?_⟩
  rcases h'.copied p hp with hp | hp
  · exact h.copied p hp
  · exact .inr fun ht => hp (h.texts ht)

theorem of_chooses (h : s.Chooses s') : s.Gains s' := by
  obtain ⟨new, hcopied, hnew, _⟩ := h.copied
  refine ⟨by rw [h.locals]; exact Subset.refl _, h.texts, fun p hp => ?_⟩
  rw [hcopied] at hp
  exact (mem_append.mp hp).imp_right fun hp => (hnew p hp).2

theorem of_scope (hscope : s'.scope = s.scope) (htexts : s.texts ⊆ s'.texts) : s.Gains s' := by
  refine ⟨?_, htexts, fun p hp => .inl ?_⟩
  · rw [hscope]
    exact Subset.refl _
  · rwa [hscope] at hp

end State.Gains

/-- The table lists the placeholders after a visit. -/
structure Progress (texts : List String) (s : State) (given : Table) (s' : State) : Prop where
  accounts : s'.Accounts texts given
  gains : s.Gains s'

variable {fn : FunctionDef} {demand : Table → Demand}

theorem Progress.trans {given'} (h : Progress texts s given s1) (h' : Progress texts s1 given' s') :
    Progress texts s given' s' := ⟨h'.accounts, h.gains.trans h'.gains⟩

theorem Code.Fits.progress {more} (h : code.Fits texts given ctx s) (hs : Progress texts s more s') :
    code.Fits texts more ctx s' := by
  refine ⟨hs.accounts, fun hstage => ?_⟩
  obtain ⟨vars, hvars, hlocals⟩ := h.bound hstage
  exact ⟨vars, hvars, fun _ hname => hs.gains.locals (hlocals hname)⟩

/-! ### Visits with and without demands -/

namespace Visit

variable {α β : Type} {f' : Table → Failure → α → Visit β}

/-- The visits `x'`, for every table that lists the given placeholders and those chosen on the way, and for every
failure, are the visit `x`.  These placeholders and the result are as described. -/
def Agrees (texts : List String) (x' : Table → Failure → Visit α) (x : Visit α) (given : Table)
    (post : Table → α → State → Prop) (ctx : Context) (s : State) : Prop :=
  ∃ more : Table, given ⊆ more ∧ more.Distinct texts ∧
    (∀ all failure, more ⊆ all → x' all failure ctx s = x ctx s) ∧ ∀ a s', x ctx s = .ok a s' → post more a s'

namespace Agrees

variable {x' : Table → Failure → Visit α} {x : Visit α} {post : Table → α → State → Prop}

theorem of_ensures (hgiven : given.Distinct texts)
    (h : Ensures x (fun _ => True) (fun a s' => ∃ more : Table, given ⊆ more ∧ more.Distinct texts ∧ post more a s')
      ctx s) : Agrees texts (fun _ _ => x) x given post ctx s := by
  cases hx : x ctx s with
  | ok a s' =>
    obtain ⟨more, hmore, hdistinct, hpost⟩ := h.of_ok hx
    refine ⟨more, hmore, hdistinct, fun _ _ _ => rfl, fun b s'' heq => ?_⟩
    rw [hx] at heq
    cases heq
    exact hpost
  | error failure s' =>
    refine ⟨given, Subset.refl _, hgiven, fun _ _ _ => rfl, fun b s'' heq => ?_⟩
    rw [hx] at heq
    cases heq

theorem pure {a : α} (hgiven : given.Distinct texts) (h : post given a s) :
    Agrees texts (fun _ _ => Pure.pure a) (Pure.pure a) given post ctx s :=
  of_ensures hgiven (.pure ⟨given, Subset.refl _, hgiven, h⟩)

theorem of_choosing {post : α → State → Prop} (hx : Choosing x) (hs : s.Accounts texts given)
    (h : Ensures x (fun _ => True) post ctx s) : Agrees texts (fun _ _ => x) x given
      (fun more a s' => s'.Accounts texts more ∧ s.Chooses s' ∧ post a s') ctx s := by
  refine of_ensures hs.distinct (((hx ctx s).and h).mono (fun _ _ => trivial) fun a s' h' => ?_)
  obtain ⟨more, hmore, hs'⟩ := hs.chooses h'.1
  exact ⟨more, hmore, hs'.distinct, hs', h'⟩

theorem imp {post' : Table → α → State → Prop}
    (h : Agrees texts x' x given post ctx s) (himp : ∀ more a s', given ⊆ more → post more a s' → post' more a s') :
    Agrees texts x' x given post' ctx s := by
  obtain ⟨more, hmore, hdistinct, hsame, hpost⟩ := h
  exact ⟨more, hmore, hdistinct, hsame, fun a s' hx => himp more a s' hmore (hpost a s' hx)⟩

theorem bind {f : α → Visit β} {post' : Table → β → State → Prop} (hx : Agrees texts x' x given post ctx s)
    (hf : ∀ more a s', given ⊆ more → post more a s' →
      Agrees texts (fun all failure => f' all failure a) (f a) more post' ctx s') :
    Agrees texts (fun all failure => x' all failure >>= f' all failure) (x >>= f) given post' ctx s := by
  obtain ⟨more, hmore, hdistinct, hsame, hpost⟩ := hx
  cases hrun : x ctx s with
  | ok a s1 =>
    obtain ⟨more', hmore', hdistinct', hsame', hpost'⟩ := hf more a s1 hmore (hpost a s1 hrun)
    refine ⟨more', fun _ hp => hmore' (hmore hp), hdistinct', fun all failure hall => ?_, fun b s2 heq => ?_⟩
    · simp only [run_bind, hsame all failure fun _ hp => hall (hmore' hp), hrun]
      exact hsame' all failure hall
    · rw [run_bind, hrun] at heq
      exact hpost' b s2 heq
  | error failure s1 =>
    refine ⟨more, hmore, hdistinct, fun all failure hall => ?_, fun b s2 heq => ?_⟩
    · simp only [run_bind, hsame all failure hall, hrun]
    · rw [run_bind, hrun] at heq
      cases heq

theorem read_bind {f' : Table → Failure → Context → Visit α} {f : Context → Visit α}
    (h : Agrees texts (fun all failure => f' all failure ctx) (f ctx) given post ctx s) :
    Agrees texts (fun all failure => read >>= f' all failure) (read >>= f) given post ctx s := h

theorem and_ensures
    {post' : α → State → Prop} (h : Agrees texts x' x given post ctx s) (hx : Ensures x (fun _ => True) post' ctx s) :
    Agrees texts x' x given (fun more a s' => post more a s' ∧ post' a s') ctx s := by
  obtain ⟨more, hmore, hdistinct, hsame, hpost⟩ := h
  exact ⟨more, hmore, hdistinct, hsame, fun a s' hrun => ⟨hpost a s' hrun, hx.of_ok hrun⟩⟩

theorem analyzed (hs : s.Accounts texts given) (body : List Stmt) (params : List Ident) :
    Agrees texts (fun _ _ => Visitor.analyzed (Variables.ofBody body params))
      (Visitor.analyzed (Variables.ofBody body params)) given (fun more r s' => s'.Accounts texts more ∧ s.Notes s' ∧
        ∀ vars, r = some vars → Variables.ofBody body params = .ok vars) ctx s := by
  have hlogs : ∀ s', s.Logs s' → s'.Accounts texts given := by
    rintro _ ⟨log, rfl⟩
    exact ⟨hs.distinct, hs.texts, hs.chosen, hs.copied, hs.names⟩
  refine of_ensures hs.distinct (Visitor.ensures_analyzed (fun cause hcause => Variables.cause_of_ofBody hcause)
    (fun s' hs' => ?_) fun vars hvars => ?_)
  · exact ⟨given, Subset.refl _, hs.distinct, hlogs s' hs', hs'.notes, nofun⟩
  · refine ⟨given, Subset.refl _, hs.distinct, hs, .refl s, fun vars' heq => ?_⟩
    cases heq
    exact hvars

theorem atStmt (t : Stmt)
    (h : Agrees texts x' x given post ctx s) :
    Agrees texts (fun all failure => Visit.atStmt t (x' all failure)) (Visit.atStmt t x) given post ctx s := by
  obtain ⟨more, hmore, hdistinct, hsame, hpost⟩ := h
  refine ⟨more, hmore, hdistinct, fun all failure hall => ?_, fun a s' heq => hpost a s' ?_⟩
  · simp only [Visit.atStmt, Visit.mapFailure, hsame all failure hall]
  · simp only [Visit.atStmt, Visit.mapFailure] at heq
    cases hrun : x ctx s with
    | ok b s1 =>
      rw [hrun] at heq
      exact heq
    | error failure s1 =>
      rw [hrun] at heq
      cases heq

theorem inScope {post : Table → α × Scope → State → Prop} {stage} {allowGuards : Bool} (h : Agrees texts x' x given
      (fun more a s' => post more (a, s'.scope) { s' with scope := s.scope, known := s.known })
      (ctx.inside s.scope stage allowGuards) (s.inside scope)) :
    Agrees texts (fun all failure => Visit.inScope scope stage allowGuards (x' all failure))
      (Visit.inScope scope stage allowGuards x) given post ctx s := by
  obtain ⟨more, hmore, hdistinct, hsame, hpost⟩ := h
  refine ⟨more, hmore, hdistinct, fun all failure hall => ?_, fun r s' heq => ?_⟩
  · simp only [run_inScope, hsame all failure hall]
  · rw [run_inScope] at heq
    split at heq
    · rename_i a s1 hrun
      cases heq
      exact hpost a s1 hrun
    · cases heq

theorem demanding
    {demand : Table → State → α → State → Prop} (h : Agrees texts x' x given post ctx s)
    (hdemand : ∀ more all a s', more ⊆ all → post more a s' → demand all s a s') :
    Agrees texts (fun all failure => (x' all failure).demanding (demand all) failure) x given post ctx s := by
  obtain ⟨more, hmore, hdistinct, hsame, hpost⟩ := h
  refine ⟨more, hmore, hdistinct, fun all failure hall => ?_, hpost⟩
  rw [← hsame all failure hall]
  refine demanding_eq_iff.mpr fun a s' hrun => hdemand more all a s' hall (hpost a s' ?_)
  rw [← hsame all failure hall, hrun]

end Agrees

/-- In a scope with the code the visits agree, whatever has been visited before. -/
def Concurs (texts : List String) (code : Code) (x' : Table → Failure → Visit α) (x : Visit α) : Prop :=
  ∀ given ctx s, code.Fits texts given ctx s →
    Agrees texts x' x given (fun more _ s' => Progress texts s more s') ctx s

namespace Concurs

variable {x' : Table → Failure → Visit α} {x : Visit α}

theorem bind {f : α → Visit β}
    (hx : Concurs texts code x' x) (hf : ∀ a, Concurs texts code (fun all failure => f' all failure a) (f a)) :
    Concurs texts code (fun all failure => x' all failure >>= f' all failure) (x >>= f) := by
  intro given ctx s h
  refine (hx given ctx s h).bind fun more a s1 _ h1 => ?_
  exact (hf a more ctx s1 (h.progress h1)).imp fun _ _ _ _ h2 => h1.trans h2

theorem of_choosing (hx : Choosing x) : Concurs texts code (fun _ _ => x) x := by
  intro given ctx s h
  exact (Agrees.of_choosing hx h.accounts (hx ctx s)).imp fun more _ s' _ h' => ⟨h'.1, .of_chooses h'.2.1⟩

theorem pure (a : α) : Concurs texts code (fun _ _ => Pure.pure a) (Pure.pure a) :=
  of_choosing (Choosing.closed.pure a)

theorem conditionally (hx : Concurs texts code x' x) :
    Concurs texts code (fun all failure => Visit.conditionally (x' all failure)) (Visit.conditionally x) := by
  refine .bind (of_choosing .get) fun s => .bind (of_choosing (.modifyKnown _)) fun _ => .bind hx fun a => ?_
  exact .bind (of_choosing (.modifyKnown _)) fun _ => .pure a

theorem atStmt (hx : Concurs texts code x' x) (t : Stmt) :
    Concurs texts code (fun all failure => Visit.atStmt t (x' all failure)) (Visit.atStmt t x) :=
  fun given ctx s h => (hx given ctx s h).atStmt t

theorem compositional : Compositional (I := Table × Failure) fun x' x =>
    Concurs texts code (fun all failure => x' (all, failure)) x := ⟨.pure, .bind⟩

end Concurs

end Visit

/-! ### Specialized functions -/

/-- A function is specialized in the scope with the code, from the state `s` to the state `s'`. -/
structure Specialized (given : Table) (code : Code) (name : Ident) (s : State) (slow fast : FunctionDef)
    (copied : Table)
    (kept : Ident) (s' : State) : Prop where
  slowName : slow.name = name
  fastName : fast.name = name
  /-- There is one placeholder for each builtin. -/
  names : (copied.map Prod.fst).Nodup
  chosen : copied ⊆ given
  /-- The placeholders are chosen in this visit, and not for the scope around the function. -/
  fresh : ∀ p ∈ copied, p.2 ∉ s.texts ∧ p.2 ∈ s'.texts ∧ p ∉ s'.scope.copied
  bound : code.BoundIn s.scope.vars.locals
  temporary : kept = freshText s.scope.vars.locals "_ast_optimized" ""
  locals : s'.scope.vars.locals = kept :: s.scope.vars.locals

def SpecializedInto (given : Table) (code : Code) (pos : Position) (name : Ident) (s : State) (ts : List Stmt)
    (s' : State) : Prop :=
  ∃ slow fast guards copied kept, ts = Specialize.definitions ⟨pos, .functionDef slow⟩ fast guards copied kept ∧
    Specialized given code name s slow fast copied kept s'

/-- What holds of the visit of a statement: a function becomes one definition or is specialized. -/
structure Visited (given : Table) (code : Code) (s : State) (t : Stmt) (ts : List Stmt) (s' : State) : Prop where
  gains : s.Gains s'
  function : ∀ fn, t.kind = .functionDef fn → (∃ new, ts = [⟨t.pos, .functionDef new⟩]) ∨
    SpecializedInto given code t.pos fn.name s ts s'

section Specialized

variable {all : Table} {pos : Position} {name : Ident} {ts : List Stmt}

theorem SpecializedInto.mono (h : SpecializedInto given code pos name s ts s') (hall : given ⊆ all) :
    SpecializedInto all code pos name s ts s' := by
  obtain ⟨slow, fast, guards, copied, kept, hts, h⟩ := h
  exact ⟨slow, fast, guards, copied, kept, hts, { h with chosen := fun _ hp => hall (h.chosen hp) }⟩

theorem SpecializedInto.after (h : SpecializedInto given code pos name s1 ts s')
    (hlocals : s1.scope.vars.locals = s.scope.vars.locals) (htexts : s.texts ⊆ s1.texts) :
    SpecializedInto given code pos name s ts s' := by
  obtain ⟨slow, fast, guards, copied, kept, hts, h⟩ := h
  refine ⟨slow, fast, guards, copied, kept, hts, h.slowName, h.fastName, h.names, h.chosen,
    fun p hp => ?_, ?_, ?_, ?_⟩
  · exact ⟨fun ht => (h.fresh p hp).1 (htexts ht), (h.fresh p hp).2⟩
  · exact hlocals ▸ h.bound
  · exact hlocals ▸ h.temporary
  · exact hlocals ▸ h.locals

theorem Visited.mono {t} (h : Visited given code s t ts s') (hall : given ⊆ all) : Visited all code s t ts s' :=
  ⟨h.gains, fun fn ht => (h.function fn ht).imp_right fun hts => hts.mono hall⟩

end Specialized

/-- Some stages have been visited, from the state `s` to the state `s'`.  They give a version of the function and its
scope, which has placeholders of its own. -/
structure Staged (texts : List String) (s : State) (fn : FunctionDef) (given : Table) (r : FunctionDef × Scope)
    (s' : State) : Prop where
  accounts : s'.Accounts texts given
  scope : s'.scope = s.scope
  texts : s.texts ⊆ s'.texts
  name : r.1.name = fn.name
  names : (r.2.copied.map Prod.fst).Nodup
  chosen : r.2.copied ⊆ given
  fresh : ∀ p ∈ r.2.copied, p.2 ∉ s.texts

theorem Staged.progress {r} (h : Staged texts s fn given r s') :
    Progress texts s given s' := ⟨h.accounts, .of_scope h.scope h.texts⟩

theorem Specialize.agrees_specialize {start slow fast} (hs : s.Accounts texts start)
    (h : Staged texts s fn given (fast, scope) s1) (hslow : slow.name = fn.name)
    (hbound : code.BoundIn s.scope.vars.locals) (pos : Position) :
    Agrees texts (fun _ _ => specialize scope ⟨pos, .functionDef slow⟩ fast)
      (specialize scope ⟨pos, .functionDef slow⟩ fast) given
      (fun more ts s' => Progress texts s more s' ∧ SpecializedInto more code pos fn.name s ts s') ctx s1 := by
  refine .of_ensures h.accounts.distinct (ensures_definitions fun log => ?_)
  have hcopied := h.accounts.copied
  have hnames := h.accounts.names
  rw [h.scope] at hcopied hnames ⊢
  refine ⟨given, Subset.refl _, h.accounts.distinct, ⟨?_, ?_⟩, slow, fast, scope.guards, scope.copied, _, rfl, ?_⟩
  · exact ⟨h.accounts.distinct, h.accounts.texts, h.accounts.chosen, hcopied, hnames⟩
  · exact ⟨subset_cons_self _ _, h.texts, fun p hp => .inl hp⟩
  · refine ⟨hslow, h.name, h.names, h.chosen, fun p hp =>
      ⟨h.fresh p hp, h.accounts.chosen p (h.chosen hp), fun hp' => ?_⟩,
      hbound, rfl, rfl⟩
    exact h.fresh p hp (hs.chosen p (hs.copied hp'))

/-! ### Statements -/

namespace Visitor

/-- The visitors visit expressions in the same way, and statements so that they agree. -/
structure Concurs (texts : List String) (code : Code) (v' : Table → Failure → Visitor) (v : Visitor) : Prop where
  same : ∀ all failure, (v' all failure).expr = v.expr
  expr : ∀ e, Choosing (v.expr e)
  stmt : ∀ t, Visit.Concurs texts code (fun all failure => (v' all failure).stmt t) (v.stmt t)

namespace Concurs

variable {inner : Code} {v' : Table → Failure → Visitor} {v : Visitor}

section

variable (h : Concurs texts code v' v)
include h

theorem visitExpr (e : Expr) : Visit.Concurs texts code (fun all failure => (v' all failure).expr e) (v.expr e) := by
  simp only [h.same]
  exact .of_choosing (h.expr e)

theorem body (required : Bool) (ts : List Stmt) :
    Visit.Concurs texts code (fun all failure => (v' all failure).body required ts) (v.body required ts) := by
  unfold Visitor.body
  have hvisit := Visit.Concurs.compositional.flatMapM (f := fun i => (v' i.1 i.2).stmt) fun t (_ : t ∈ ts) => h.stmt t
  refine .bind hvisit fun visited => .of_choosing ?_
  refine .bind Choosing.closed.read fun ctx => ?_
  split
  · refine .bind (DeadCode.choosing_trimBody visited) fun trimmed => ?_
    dsimp only
    split <;> exact Choosing.closed.pure _
  · refine .bind (Choosing.closed.pure visited) fun trimmed => ?_
    dsimp only
    split <;> exact Choosing.closed.pure _

theorem stmtChildren (t : Stmt) :
    Visit.Concurs texts code (fun all failure => (v' all failure).stmtChildren t) (v.stmtChildren t) :=
  Visit.Concurs.compositional.stmtChildren (v := fun i => v' i.1 i.2) h.visitExpr .conditionally
    fun _ required body _ => h.body required body

theorem leaveStmt {ps} (hps : ∀ p ∈ ps, ∀ t, Choosing (p.leaveStmt t)) (t : Stmt) :
    Visit.Concurs texts code (fun all failure => (v' all failure).leaveStmt ps t) (v.leaveStmt ps t) := by
  induction ps generalizing t with
  | nil => exact .pure [t]
  | cons p ps ih =>
    have hrest := ih fun q hq => hps q (by simp [hq])
    simp only [Visitor.leaveStmt]
    refine .bind (.of_choosing (hps p (by simp) t)) fun step => ?_
    cases step with
    | keep => exact hrest t
    | replace new =>
      dsimp only
      split
      · exact hrest new
      · exact .pure [new]
    | splice body => exact .pure body
    | revisit body => exact h.body false body

end

theorem classBody {cls} (h : Concurs texts ⟨[], cls.body⟩ v' v) (hs : s.Accounts texts given) (t : Stmt) :
    Agrees texts (fun all failure => (v' all failure).classBody t cls) (v.classBody t cls) given
      (fun more new s' => Progress texts s more s' ∧
        (new = t ∨ ∃ cls', new = t.withKind (.classDef cls'))) ctx s := by
  unfold Visitor.classBody
  refine .bind (.analyzed hs cls.body []) fun more r s1 hmore h1 => ?_
  obtain ⟨hs1, ⟨log, rfl⟩, hvars⟩ := h1
  cases r with
  | none => exact .pure hs1.distinct ⟨⟨hs1, .of_scope rfl (Subset.refl _)⟩, .inl rfl⟩
  | some vars =>
    have hbody := h.body true cls.body more (ctx.inside s.scope .generic false)
      { s with log := log, scope := { kind := .classBody, vars := vars }, known := {} }
      ⟨hs1.withScope (nil_subset _) .nil, fun _ => ⟨vars, hvars vars rfl, Subset.refl _⟩⟩
    have hinside : Agrees texts
        (fun all failure => Visitor.inside .classBody vars ((v' all failure).body true cls.body))
        (Visitor.inside .classBody vars (v.body true cls.body)) more
        (fun more' _ s' => Progress texts s more' s') ctx { s with log := log } := by
      refine .bind (.inScope (hbody.imp fun more' _ s' hmore' h' => ?_)) fun more' _ s' _ h' =>
        .pure h'.accounts.distinct h'
      exact ⟨h'.accounts.withScope (fun _ hp => hmore' (hs1.copied hp)) hs1.names, .of_scope rfl h'.gains.texts⟩
    exact .bind hinside fun more' _ s' _ h' => .pure h'.accounts.distinct ⟨h', .inr ⟨_, rfl⟩⟩

theorem functionStage (h : Concurs texts code v' v) (stage : Stage) (allowGuards : Bool) {version}
    (hs : Staged texts s fn given (version, scope) s1)
    (hbound : stage.entersScopes = true → ∀ vars, Variables.ofBody version.body version.params.names = .ok vars →
      code.BoundIn vars.locals) :
    Agrees texts (fun all failure => (v' all failure).functionStage stage allowGuards scope version)
      (v.functionStage stage allowGuards scope version) given (Staged texts s fn) ctx s1 := by
  unfold Visitor.functionStage
  have hanalysis : Ensures (Visit.ofExcept (Variables.ofBody version.body version.params.names)) (fun _ => True)
      (fun vars s' => ∃ more : Table, given ⊆ more ∧ more.Distinct texts ∧ more = given ∧ s' = s1 ∧
        Variables.ofBody version.body version.params.names = .ok vars) ctx s1 := by
    cases Variables.ofBody version.body version.params.names with
    | ok vars => exact ⟨given, Subset.refl _, hs.accounts.distinct, rfl, rfl, rfl⟩
    | error cause => exact trivial
  refine .bind (.of_ensures hs.accounts.distinct hanalysis) fun more vars s1 hmore h1 => ?_
  obtain ⟨rfl, rfl, hvars⟩ := h1
  have hbody := h.body true version.body more (ctx.inside s1.scope stage allowGuards)
    (s1.inside { scope with vars := vars, functions := [] })
    ⟨hs.accounts.withScope hs.chosen hs.names, fun hstage => hbound hstage vars hvars⟩
  refine .bind (.inScope (hbody.imp fun more' body s' hmore' h' => ?_)) fun more' r s' _ h' =>
    .pure h'.accounts.distinct h'
  refine ⟨h'.accounts.withScope (fun _ hp => hmore' (hs.accounts.copied hp)) hs.accounts.names, hs.scope,
    fun _ ht => h'.gains.texts (hs.texts ht), hs.name, h'.accounts.names, h'.accounts.copied, fun p hp => ?_⟩
  rcases h'.gains.copied p hp with hp | hp
  · exact hs.fresh p hp
  · exact fun ht => hp (hs.texts ht)

/-- The visit of a function gives another definition, or that of a specialized function. -/
def Defines (texts : List String) (code : Code) (pos : Position) (name : Ident) (s : State) (given : Table)
    (r : Stmt ⊕ List Stmt) (s' : State) : Prop :=
  Progress texts s given s' ∧ ((∃ new, r = .inl ⟨pos, .functionDef new⟩) ∨
    ∃ ts, r = .inr ts ∧ SpecializedInto given code pos name s ts s')

/-- The stages that enter nested scopes know all variables of the function: the second one starts from a body with the
same names. -/
theorem function (h : Concurs texts ⟨fn.params.names, fn.body⟩ v' (visitor n)) (hs : s.Accounts texts given)
    (hbound : code.BoundIn s.scope.vars.locals) (pos : Position) :
    Agrees texts (fun all failure => (v' all failure).function ⟨pos, .functionDef fn⟩ fn)
      ((visitor n).function ⟨pos, .functionDef fn⟩ fn) given (Defines texts code pos fn.name s) ctx s := by
  unfold Visitor.function
  refine .bind (.analyzed hs fn.body fn.params.names) fun more0 r s0 _ h0 => ?_
  obtain ⟨hs0, ⟨log, rfl⟩, hvars⟩ := h0
  cases r with
  | none => exact .pure hs0.distinct ⟨⟨hs0, .of_scope rfl (Subset.refl _)⟩, .inl ⟨fn, rfl⟩⟩
  | some vars =>
    replace hvars := hvars vars rfl
    have hstart : Staged texts s fn more0 (fn, { kind := .function, vars := vars }) { s with log := log } :=
      ⟨hs0, rfl, Subset.refl _, rfl, .nil, nil_subset _, nofun⟩
    refine .bind ((h.functionStage .restricted false hstart fun hstage => by cases hstage).and_ensures
      (Visitor.ensures_sameNames n hvars)) fun more1 r1 s1 _ h1 => ?_
    obtain ⟨slow, scope1⟩ := r1
    obtain ⟨hs1, _, hsame⟩ := h1
    dsimp only
    split
    · have hlog := Choosing.closed.log pos.line "skip optimisation: don\x27t support decorators"
      refine .bind (.of_choosing hlog hs1.accounts (hlog ctx s1)) fun more2 _ s2 _ h2 => ?_
      exact .pure h2.1.distinct ⟨hs1.progress.trans ⟨h2.1, .of_chooses h2.2.1⟩, .inl ⟨slow, rfl⟩⟩
    have hspecialize : ∀ {more s' scope fast}, Staged texts s fn more (fast, scope) s' →
        Agrees texts (fun _ _ => Sum.inr <$> Specialize.specialize scope ⟨pos, .functionDef slow⟩ fast)
          (Sum.inr <$> Specialize.specialize scope ⟨pos, .functionDef slow⟩ fast) more
            (Defines texts code pos fn.name s)
          ctx s' := by
      intro more s' scope fast hs'
      simp only [map_eq_pure_bind]
      refine .bind (Specialize.agrees_specialize hs hs' hs1.name hbound pos) fun more'' ts s'' _ h'' => ?_
      exact .pure h''.1.accounts.distinct ⟨h''.1, .inr ⟨ts, rfl, h''.2⟩⟩
    refine .bind (h.functionStage .specialize true hs1 fun _ vars' hvars' =>
      ⟨vars, hvars, fun name hname => ((hsame vars' hvars').locals name).mpr hname⟩) fun more2 r2 s2 _ hs2 => ?_
    obtain ⟨fast, scope2⟩ := r2
    dsimp only
    split
    · split
      · exact .pure hs2.accounts.distinct ⟨hs2.progress, .inl ⟨fast, rfl⟩⟩
      · exact hspecialize hs2
    refine .bind (h.functionStage .restricted true hs2 fun hstage => by cases hstage) fun more3 r3 s3 _ hs3 => ?_
    exact hspecialize hs3

theorem stmtInside_function (h : Concurs texts ⟨fn.params.names, fn.body⟩ v' (visitor n))
    (hfits : code.Fits texts given ctx s) (pos : Position) :
    Agrees texts (fun all failure => (v' all failure).stmtInside ⟨pos, .functionDef fn⟩)
      ((visitor n).stmtInside ⟨pos, .functionDef fn⟩) given (Defines texts code pos fn.name s) ctx s := by
  refine .read_bind ?_
  dsimp only
  split
  · rename_i hstage
    exact h.function hfits.accounts (hfits.bound hstage) pos
  · exact .pure hfits.accounts.distinct ⟨⟨hfits.accounts, .refl s⟩, .inl ⟨fn, rfl⟩⟩

theorem stmtInside_class {cls} (h : Concurs texts ⟨[], cls.body⟩ v' v)
    (hs : s.Accounts texts given) (pos : Position) :
    Agrees texts (fun all failure => (v' all failure).stmtInside ⟨pos, .classDef cls⟩)
      (v.stmtInside ⟨pos, .classDef cls⟩) given
      (fun more r s' => Progress texts s more s' ∧ ∃ new, r = .inl ⟨pos, .classDef new⟩) ctx s := by
  refine .read_bind ?_
  dsimp only
  split
  · refine .bind (h.classBody hs ⟨pos, .classDef cls⟩) fun more new s' _ h' => .pure h'.1.accounts.distinct ⟨h'.1, ?_⟩
    rcases h'.2 with rfl | ⟨cls', rfl⟩
    · exact ⟨cls, rfl⟩
    · exact ⟨cls', rfl⟩
  · exact .pure hs.distinct ⟨⟨hs, .refl s⟩, cls, rfl⟩

variable {t : Stmt}

theorem leaveStmt_of_inert {stage : Stage} (ht : t.isInert = true) (hgiven : given.Distinct texts)
    {post : Table → List Stmt → State → Prop} (hpost : post given [t] s) :
    Agrees texts (fun all failure => (v' all failure).leaveStmt stage.passes t)
      (v.leaveStmt stage.passes t) given post ctx s := by
  have hrun : ∀ w : Visitor, w.leaveStmt stage.passes t ctx s = .ok [t] s := by
    intro w
    have hleave : Ensures (w.leaveStmt stage.passes t) (fun _ => False) (fun ts s' => ts = [t] ∧ s' = s) ctx s :=
      ensures_leaveStmt_of_inert ht ⟨rfl, rfl⟩
    cases hw : w.leaveStmt stage.passes t ctx s with
    | ok ts s' =>
      obtain ⟨rfl, rfl⟩ := hleave.of_ok hw
      rfl
    | error failure s' => exact (hleave.of_error hw).elim
  refine ⟨given, Subset.refl _, hgiven, fun all failure _ => (hrun _).trans (hrun v).symm, fun ts s' heq => ?_⟩
  rw [hrun] at heq
  cases heq
  exact hpost

theorem visitStmt_of_not_scope (h : Concurs texts code v' v) (ht : t.isScope = false) :
    Visit.Concurs texts code (fun all failure => (v' all failure).visitStmt t) (v.visitStmt t) := by
  refine .atStmt (.bind (.of_choosing Choosing.closed.read) fun ctx => ?_) t
  simp only [Visitor.stmtHeader_of_not_scope _ ht, Visitor.stmtInside_of_not_scope _ ht, pure_bind]
  refine .bind (.of_choosing (ctx.stage.choosing_enterAll t)) fun _ => ?_
  refine .bind (.bind (h.stmtChildren t) fun _ => .pure _) fun r => ?_
  cases r with
  | inl new => exact h.leaveStmt ctx.stage.choosing_leaveStmt new
  | inr ts => exact .pure ts

theorem stmtHeader (h : Concurs texts inner v' v) (hs : s.Accounts texts given) (code : Code) (t : Stmt) :
    Agrees texts (fun all failure => (v' all failure).stmtHeader t) (v.stmtHeader t) given
      (fun more new s' => s'.Accounts texts more ∧ s.Chooses s' ∧
        new.sameKind t = true ∧ new.pos = t.pos ∧ new.inner code = t.inner code ∧
        (Node.stmt new).places = (Node.stmt t).places) ctx s := by
  have hsame : ∀ all failure, (v' all failure).stmtHeader t = v.stmtHeader t := by
    intro all failure
    change (⟨(v' all failure).expr, v.stmt⟩ : Visitor).stmtHeader t = _
    rw [h.same]
  simp only [hsame]
  refine .of_choosing (Choosing.closed.stmtHeader h.expr t) hs ?_
  cases ht : t.isScope with
  | false =>
    rw [v.stmtHeader_of_not_scope ht]
    exact .pure ⟨beq_self_eq_true _, rfl, rfl, rfl⟩
  | true =>
    refine (v.ensures_rebuildsHeader ht).imp fun new s' hnew => ?_
    cases hnew with
    | function _ hparams => exact ⟨rfl, rfl, congrArg (Code.mk · _) hparams.names_eq, rfl⟩
    | classDef => exact ⟨rfl, rfl, rfl, rfl⟩

theorem visitStmt (h : Concurs texts (t.inner code) v' (visitor n)) (hfits : code.Fits texts given ctx s) :
    Agrees texts (fun all failure => (v' all failure).visitStmt t) ((visitor n).visitStmt t) given
      (fun more ts s' => Progress texts s more s' ∧ Visited more code s t ts s') ctx s := by
  cases ht : t.isScope with
  | false =>
    obtain ⟨hinner, hfunction⟩ : t.inner code = code ∧ ∀ fn, t.kind ≠ .functionDef fn := by
      obtain ⟨pos, kind⟩ := t
      cases kind with
      | functionDef | classDef => cases ht
      | _ => exact ⟨rfl, fun _ hfn => by cases hfn⟩
    rw [hinner] at h
    refine (h.visitStmt_of_not_scope ht given ctx s hfits).imp fun more ts s' _ h' => ⟨h', h'.gains, fun fn hfn => ?_⟩
    exact absurd hfn (hfunction fn)
  | true =>
    refine .atStmt t (.read_bind ?_)
    refine .bind (h.stmtHeader hfits.accounts code t) fun more1 new s1 _ h1 => ?_
    obtain ⟨hs1, hchooses1, hkind, hpos, hinner, hplaces⟩ := h1
    have henter := ctx.stage.choosing_enterAll new
    refine .bind (.of_choosing henter hs1 (henter ctx s1)) fun more2 _ s2 _ h2 => ?_
    obtain ⟨hs2, hchooses2, _⟩ := h2
    have hlocals : s2.scope.vars.locals = s.scope.vars.locals := hchooses2.locals.trans hchooses1.locals
    have hprogress : Progress texts s more2 s2 := ⟨hs2, .of_chooses (hchooses1.trans hchooses2)⟩
    rw [← hinner] at h
    obtain ⟨pos, kind⟩ := t
    obtain ⟨pos', kind'⟩ := new
    obtain rfl : pos' = pos := hpos
    cases kind with
    | functionDef fn =>
      cases kind' with
      | functionDef fn' =>
        refine .bind (h.stmtInside_function (hfits.progress hprogress) pos') fun more3 r s3 _ h3 => ?_
        obtain ⟨hprogress3, hr⟩ := h3
        have hall := hprogress.trans hprogress3
        have hname : fn'.name = fn.name := by simpa [Node.places] using hplaces
        rw [hname] at hr
        rcases hr with ⟨new, rfl⟩ | ⟨ts, rfl, hts⟩
        · exact leaveStmt_of_inert rfl hall.accounts.distinct ⟨hall, hall.gains, fun _ _ => .inl ⟨new, rfl⟩⟩
        · refine .pure hall.accounts.distinct ⟨hall, hall.gains, fun _ hfn => .inr ?_⟩
          cases hfn
          exact hts.after hlocals hprogress.gains.texts
      | _ => cases hkind
    | classDef cls =>
      cases kind' with
      | classDef cls' =>
        refine .bind (h.stmtInside_class hs2 pos') fun more3 r s3 _ h3 => ?_
        obtain ⟨hprogress3, new, rfl⟩ := h3
        have hall := hprogress.trans hprogress3
        exact leaveStmt_of_inert rfl hall.accounts.distinct ⟨hall, hall.gains, fun _ hfn => by cases hfn⟩
      | _ => cases hkind
    | _ => cases ht

end Concurs

end Visitor

theorem demandingVisitor_concurs
    (hdemand : ∀ given code s t ts s', Visited given code s t ts s' → demand given code s t ts s')
    (texts : List String) (n : Nat) (code : Code) :
    Visitor.Concurs texts code (fun all failure => demandingVisitor (demand all) failure n code) (visitor n) := by
  induction n generalizing code with
  | zero => exact ⟨fun _ _ => rfl, Choosing.closed.visitor 0, fun t => .of_choosing (Choosing.closed.fail _)⟩
  | succ n ih =>
    refine ⟨fun _ _ => rfl, Choosing.closed.visitor _, fun t given ctx s hfits => ?_⟩
    change Agrees texts (fun all failure =>
      ((demandingVisitor (demand all) failure n (t.inner code)).visitStmt t).demanding
      (fun s ts s' => demand all code s t ts s') failure) ((visitor n).visitStmt t) given _ ctx s
    refine Agrees.imp (.demanding ((ih (t.inner code)).visitStmt hfits) fun more all ts s' hall h' => ?_)
      fun _ _ _ _ h' => h'.1
    exact hdemand all code s t ts s' (h'.2.mono hall)

theorem Module.agrees_visit
    (hdemand : ∀ given code s t ts s', Visited given code s t ts s' → demand given code s t ts s') (n : Nat)
    (m : Module)
    (ctx : Context) : Agrees (Stmt.texts m.body)
      (fun all failure => m.visit (demandingVisitor (demand all) failure n ⟨[], m.body⟩)) (m.visit (visitor n)) []
      (fun _ _ _ => True) ctx m.start := by
  have hstart : m.start.Accounts (Stmt.texts m.body) [] :=
    ⟨⟨.nil, by simp⟩, Subset.refl _, by simp, Subset.refl _, .nil⟩
  have hconfig := Choosing.closed.config
  refine .bind (.of_choosing hconfig hstart (hconfig _ _)) fun more1 config s1 _ h1 => ?_
  split
  · have hlog := Choosing.closed.log 1 ("skip optimisation: disabled in " ++ configName)
    exact .bind (.of_choosing hlog h1.1 (hlog _ _)) fun _ _ _ _ h => .pure h.1.distinct trivial
  refine .bind (.analyzed h1.1 m.body []) fun more2 r s2 _ h2 => ?_
  obtain ⟨hs2, _, hvars⟩ := h2
  cases r with
  | none => exact .pure hs2.distinct trivial
  | some vars =>
    have hmodify : Ensures (Visit.modifyScope fun scope => { scope with vars := vars }) (fun _ => True)
        (fun _ s' => ∃ more : Table, more2 ⊆ more ∧ more.Distinct (Stmt.texts m.body) ∧
          (⟨[], m.body⟩ : Code).Fits (Stmt.texts m.body) more ctx s') ctx s2 := by
      refine ensures_modifyScope.mpr ⟨more2, Subset.refl _, hs2.distinct, ?_, fun _ => ?_⟩
      · exact ⟨hs2.distinct, hs2.texts, hs2.chosen, hs2.copied, hs2.names⟩
      · exact ⟨vars, hvars vars rfl, Subset.refl _⟩
    refine .bind (.of_ensures hs2.distinct hmodify) fun more3 _ s3 _ hfits => ?_
    have hbody := (demandingVisitor_concurs hdemand (Stmt.texts m.body) n ⟨[], m.body⟩).body false m.body
    refine .imp (Concurs.bind hbody (fun body => ?_) more3 ctx s3 hfits) fun _ _ _ _ _ => trivial
    exact .of_choosing (.bind .get fun _ => Choosing.closed.pure _)

/-- Optimizing a module is the same if each visit of a statement has to meet a demand that holds of all visits.  It
may depend on a table of all placeholders of the module. -/
theorem optimize_demanding (demand : Table → Demand)
    (hdemand : ∀ given code s t ts s', Visited given code s t ts s' → demand given code s t ts s') (n : Nat)
    (config : Config) (filename : String) (source : Option String) (m : Module) :
    ∃ given : Table, given.Distinct (Stmt.texts m.body) ∧ ∀ failure,
      optimizeWith (demandingVisitor (demand given) failure n ⟨[], m.body⟩) config filename source m =
        optimizeWith (visitor n) config filename source m := by
  obtain ⟨given, _, hdistinct, hsame, _⟩ := m.agrees_visit hdemand n (m.context config filename source)
  exact ⟨given, hdistinct, fun failure => congrArg Report.ofResult (hsame given failure (Subset.refl _))⟩

end Speculator
