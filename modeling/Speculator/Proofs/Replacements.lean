import Speculator.Proofs.CallGraph
import Speculator.Proofs.Folding
import Speculator.Proofs.Frame
import Speculator.Proofs.PureCalls

/-!
# What the passes can do with an expression

The passes look at an expression when its parts have been visited.  What they may make of it is listed once: an
operation on literals is folded (`Folding.Folded`), a name or a call becomes a literal (`Leaves`), or a call becomes
what the called function returns (`Inlining.Proceeds`).  Before the parts are visited, only comprehensions over
constants are looked at, which become displays (`Unrolling.Unrolled`).
-/

namespace Speculator

open Visit

def State.addGuard (s : State) (g : Guard) : State :=
  { s with scope := { s.scope with guards := s.scope.guards.add g } }

/-! ### The passes one by one -/

/-- What a pass makes of an expression and the state, apart from inlining and the choice of placeholders. -/
inductive Leaves (ctx : Context) (s : State) : Expr → ExprStep → State → Prop
  | keep {e s'} (hs : s.Notes s') : Leaves ctx s e .keep s'
  | debug {pos s'} (hs : s.Notes s') : Leaves ctx s ⟨pos, .name "__debug__"⟩ (.replace ⟨pos, .const (.bool true)⟩) s'
  | known {pos id v new s'}
    (happlies : Propagation.applies s.scope id = true) (hv : s.known.get? id = some v)
    (hnew : ctx.config.limits.literal? v pos = some new) (hs : s.Notes s') :
    Leaves ctx s ⟨pos, .name id⟩ (.replace new) s'
  | folded {e new s'} (hnew : Folding.Folded ctx.config.limits e new) (hs : s.Notes s') :
    Leaves ctx s e (.replace new) s'
  | method {pos inner at' : Position} {receiver result : Value} {name : Ident} {args : List Expr}
      {values : List Value}
    {new : Expr} {s' : State} (hargs : Expr.literals? args = some values)
    (hnew : ctx.config.limits.literal? result pos = some new) (hs : s.Notes s') :
    Leaves ctx s ⟨pos, .call ⟨inner, .attr ⟨at', .const receiver⟩ name⟩ args []⟩ (.replace new) s'
  | builtin {pos inner : Position} {id : Ident} {c : Contract} {result : Value} {args : List Expr}
      {values : List Value}
    {new : Expr} {s' : State} (hc : ctx.config.catalog.builtin? id = some c)
    (hargs : Expr.literals? args = some values)
    (hresult : c.evaluate ctx.config.limits none values = .ok (some result))
    (hnew : ctx.config.limits.literal? result pos = some new) (hguards : ctx.allowGuards = true)
    (hs : (s.addGuard (.builtins [id])).Notes s') :
    Leaves ctx s ⟨pos, .call ⟨inner, .name id⟩ args []⟩ (.replace new) s'

/-- Only calls that raise an exception which the contract does not tolerate fail. -/
inductive Leaves.Fails (ctx : Context) : Expr → Failure → Prop
  | method {pos inner at' : Position} {receiver : Value} {name : Ident} {args : List Expr} {keywords : List Keyword}
    {c : Contract} {values : List Value} {fault : Fault}
    (hc : ctx.config.catalog.method? receiver.typeName name = some c)
    (hfault : c.evaluate ctx.config.limits (some receiver) values = .error (.untolerated c.name fault)) :
    Fails ctx ⟨pos, .call ⟨inner, .attr ⟨at', .const receiver⟩ name⟩ args keywords⟩
      (.unlocated (.untolerated c.name fault))
  | builtin {pos inner : Position} {id : Ident} {args : List Expr} {keywords : List Keyword} {c : Contract}
    {values : List Value} {fault : Fault} (hc : ctx.config.catalog.builtin? id = some c)
    (hfault : c.evaluate ctx.config.limits none values = .error (.untolerated c.name fault)) :
    Fails ctx ⟨pos, .call ⟨inner, .name id⟩ args keywords⟩ (.unlocated (.untolerated c.name fault))

/-- An inlined call is visited again, and it may need a guard. -/
inductive Inlining.Proceeds (ctx : Context) (s : State) : Expr → ExprStep → State → Prop
  | keep {e} : Proceeds ctx s e .keep s
  | inlined {pos inner id args keywords new guard? s'} (hinlining : ctx.config.inlining = true)
    (hnew : inlined? (s.scope :: ctx.enclosing) ctx.allowGuards ⟨pos, .call ⟨inner, .name id⟩ args keywords⟩ id args
      keywords = some (new, guard?)) (hs : (guard?.elim s s.addGuard).Notes s') :
    Proceeds ctx s ⟨pos, .call ⟨inner, .name id⟩ args keywords⟩ (.revisit new) s'

/-- The pass neither inlines nor chooses placeholders. -/
def Pass.Leaving (p : Pass) : Prop :=
  ∀ e ctx s, Ensures (p.leaveExpr e) (Leaves.Fails ctx e) (Leaves ctx s e) ctx s

section Passes

variable {ctx : Context} {s : State} {e : Expr}

theorem ensures_keep_expr : Ensures (pure .keep) (Leaves.Fails ctx e) (Leaves ctx s e) ctx s :=
  .pure (.keep (.refl s))

variable {p : Pass}

theorem Pass.leaving_of_stmts (hleave : p.leaveExpr = fun _ => pure .keep) : p.Leaving := by
  intro e ctx s
  rw [hleave]
  exact ensures_keep_expr

theorem Propagation.leaving_debugConstant : Pass.debugConstant.Leaving := by
  intro e ctx s
  change Ensures (debugConstant e) _ _ ctx s
  unfold debugConstant
  split
  · rename_i hkind
    obtain ⟨pos, kind⟩ := e
    cases hkind
    simp only [ensures_config_bind, ensures_isBuiltin_bind]
    split
    · exact .pure (.debug (.refl s))
    · exact ensures_keep_expr
  · exact ensures_keep_expr

theorem Propagation.leaving_propagation : Pass.propagation.Leaving := by
  intro e ctx s
  change Ensures (knownVariable e) _ _ ctx s
  unfold knownVariable
  split
  · rename_i id hkind
    obtain ⟨pos, kind⟩ := e
    cases hkind
    simp only [ensures_config_bind, ensures_scope_bind]
    split
    · exact ensures_keep_expr
    rename_i happlies
    rw [ensures_get_bind]
    split
    · exact ensures_keep_expr
    rename_i v hv
    rw [ensures_literal?_bind]
    split
    · exact ensures_keep_expr
    · rename_i hnew
      exact ensures_logQuoting_bind.mpr (.pure (.known (by simp_all) hv hnew ⟨_, rfl⟩))
  · exact ensures_keep_expr

theorem Folding.leaving_folding : Pass.folding.Leaving := by
  intro e ctx s
  change Ensures (leaveExpr e) _ _ ctx s
  have hreplace : ∀ {r s'}, s.Notes s' →
      (∀ new, r = some new → Folded ctx.config.limits e new) →
      Ensures (pure (.ofOption r)) (Leaves.Fails ctx e) (Leaves ctx s e) ctx s' := by
    intro r s' hs hr
    cases r with
    | none => exact .pure (.keep hs)
    | some new => exact .pure (.folded (hr new rfl) hs)
  unfold leaveExpr
  rw [ensures_config_bind]
  split
  · exact ensures_keep_expr
  obtain ⟨pos, kind⟩ := e
  split
  · rename_i left op right hkind
    cases hkind
    unfold foldBinary
    rw [ensures_config_bind]
    dsimp only
    split
    · rename_i l r hl hr
      rw [ensures_noteOverrun_bind]
      split
      · rename_i result hresult
        split
        · rename_i new hnew
          refine ensures_logQuoting_bind.mpr (.pure (.folded (.binary hl hr ?_ hnew) ⟨_, rfl⟩))
          unfold binary? at hresult
          split at hresult
          · cases hresult
          · exact toOption_eq_some hresult
        · exact .pure (.keep ⟨_, rfl⟩)
      · exact .pure (.keep ⟨_, rfl⟩)
    · exact ensures_keep_expr
  · rename_i hkind
    cases hkind
    exact hreplace (.refl s) fun new hnew => folded_of_foldUnary? hnew
  · rename_i hkind
    cases hkind
    rw [ensures_noteOverrun_bind]
    exact hreplace ⟨_, rfl⟩ fun new hnew => folded_of_foldSubscript? hnew
  · rename_i hkind
    cases hkind
    exact hreplace (.refl s) fun new hnew => folded_of_foldCompare? hnew
  · exact ensures_keep_expr

theorem PureCall.leaving_pureMethod : Pass.pureMethod.Leaving := by
  intro e ctx s
  change Ensures (method e) _ _ ctx s
  unfold method
  split
  · rename_i hkind
    obtain ⟨pos, kind⟩ := e
    cases hkind
    rw [ensures_config_bind]
    split
    · exact ensures_keep_expr
    rename_i c hc
    rw [ensures_bind_iff]
    refine ensures_evaluate ensures_keep_expr (fun values result new hkeywords hargs _ hnew => ?_)
      fun values fault hfault => .method hc hfault
    cases hkeywords
    exact ensures_logQuoting_bind.mpr (.pure (.method hargs hnew ⟨_, rfl⟩))
  · exact ensures_keep_expr

theorem PureCall.leaving_pureBuiltin : Pass.pureBuiltin.Leaving := by
  intro e ctx s
  change Ensures (builtin e) _ _ ctx s
  unfold builtin
  split
  · rename_i hkind
    obtain ⟨pos, kind⟩ := e
    cases hkind
    rw [ensures_config_bind]
    split
    · exact ensures_keep_expr
    rename_i c hc
    rw [ensures_isBuiltin_bind]
    split
    · exact ensures_keep_expr
    rw [ensures_bind_iff]
    refine ensures_evaluate ensures_keep_expr (fun values result new hkeywords hargs hresult hnew => ?_)
      fun values fault hfault => .builtin hc hfault
    cases hkeywords
    rw [ensures_addGuard_bind]
    split
    · rename_i hguards
      exact ensures_logQuoting_bind.mpr (.pure (.builtin hc hargs hresult hnew hguards ⟨_, rfl⟩))
    · exact ensures_keep_expr
  · exact ensures_keep_expr

theorem Inlining.ensures_leaveExpr : Ensures (leaveExpr e) (fun _ => False) (Proceeds ctx s e) ctx s := by
  have hkeep : Ensures (pure .keep) (fun _ => False) (Proceeds ctx s e) ctx s := .pure .keep
  unfold leaveExpr
  rw [ensures_config_bind]
  split
  · exact hkeep
  rename_i hinlining
  have hinlining : ctx.config.inlining = true := by simpa using hinlining
  split
  · rename_i inner id args keywords hkind
    obtain ⟨pos, kind⟩ := e
    cases hkind
    simp only [ensures_chain_bind, ensures_read_bind]
    split
    · exact hkeep
    rename_i new guard? hnew
    cases guard? with
    | none => exact Proceeds.inlined hinlining hnew ⟨_, rfl⟩
    | some g =>
      rw [ensures_addGuard_bind]
      split
      · exact ensures_logQuoting_bind.mpr (.pure (.inlined hinlining hnew ⟨_, rfl⟩))
      · exact hkeep
  · exact hkeep

theorem Placeholder.ensures_leaveExpr : Ensures (Pass.placeholder.leaveExpr e) (fun _ => False) (fun step s' =>
    step = .keep ∧ (s' = s ∨ ∃ id text, e.kind = .name id ∧ ctx.config.copyBuiltinToConstant = true ∧
      ctx.config.copyBuiltinNames.contains id = true ∧ s'.known = s.known ∧
      s'.scope.copied = s.scope.copied ++ [(id, text)])) ctx s := by
  have hchoose : ∀ id, Ensures (choose id) (fun _ => False) (fun _ s' => s' = s ∨ ∃ text,
      ctx.config.copyBuiltinToConstant = true ∧ ctx.config.copyBuiltinNames.contains id = true ∧ s'.known = s.known ∧
      s'.scope.copied = s.scope.copied ++ [(id, text)]) ctx s := by
    intro id
    unfold choose
    rw [ensures_config_bind]
    split
    · exact .pure (.inl rfl)
    rename_i hcopy
    simp only [ensures_scope_bind, ensures_isBuiltin_bind]
    split
    · exact .pure (.inl rfl)
    rw [ensures_addGuard_bind]
    split
    · refine .inr ⟨_, ?_, ?_, rfl, rfl⟩ <;> simp_all
    · exact .pure (.inl rfl)
  simp only [Pass.placeholder]
  split
  · rename_i hkind
    refine (hchoose _).bind fun _ s' h => .pure ⟨rfl, ?_⟩
    rcases h with h | ⟨text, h⟩
    · exact .inl h
    · exact .inr ⟨_, text, hkind, h⟩
  · exact .pure ⟨rfl, .inl rfl⟩

theorem Pass.leaving_or (stage : Stage) : ∀ p ∈ stage.passes,
    p.Leaving ∨ p = .inlining ∨ p = .placeholder ∧ stage = .specialize := by
  have hstmts : ∀ {p : Pass} {P : Prop}, p.leaveExpr = (fun _ => pure .keep) → p.Leaving ∨ P :=
    fun h => .inl (leaving_of_stmts h)
  intro p hp
  cases stage with
  | specialize =>
    simp only [Stage.passes, List.mem_cons, List.not_mem_nil, or_false] at hp
    rcases hp with rfl | rfl | rfl | rfl
    exacts [.inl PureCall.leaving_pureBuiltin, hstmts rfl, .inr (.inl rfl), .inr (.inr ⟨rfl, rfl⟩)]
  | generic | restricted =>
    simp only [Stage.passes, List.mem_cons, List.not_mem_nil, or_false] at hp
    rcases hp with rfl | rfl | rfl | rfl | rfl | rfl | rfl | rfl | rfl
    exacts [hstmts rfl, .inl Propagation.leaving_debugConstant, .inl Propagation.leaving_propagation,
      .inl Folding.leaving_folding, .inl PureCall.leaving_pureMethod, hstmts rfl, hstmts rfl, hstmts rfl,
      .inr (.inl rfl)]

theorem Stage.leaves_leaveExpr (stage : Stage) (hp : p ∈ stage.passes) :
    Ensures (p.leaveExpr e) (fun _ => True) (fun step s' => match step with
      | .keep => True
      | .replace _ => Leaves ctx s e step s'
      | .revisit _ => Inlining.Proceeds ctx s e step s') ctx s := by
  rcases Pass.leaving_or stage p hp with hleaving | rfl | ⟨rfl, _⟩
  · refine (hleaving e ctx s).mono (fun _ _ => trivial) fun step s' h => ?_
    cases step with
    | keep => trivial
    | replace => exact h
    | revisit => cases h
  · refine Inlining.ensures_leaveExpr.mono (fun _ _ => trivial) fun step s' h => ?_
    cases step with
    | keep => trivial
    | replace => cases h
    | revisit => exact h
  · refine Placeholder.ensures_leaveExpr.mono (fun _ _ => trivial) fun step s' h => ?_
    rw [h.1]
    trivial

end Passes

namespace Unrolling

/-- The items of a display: an expression with each of some literals in the place of a name. -/
def instances (item : Expr) (id : Ident) (literals : List Expr) : List Expr :=
  literals.map fun l => item.substitute [(id, l)]

def Literals (limits : Limits) (literals : List Expr) : Prop :=
  literals ≠ [] ∧ ∀ l ∈ literals, ∃ v pos, limits.literal? v pos = some l

/-- The display that a comprehension over a constant may become. -/
inductive Unrolled (limits : Limits) : Expr → Expr → Prop
  | list {pos target iter item id v literals}
    (htarget : target.name? = some id) (hiter : iter.constant? = some v) (hitem : item.hasScope = false)
    (hliterals : Literals limits literals) : Unrolled limits ⟨pos, .listComp item [⟨target, iter, [], false⟩]⟩
      ⟨pos, .list (instances item id literals)⟩
  | set {pos target iter item id v literals}
    (htarget : target.name? = some id) (hiter : iter.constant? = some v) (hitem : item.hasScope = false)
    (hliterals : Literals limits literals) : Unrolled limits ⟨pos, .setComp item [⟨target, iter, [], false⟩]⟩
      ⟨pos, .set (instances item id literals)⟩
  | dict {pos target iter key value id v literals}
    (htarget : target.name? = some id) (hiter : iter.constant? = some v) (hkey : key.hasScope = false)
    (hvalue : value.hasScope = false) (hliterals : Literals limits literals) :
    Unrolled limits ⟨pos, .dictComp key value [⟨target, iter, [], false⟩]⟩
      ⟨pos, .dict (instances key id literals) (instances value id literals)⟩

/-- A comprehension of one name, and its form. -/
inductive Forms : Expr → Comprehension → Prop
  | list {pos target iter item id} (htarget : target.name? = some id) :
    Forms ⟨pos, .listComp item [⟨target, iter, [], false⟩]⟩ ⟨iter, id, [item], fun f => .list (f item)⟩
  | set {pos target iter item id} (htarget : target.name? = some id) :
    Forms ⟨pos, .setComp item [⟨target, iter, [], false⟩]⟩ ⟨iter, id, [item], fun f => .set (f item)⟩
  | dict {pos target iter key value id} (htarget : target.name? = some id) :
    Forms ⟨pos, .dictComp key value [⟨target, iter, [], false⟩]⟩
      ⟨iter, id, [key, value], fun f => .dict (f key) (f value)⟩

variable {e new : Expr} {config : Config} {kind : ScopeKind} {count : Nat}

theorem forms_of_comprehension? {c} (h : comprehension? e = some c) : Forms e c := by
  have honly : ∀ {gens id iter}, onlyGenerator? gens = some (id, iter) →
      ∃ target, gens = [⟨target, iter, [], false⟩] ∧ target.name? = some id := by
    intro gens id iter h
    unfold onlyGenerator? at h
    split at h
    · obtain ⟨id', hid, h⟩ := Option.map_eq_some_iff.mp h
      cases h
      exact ⟨_, rfl, hid⟩
    · cases h
  obtain ⟨pos, kind⟩ := e
  cases kind with
  | listComp | setComp | dictComp =>
    obtain ⟨⟨id, iter⟩, hgens, rfl⟩ := Option.map_eq_some_iff.mp h
    obtain ⟨target, rfl, htarget⟩ := honly hgens
    constructor
    exact htarget
  | _ => cases h

theorem of_unrolledComprehension? (h : unrolledComprehension? config kind e = some (new, count)) :
    ∃ c items literals, Forms e c ∧ constantItems? c.iter = some items ∧ movable kind c = true ∧
      countAllowed config.unrollLoops items = true ∧
      items.mapM (fun item => config.limits.literal? item c.iter.pos) = some literals ∧
      new = e.withKind (c.display fun part => instances part c.target literals) := by
  obtain ⟨c, hc, h⟩ := Option.bind_eq_some_iff.mp h
  obtain ⟨items, hitems, h⟩ := Option.bind_eq_some_iff.mp h
  split at h
  · rename_i hallowed
    obtain ⟨hmovable, hcount⟩ := Bool.and_eq_true_iff.mp hallowed
    obtain ⟨literals, hliterals, h⟩ := Option.bind_eq_some_iff.mp h
    cases h
    exact ⟨c, items, literals, forms_of_comprehension? hc, hitems, hmovable, hcount, hliterals, rfl⟩
  · cases h

theorem constant_of_constantItems? {iter items} (h : constantItems? iter = some items) :
    ∃ v, iter.constant? = some v := by
  unfold constantItems? at h
  split at h
  · exact ⟨_, ‹_›⟩
  · exact ⟨_, ‹_›⟩
  · exact ⟨_, ‹_›⟩
  · cases h

theorem unrolled_of_unrolledComprehension? (h : unrolledComprehension? config kind e = some (new, count)) :
    Unrolled config.limits e new := by
  obtain ⟨c, items, literals, hforms, hitems, hmovable, hcount, hliterals, rfl⟩ := of_unrolledComprehension? h
  obtain ⟨v, hv⟩ := constant_of_constantItems? hitems
  have hscope : ∀ part ∈ c.parts, part.hasScope = false := by
    intro part hpart
    have hpart := List.all_eq_true.mp hmovable part hpart
    simpa using (Bool.and_eq_true_iff.mp hpart).1
  have hall : Literals config.limits literals := by
    refine ⟨ne_nil_of_mapM hliterals ?_, fun l hl => ?_⟩
    · rintro rfl
      simp [countAllowed] at hcount
    · obtain ⟨item, _, hitem⟩ := mem_of_mapM hliterals hl
      exact ⟨item, _, hitem⟩
  cases hforms with
  | list htarget => exact .list htarget hv (hscope _ (by simp)) hall
  | set htarget => exact .set htarget hv (hscope _ (by simp)) hall
  | dict htarget => exact .dict htarget hv (hscope _ (by simp)) (hscope _ (by simp)) hall

end Unrolling

theorem Stage.unrolled_enterExpr (stage : Stage) {p} (hp : p ∈ stage.passes) {ctx s e} :
    Ensures (p.enterExpr e) (fun _ => False)
      (fun r s' => (∀ new, r = some new → Unrolling.Unrolled ctx.config.limits e new) ∧ s.Notes s') ctx s := by
  have hnone : Ensures (pure none) (fun _ => False)
      (fun r s' => (∀ new, r = some new → Unrolling.Unrolled ctx.config.limits e new) ∧ s.Notes s') ctx s :=
    .pure ⟨fun _ h => (by cases h), .refl s⟩
  have hunrolling : Ensures (Unrolling.enterExpr e) (fun _ => False)
      (fun r s' => (∀ new, r = some new → Unrolling.Unrolled ctx.config.limits e new) ∧ s.Notes s') ctx s := by
    unfold Unrolling.enterExpr
    simp only [ensures_config_bind, ensures_scope_bind]
    split
    · rename_i hnew
      refine ensures_log_bind.mpr (.pure ⟨fun new h => ?_, ⟨_, rfl⟩⟩)
      cases h
      exact Unrolling.unrolled_of_unrolledComprehension? hnew
    · exact hnone
  exact stage.forall_enterExpr (P := fun enter => Ensures (enter e) (fun _ => False) (fun r s' =>
    (∀ new, r = some new → Unrolling.Unrolled ctx.config.limits e new) ∧ s.Notes s') ctx s) hnone hunrolling p hp

end Speculator
