import Speculator.Proofs.Execution
import Speculator.Proofs.Steps

/-!
# Branches and loops that passes rewrite

The steps of the passes keep the executions of simple statements.  A constant display that a loop runs over may become
a tuple, a loop over constants may become the sequence of its iterations, and blocks that never run or do nothing may
go.
-/

namespace Speculator

open List

variable {ε : Type} {m : Meaning ε} {fuel : Nat} {t : Stmt} {limits : Limits}

/-! ### Simple statements -/

namespace Stmt

theorem Simple.isScope (ht : t.Simple) : t.isScope = false := by
  cases ht <;> rfl

theorem Simple.endsBody (ht : t.Simple) : t.endsBody = false := by
  cases ht <;> rfl

theorem mem_nodes_of_kind {node} (ht : t.isScope = false) (h : node ∈ t.kind.nodes Node.inScope) :
    node ∈ t.nodes Node.inScope := by
  obtain ⟨pos, kind⟩ := t
  rw [nodes, if_pos (by simp [Node.inScope, Node.isScope, ht])]
  exact mem_cons_of_mem _ h

theorem stays_runList {ts}
    (h : ∀ t ∈ ts, (∀ node ∈ t.nodes Node.inScope, node.stopsLoop = false) → Stays (t.run m fuel))
    (hnodes : ∀ node ∈ nodesList Node.inScope ts, node.stopsLoop = false) : Stays (runList m fuel ts) := by
  induction ts with
  | nil =>
    rw [runList_nil]
    exact fun _ => rfl
  | cons t ts ih =>
    simp only [nodesList, mem_append] at hnodes
    rw [runList]
    refine (h t (by simp) fun node hnode => hnodes node (.inl hnode)).next ?_
    exact ih (fun u hu => h u (by simp [hu])) fun node hnode => hnodes node (.inr hnode)

theorem Simple.stays (ht : t.Simple) (h : ∀ node ∈ t.nodes Node.inScope, node.stopsLoop = false) :
    Stays (t.run m fuel) := by
  induction ht with
  | expr | assign | delete =>
    rw [run]
    exact .given fun _ _ => rfl
  | augAssign =>
    rw [run]
    exact .given fun _ => .given fun _ => .given fun _ _ => rfl
  | cond _ _ _ ihbody ihorelse =>
    have hparts := fun node hnode => h node (mem_nodes_of_kind rfl hnode)
    simp only [StmtKind.nodes, mem_append] at hparts
    have hbody := stays_runList ihbody fun node hnode => hparts node (.inl (.inr hnode))
    have horelse := stays_runList ihorelse fun node hnode => hparts node (.inr hnode)
    rw [run]
    refine .given fun v env => ?_
    split
    · exact hbody env
    · exact horelse env
  -- what ends an iteration in the body of a loop belongs to that loop; only its `else` block matters
  | whileLoop _ _ _ _ ihorelse =>
    have hparts := fun node hnode => h node (mem_nodes_of_kind rfl hnode)
    simp only [StmtKind.nodes, mem_append] at hparts
    rw [run]
    exact .whileTrue (stays_runList ihorelse fun node hnode => hparts node (.inr hnode)) fuel
  | forLoop _ _ _ _ ihorelse =>
    have hparts := fun node hnode => h node (mem_nodes_of_kind rfl hnode)
    simp only [StmtKind.nodes, mem_append] at hparts
    rw [run]
    exact .given fun items => .forItems (stays_runList ihorelse fun node hnode => hparts node (.inr hnode)) items
  | pass =>
    rw [run]
    exact fun _ => rfl
  | brk | cont => cases h (.stmt _) (by rw [nodes]; exact mem_cons_self)

/-! ### Steps of passes -/

/-- The statements may take the place of another one. -/
structure Replaces (m : Meaning ε) (new : List Stmt) (t : Stmt) : Prop where
  simple : ∀ u ∈ new, u.Simple
  run : ∀ fuel, runList m fuel new = t.run m fuel

theorem Replaces.single {new} (hsimple : new.Simple) (hrun : ∀ fuel, new.run m fuel = t.run m fuel) :
    Replaces m [new] t :=
  ⟨by simpa using hsimple, fun fuel => by rw [runList_singleton, hrun]⟩

def isFor (t : Stmt) : Bool :=
  match t.kind with
  | .forLoop .. => true
  | _ => false

end Stmt

/-- What a pass may do with a simple statement.  Only loops over values are visited again. -/
def StmtStep.Means (m : Meaning ε) (t : Stmt) : StmtStep → Prop
  | .keep => True
  | .replace new => Stmt.Replaces m [new] t ∧ (new.isFor = true → t.isFor = true)
  | .splice body => Stmt.Replaces m body t
  | .revisit body => Stmt.Replaces m body t ∧ t.isFor = true

namespace DeadCode

theorem runList_of_doesNothing {block} (h : doesNothing block = true) (m : Meaning ε) (fuel : Nat) :
    Stmt.runList m fuel block = Stmt.runList m fuel [] := by
  induction block with
  | nil => rfl
  | cons t block ih =>
    obtain ⟨ht, hblock⟩ := Bool.and_eq_true_iff.mp (all_cons.symm.trans h)
    have hrun : t.run m fuel = fun env => ⟨[], env, .done⟩ := by
      unfold Stmt.isPass at ht
      split at ht
      · rename_i hk
        obtain ⟨pos, kind⟩ := t
        cases hk
        rw [Stmt.run]
      · cases ht
    funext env
    rw [Stmt.runList_cons, hrun, ih hblock, Stmt.runList_nil]
    rfl

theorem means_inPlaceOf {block} (h : Stmt.Replaces m block t) : (inPlaceOf t block).Means m t := by
  unfold inPlaceOf
  split
  · rename_i hempty
    rw [isEmpty_iff.mp hempty] at h
    refine ⟨.single .pass fun fuel => ?_, fun hfor => by cases hfor⟩
    rw [← h.run fuel, Stmt.withKind, Stmt.run, Stmt.runList_nil]
  · exact h

/-- What the removal makes of a simple statement has the same executions. -/
theorem Discards.means {removed step} (h : Discards t removed step) (ht : t.Simple) : step.Means m t := by
  cases h with
  | always htest hv =>
    cases ht with
    | cond _ hbody _ =>
      refine means_inPlaceOf ⟨hbody, fun fuel => funext fun env => ?_⟩
      rw [Stmt.run_cond, Expr.eval_of_constant m env htest, Execution.given_ok, if_pos hv]
  | never htest hv =>
    cases ht with
    | cond _ _ horelse =>
      refine means_inPlaceOf ⟨horelse, fun fuel => funext fun env => ?_⟩
      rw [Stmt.run_cond, Expr.eval_of_constant m env htest, Execution.given_ok, if_neg (by simp [hv])]
  | @negated pos test body orelse hbody _ =>
    cases ht with
    | cond htest _ horelse =>
      have hnot : (test.withKind (.unaryOp .not test)).Plain .simple := by
        rw [Expr.withKind, Expr.Plain]
        exact htest
      refine ⟨.single (.cond hnot horelse (by simp)) fun fuel => funext fun env => ?_, fun hfor => by cases hfor⟩
      -- the blocks change places when the test is negated
      rw [Stmt.run_cond, Stmt.run_cond, runList_of_doesNothing hbody, Expr.withKind, Expr.eval]
      cases test.eval m env with
      | error exception => rfl
      | ok v =>
        change (if (!v.truthy) = true then _ else _) = (if v.truthy = true then _ else _)
        cases v.truthy with
        | true => rfl
        | false => rfl
  | condElse horelse =>
    cases ht with
    | cond htest hbody _ =>
      refine ⟨.single (.cond htest hbody (by simp)) fun fuel => ?_, fun hfor => by cases hfor⟩
      rw [Stmt.run, Stmt.run, runList_of_doesNothing horelse]
  | idleWhile htest hv =>
    cases ht with
    | whileLoop _ _ horelse =>
      refine means_inPlaceOf ⟨horelse, fun fuel => funext fun env => ?_⟩
      rw [Stmt.run]
      cases fuel with
      | zero => rw [whileTrue, Expr.eval_of_constant m env htest, Execution.given_ok, if_neg (by simp [hv])]
      | succ => rw [whileTrue, Expr.eval_of_constant m env htest, Execution.given_ok, if_neg (by simp [hv])]
  | whileElse horelse =>
    cases ht with
    | whileLoop htest hbody _ =>
      refine ⟨.single (.whileLoop htest hbody (by simp)) fun fuel => ?_, fun hfor => by cases hfor⟩
      rw [Stmt.run, Stmt.run, runList_of_doesNothing horelse]
  | idleFor hiter =>
    cases ht with
    | forLoop _ _ horelse =>
      refine means_inPlaceOf ⟨horelse, fun fuel => funext fun env => ?_⟩
      rw [Stmt.run_forLoop, Expr.eval_of_constant m env hiter]
      rfl
  | forElse horelse =>
    cases ht with
    | forLoop hiter hbody _ =>
      refine ⟨.single (.forLoop hiter hbody (by simp)) fun fuel => ?_, fun _ => rfl⟩
      rw [Stmt.run, Stmt.run, runList_of_doesNothing horelse]
  | tryFinal | tryElse | tryMoved | tryWithoutElse => cases ht

end DeadCode

namespace Iterable

theorem items_constantDisplay (m : Meaning ε) {iter new} (hiter : iter.Plain .simple)
    (h : constantDisplay? limits iter = some new) :
    new.Plain .simple ∧ ∀ env, (new.eval m env >>= m.items) = iter.eval m env >>= m.items := by
  obtain ⟨value, hnew, ⟨values, hk⟩ | ⟨w, hw, hvalue⟩⟩ := exists_of_constantDisplay h
  · obtain ⟨pos, kind⟩ := iter
    cases hk
    rw [Expr.Plain] at hiter
    cases hiter.1
  unfold immutable? at hvalue
  split at hvalue
  · split at hvalue
    · rename_i items hitems
      cases hvalue
      have hconstant : (Value.tuple items).isConstant = true := by
        rw [Value.isConstant, Value.allConstant_iff]
        exact all_eq_true.mp hitems
      have hregular := Value.regular_of_isConstant false _ hconstant
      refine ⟨Expr.plain_literal? hregular hnew, fun env => ?_⟩
      rw [Limits.eval_literal? m env hregular hnew, Expr.eval_of_literal m env iter hw]
      rfl
    · cases hvalue
  · -- there are no displays of sets
    have hregular := Expr.regular_of_literal iter hiter hw
    rw [Value.Regular] at hregular
    cases hregular.1
  · cases hvalue

theorem means_constantDisplay {pos target iter new body orelse}
    (ht : Stmt.Simple ⟨pos, .forLoop target iter body orelse false⟩) (h : constantDisplay? limits iter = some new) :
    (StmtStep.replace ⟨pos, .forLoop target new body orelse false⟩).Means m
      ⟨pos, .forLoop target iter body orelse false⟩ := by
  cases ht with
  | forLoop hiter hbody horelse =>
    have hnew := items_constantDisplay m hiter h
    refine ⟨.single (.forLoop hnew.1 hbody horelse) fun fuel => funext fun env => ?_, fun _ => rfl⟩
    rw [Stmt.run_forLoop, Stmt.run_forLoop, hnew.2]

end Iterable

namespace Unrolling

theorem turn_eq_next {x : Execution ε} (h : x.signal.leavesIteration = false) (f : Env → Execution ε) :
    x.turn f = x.next f := by
  unfold Execution.turn Execution.next
  cases hsignal : x.signal with
  | brk | cont =>
    rw [hsignal] at h
    cases h
  | done | raised | timeout => rfl

/-- The iterations one after the other do the same as the loop, if nothing ends an iteration early. -/
theorem runList_iterations {at' id body orelse items literals} (hbody : Stays (Stmt.runList m fuel body))
    (hliterals : Forall₂ (fun v l => ∀ env, l.eval m env = .ok v) items literals) (env : Env) :
    Stmt.runList m fuel (iterations t ⟨at', .name id⟩ body literals ++ orelse) env =
      forItems id (Stmt.runList m fuel body) (Stmt.runList m fuel orelse) items env := by
  induction hliterals generalizing env with
  | nil => rfl
  | @cons v l items literals hl _ ih =>
    have hset : Stmt.run m fuel (t.withKind (.assign [⟨at', .name id⟩] l)) env =
        ⟨[], Function.update env id (some v), .done⟩ := by
      rw [Stmt.withKind, Stmt.run_assign, hl env, Execution.given_ok]
    rw [iterations, flatMap_cons, cons_append, cons_append, Stmt.runList_cons, hset,
      Execution.next_of_done rfl, Execution.after_nil, append_assoc, Stmt.runList_append, forItems,
      turn_eq_next (hbody _)]
    exact Execution.next_congr fun _ => ih _

theorem Unrolls.means {step} (h : Unrolls limits t step) (ht : t.Simple) : step.Means m t := by
  cases h with
  | keep => trivial
  | @unroll pos target iter id body orelse items literals _ hiter _ hliterals hstops =>
    cases ht with
    | @forLoop _ at' id _ _ _ hiterPlain hbody horelse =>
      have hconstant := Expr.isConstant_of_constant iter hiterPlain hiter
      rw [Value.isConstant, Value.allConstant_iff] at hconstant
      have hregular : ∀ item ∈ items, item.Regular false := fun item hitem =>
        Value.regular_of_isConstant false item (hconstant item hitem)
      have hparts := fun node hnode => hstops node (Stmt.mem_nodes_of_kind rfl hnode)
      simp only [StmtKind.nodes, mem_append] at hparts
      refine ⟨⟨fun u hu => ?_, fun fuel => funext fun env => ?_⟩, rfl⟩
      -- the statements of the iterations are simple
      · rcases mem_append.mp hu with hu | hu
        · obtain ⟨l, hl, hu⟩ := mem_flatMap.mp hu
          obtain ⟨item, hitem, hl⟩ := mem_of_mapM hliterals hl
          rcases mem_cons.mp hu with rfl | hu
          · exact .assign (Expr.plain_literal? (hregular item hitem) hl)
          · exact hbody u hu
        · exact horelse u hu
      -- nothing ends an iteration early, so that one follows the other
      · have hstays : Stays (Stmt.runList m fuel body) :=
          Stmt.stays_runList (fun t ht => (hbody t ht).stays) fun node hnode => hparts node (.inl (.inr hnode))
        rw [Stmt.run_forLoop, Expr.eval_of_constant m env hiter]
        refine runList_iterations hstays ?_ env
        refine ((forall₂_and_left _ _).mpr ⟨hregular, forall₂_of_mapM hliterals⟩).imp fun item l h => ?_
        exact fun env => Limits.eval_literal? m env h.1 h.2

end Unrolling

open Visit

/-- The pass keeps the executions of simple statements, and only changes the log and the places of bindings. -/
def Pass.KeepsExecution (p : Pass) (m : Meaning ε) : Prop :=
  ∀ {bad : Failure → Prop} {ctx : Context} {s : State} (t : Stmt), t.Simple →
    Ensures (p.leaveStmt t) bad (fun step s' => step.Means m t ∧ s.Frees s') ctx s

namespace Pass

theorem keepsExecution_of_exprs {p : Pass} (hleave : p.leaveStmt = fun _ => pure .keep) : p.KeepsExecution m := by
  intro bad ctx s t _
  rw [hleave]
  exact .pure ⟨trivial, .refl s⟩

theorem keepsExecution_constantIterable : Pass.constantIterable.KeepsExecution m := by
  intro bad ctx s t ht
  have hsimplify : ∀ iter, Ensures (do return Iterable.constantDisplay? (← Visit.config).limits iter) bad
      (fun r s' => (∀ new, r = some new → Iterable.constantDisplay? ctx.config.limits iter = some new) ∧ s.Frees s')
      ctx s := fun iter => ⟨fun _ h => h, .refl s⟩
  refine (Iterable.ensures_leaveStmt (.refl s) hsimplify).imp fun step s' h => ⟨?_, h.2⟩
  obtain ⟨hstep, _⟩ := h
  cases hstep with
  | keep => trivial
  | iter hnew => exact Iterable.means_constantDisplay ht hnew

theorem keepsExecution_passes : ∀ p ∈ Stage.generic.passes.tail, p.KeepsExecution m := by
  intro p hp
  simp only [Stage.passes, tail_cons, mem_cons, not_mem_nil, or_false] at hp
  rcases hp with rfl | rfl | rfl | rfl | rfl | rfl | rfl | rfl
  · exact keepsExecution_of_exprs rfl
  · exact keepsExecution_of_exprs rfl
  · exact keepsExecution_of_exprs rfl
  · exact keepsExecution_of_exprs rfl
  · exact keepsExecution_constantIterable
  · exact fun t ht => Unrolling.ensures_leaveStmt.imp fun step s' h => ⟨h.1.means ht, h.2.frees⟩
  · refine fun t ht => DeadCode.ensures_leaveStmt.imp fun step s' h => ⟨?_, h.frees⟩
    cases h with
    | kept => trivial
    | discarded h => exact h.means ht
  · exact keepsExecution_of_exprs rfl

end Pass

end Speculator
