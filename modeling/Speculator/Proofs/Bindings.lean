import Speculator.Optimize
import Speculator.Proofs.Frame

/-!
# Reads and bindings within one statement

An assignment, a deletion and the items of a `with` statement evaluate expressions and bind names in turn.  In
`x, a[x] = e` the index is read after `x` has been bound, so that a value of `x` that was known before the statement
says nothing about it.

The visit of such a statement does not follow the turns.  It forgets no name before the end of the statement, and all
its reads see what was known before.  The visits that do follow the turns are `Visitor.partsInOrder`.  They give the
same result if the reads of the names that are bound before something else is evaluated (`Stmt.overtaken`) are not
replaced anyway.
-/

namespace Speculator

open List Visit

/-! ### Targets -/

mutual

def Expr.storedNames : Expr → List Ident
  | ⟨_, .name id⟩ => [id]
  | ⟨_, .tuple items⟩ | ⟨_, .list items⟩ => Expr.storedNamesList items
  | ⟨_, .starred value⟩ => value.storedNames
  | _ => []

def Expr.storedNamesList : List Expr → List Ident
  | [] => []
  | e :: es => e.storedNames ++ Expr.storedNamesList es

end

mutual

def Expr.evaluates : Expr → Bool
  | ⟨_, .name _⟩ => false
  | ⟨_, .tuple items⟩ | ⟨_, .list items⟩ => Expr.anyEvaluates items
  | ⟨_, .starred value⟩ => value.evaluates
  | ⟨_, .attr value _⟩ => value.name?.isNone
  | _ => true

def Expr.anyEvaluates : List Expr → Bool
  | [] => false
  | e :: es => e.evaluates || Expr.anyEvaluates es

end

mutual

def Expr.overtaken : Expr → List Ident
  | ⟨_, .tuple items⟩ | ⟨_, .list items⟩ => Expr.overtakenList items
  | ⟨_, .starred value⟩ => value.overtaken
  | _ => []

def Expr.overtakenList : List Expr → List Ident
  | [] => []
  | e :: es => e.overtaken ++ (if Expr.anyEvaluates es then e.storedNames else []) ++ Expr.overtakenList es

end

def WithItem.storedNames : List WithItem → List Ident
  | [] => []
  | item :: items => Expr.storedNamesList item.target.toList ++ WithItem.storedNames items

def WithItem.overtaken : List WithItem → List Ident
  | [] => []
  | item :: items =>
    Expr.overtakenList item.target.toList ++
      (if items.isEmpty then [] else Expr.storedNamesList item.target.toList) ++ WithItem.overtaken items

namespace Stmt

def bindsInTurn (t : Stmt) : Bool :=
  match t.kind with
  | .delete _ | .assign .. | .withBlock .. => true
  | _ => false

def storedNames (t : Stmt) : List Ident :=
  match t.kind with
  | .delete targets | .assign targets _ => Expr.storedNamesList targets
  | .withBlock items _ _ => WithItem.storedNames items
  | _ => []

/-- The names that such a statement binds or deletes before it has evaluated all its expressions. -/
def overtaken (t : Stmt) : List Ident :=
  match t.kind with
  | .delete targets | .assign targets _ => Expr.overtakenList targets
  | .withBlock items _ _ => WithItem.overtaken items
  | _ => []

end Stmt

/-! ### Visits in order -/

namespace Visitor

def parts (v : Visitor) (t : Stmt) : Visit Stmt :=
  match t.kind with
  | .delete targets => return t.withKind (.delete (← v.targets targets))
  | .assign targets value => do
    let value ← v.expr value
    return t.withKind (.assign (← v.targets targets) value)
  | .withBlock items body isAsync => return t.withKind (.withBlock (← items.mapM v.withItem) body isAsync)
  | _ => return t

def withBody (v : Visitor) (t : Stmt) : Visit Stmt :=
  match t.kind with
  | .withBlock items body isAsync =>
    return t.withKind (.withBlock items (← Visit.conditionally (v.body true body)) isAsync)
  | _ => return t

theorem stmtChildren_of_bindsInTurn (v : Visitor) {t} (ht : t.bindsInTurn = true) :
    v.stmtChildren t = v.parts t >>= v.withBody := by
  obtain ⟨pos, kind⟩ := t
  cases kind with
  | delete | assign | withBlock => simp [stmtChildren, parts, withBody, Stmt.withKind]
  | _ => cases ht

mutual

/-- Visits a target and forgets each of its names where it is bound. -/
def targetInOrder (v : Visitor) : Expr → Visit Expr
  | ⟨pos, .name id⟩ => do
    Visit.modifyKnown fun ns => ns.forget id
    return ⟨pos, .name id⟩
  | ⟨pos, .tuple items⟩ => return ⟨pos, .tuple (← v.targetsInOrder items)⟩
  | ⟨pos, .list items⟩ => return ⟨pos, .list (← v.targetsInOrder items)⟩
  | ⟨pos, .starred value⟩ => return ⟨pos, .starred (← v.targetInOrder value)⟩
  | ⟨pos, .attr value name⟩ => return ⟨pos, .attr (← v.base value) name⟩
  | ⟨pos, .subscript value slice⟩ => do
    let value ← v.base value
    return ⟨pos, .subscript value (← v.expr slice)⟩
  | e => v.expr e

def targetsInOrder (v : Visitor) : List Expr → Visit (List Expr)
  | [] => return []
  | e :: es => do
    let e ← v.targetInOrder e
    return e :: (← v.targetsInOrder es)

end

def withItemInOrder (v : Visitor) (item : WithItem) : Visit WithItem := do
  let context ← v.expr item.context
  return ⟨context, ← item.target.mapM v.targetInOrder⟩

/-- Visits the expressions and targets of a statement, and forgets each name where it is bound. -/
def partsInOrder (v : Visitor) (t : Stmt) : Visit Stmt :=
  match t.kind with
  | .delete targets => return t.withKind (.delete (← v.targetsInOrder targets))
  | .assign targets value => do
    let value ← v.expr value
    return t.withKind (.assign (← v.targetsInOrder targets) value)
  | .withBlock items body isAsync => return t.withKind (.withBlock (← items.mapM v.withItemInOrder) body isAsync)
  | _ => return t

/-- Visits expressions with given known values, whatever is known where they stand. -/
def seeing (v : Visitor) (known : Namespace) : Visitor where
  expr e := do
    let current := (← get).known
    Visit.modifyKnown fun _ => known
    let new ← v.expr e
    Visit.modifyKnown fun _ => current
    return new
  stmt := v.stmt

/-! ### Following the turns -/

/-- `w` visits expressions as `v` does, as long as what is known satisfies `ok`. -/
def FollowedBy (v w : Visitor) (ok : Namespace → Prop) (ctx : Context) (s₀ : State) : Prop :=
  ∀ e s known, s₀.Frame s → ok known → Follows [] (v.expr e) (w.expr e) ctx s known

section

variable {v w : Visitor} {ctx : Context} {s₀ s : State} {ok : Namespace → Prop} {known : Namespace}

theorem ok_foldl_forget {ids : List Ident} (hids : ∀ id ∈ ids, ∀ ns, ok ns → ok (ns.forget id)) (h : ok known) :
    ok (ids.foldl Namespace.forget known) := by
  induction ids generalizing known with
  | nil => exact h
  | cons id ids ih =>
    have hid := hids id (by simp) known h
    exact ih (fun id' hid' => hids id' (by simp [hid'])) hid

theorem follows_base (hvw : v.FollowedBy w ok ctx s₀) (e : Expr) (hs : s₀.Frame s)
    (hok : e.name?.isNone = true → ok known) : Follows [] (v.base e) (w.base e) ctx s known := by
  obtain ⟨pos, kind⟩ := e
  cases kind with
  | name id => exact ⟨rfl, .refl s⟩
  | _ => exact hvw _ s known hs (hok rfl)

mutual

/-- What is known need not satisfy `ok` any more where no part of the target is evaluated. -/
theorem follows_target (hvw : v.FollowedBy w ok ctx s₀) : (e : Expr) → (s : State) → (known : Namespace) →
    s₀.Frame s → (e.evaluates = true → ok known) → (∀ id ∈ e.overtaken, ∀ ns, ok ns → ok (ns.forget id)) →
    Follows e.storedNames (v.target e) (w.targetInOrder e) ctx s known
  | ⟨pos, kind⟩, s, known, hs, hok, hover => by
    cases kind with
    | name id =>
      simp only [Visitor.target, Visitor.targetInOrder, Expr.storedNames]
      exact ⟨rfl, .refl s⟩
    | tuple items | list items =>
      simp only [Expr.evaluates] at hok
      simp only [Expr.overtaken] at hover
      simp only [Visitor.target, Visitor.targetInOrder, Expr.storedNames]
      exact (follows_targets hvw items s known hs hok hover).bind_pure
    | starred value =>
      simp only [Expr.evaluates] at hok
      simp only [Expr.overtaken] at hover
      simp only [Visitor.target, Visitor.targetInOrder, Expr.storedNames]
      exact (follows_target hvw value s known hs hok hover).bind_pure
    | attr value name =>
      simp only [Expr.evaluates] at hok
      simp only [Visitor.target, Visitor.targetInOrder, Expr.storedNames]
      exact (follows_base hvw value hs hok).bind_pure
    | subscript value slice =>
      have hok : ok known := hok (by simp only [Expr.evaluates])
      simp only [Visitor.target, Visitor.targetInOrder, Expr.storedNames]
      refine (follows_base hvw value hs fun _ => hok).bind fun value' s1 hs1 => ?_
      exact (hvw slice s1 known (hs.trans hs1) hok).bind fun slice' s2 _ => ⟨rfl, .refl s2⟩
    | _ =>
      simp only [Expr.evaluates, forall_const] at hok
      simp only [Visitor.target, Visitor.targetInOrder, Expr.storedNames]
      exact hvw _ s known hs hok

theorem follows_targets (hvw : v.FollowedBy w ok ctx s₀) : (es : List Expr) → (s : State) → (known : Namespace) →
    s₀.Frame s → (Expr.anyEvaluates es = true → ok known) →
    (∀ id ∈ Expr.overtakenList es, ∀ ns, ok ns → ok (ns.forget id)) →
    Follows (Expr.storedNamesList es) (v.targets es) (w.targetsInOrder es) ctx s known
  | [], s, known, hs, hok, hover => by
    simp only [Visitor.targets, Visitor.targetsInOrder, Expr.storedNamesList]
    exact ⟨rfl, .refl s⟩
  | e :: es, s, known, hs, hok, hover => by
    simp only [Expr.anyEvaluates, Bool.or_eq_true] at hok
    simp only [Expr.overtakenList, mem_append, or_imp, forall_and] at hover
    simp only [Visitor.targets, Visitor.targetsInOrder, Expr.storedNamesList]
    refine (follows_target hvw e s known hs (fun h => hok (.inl h)) hover.1.1).bind fun e' s1 hs1 => ?_
    -- a name of `e` is overtaken if something is evaluated after `e`
    have hok' : Expr.anyEvaluates es = true → ok (e.storedNames.foldl Namespace.forget known) := by
      intro hes
      refine ok_foldl_forget (fun id hid => hover.1.2 id ?_) (hok (.inr hes))
      rw [if_pos hes]
      exact hid
    exact (follows_targets hvw es s1 _ (hs.trans hs1) hok' hover.2).bind_pure

end

theorem follows_optional (hvw : v.FollowedBy w ok ctx s₀) (e : Option Expr) (hs : s₀.Frame s) (hok : ok known)
    (hover : ∀ id ∈ Expr.overtakenList e.toList, ∀ ns, ok ns → ok (ns.forget id)) :
    Follows (Expr.storedNamesList e.toList) (e.mapM v.target) (e.mapM w.targetInOrder) ctx s known := by
  cases e with
  | none => exact ⟨rfl, .refl s⟩
  | some e =>
    simp only [Option.toList_some, Expr.anyEvaluates, Expr.overtakenList, Bool.false_eq_true, if_false,
      append_nil] at hover
    simp only [Option.toList_some, Expr.storedNamesList]
    exact (follows_target hvw e s known hs (fun _ => hok) hover).bind fun e' s' _ => ⟨rfl, .refl s'⟩

theorem follows_withItems (hvw : v.FollowedBy w ok ctx s₀) {items} (hs : s₀.Frame s)
    (hok : items.isEmpty = false → ok known)
    (hover : ∀ id ∈ WithItem.overtaken items, ∀ ns, ok ns → ok (ns.forget id)) :
    Follows (WithItem.storedNames items) (items.mapM v.withItem) (items.mapM w.withItemInOrder) ctx s known := by
  induction items generalizing s known with
  | nil => exact ⟨rfl, .refl s⟩
  | cons item items ih =>
    have hok : ok known := hok rfl
    simp only [WithItem.overtaken, mem_append, or_imp, forall_and] at hover
    have hitem : Follows (Expr.storedNamesList item.target.toList) (v.withItem item) (w.withItemInOrder item) ctx s
        known := by
      refine (hvw item.context s known hs hok).bind fun context s1 hs1 => ?_
      exact (follows_optional hvw item.target (hs.trans hs1) hok hover.1.1).bind_pure
    rw [mapM_cons, mapM_cons, WithItem.storedNames]
    refine hitem.bind fun item' s1 hs1 => ?_
    have hok' : items.isEmpty = false →
        ok ((Expr.storedNamesList item.target.toList).foldl Namespace.forget known) := by
      intro hitems
      refine ok_foldl_forget (fun id hid => hover.1.2 id ?_) hok
      rw [hitems]
      exact hid
    exact (ih (hs.trans hs1) hok' hover.2).bind_pure

theorem follows_parts (hvw : v.FollowedBy w ok ctx s) (t : Stmt) (hok : ok known)
    (hover : ∀ id ∈ t.overtaken, ∀ ns, ok ns → ok (ns.forget id)) :
    Follows t.storedNames (v.parts t) (w.partsInOrder t) ctx s known := by
  have hs : s.Frame s := .refl s
  obtain ⟨pos, kind⟩ := t
  cases kind with
  | delete targets =>
    change Follows (Expr.storedNamesList targets) _ _ ctx s known
    exact (follows_targets hvw targets s known hs (fun _ => hok) hover).bind_pure
  | assign targets value =>
    refine (hvw value s known hs hok).bind fun value' s1 hs1 => ?_
    exact (follows_targets hvw targets s1 known hs1 (fun _ => hok) hover).bind_pure
  | withBlock items body isAsync =>
    change Follows (WithItem.storedNames items) _ _ ctx s known
    exact (follows_withItems hvw hs (fun _ => hok) hover).bind_pure
  | _ => exact ⟨rfl, hs⟩

end

theorem Steady.followedBy {v : Visitor} (hv : v.Steady) (ctx : Context) (s₀ : State) :
    v.FollowedBy v (SameReads ctx s₀) ctx s₀ := by
  intro e s known hs hreads
  exact hv e ctx s known (hreads.frame hs)

theorem Steady.followedBy_seeing {v : Visitor} (hv : v.Steady) (ctx : Context) (s₀ : State) :
    v.FollowedBy (v.seeing s₀.known) (fun _ => True) ctx s₀ := by
  intro e s known hs _
  have hrun := hv e ctx s s.known fun _ => rfl
  have hseen : (v.seeing s₀.known).expr e ctx { s with known := known } =
      match v.expr e ctx s with
      | .ok new s' => .ok new { s' with known := known }
      | .error failure s' => .error failure s' := by
    change EStateM.bind (v.expr e ctx) _ { s with known := s₀.known } = _
    rw [← hs.known]
    unfold EStateM.bind
    cases v.expr e ctx s <;> rfl
  unfold Follows at hrun ⊢
  rw [hseen]
  cases hvs : v.expr e ctx s with
  | ok new s' =>
    rw [hvs] at hrun
    exact ⟨rfl, hrun.2⟩
  | error failure s' => exact ⟨s', rfl, rfl⟩

end Visitor

theorem Visit.SameReads.forget {ctx s known name}
    (h : SameReads ctx s known) (hname : Propagation.value? ctx.config s.scope s.known name = none) :
    SameReads ctx s (known.forget name) := by
  intro id
  by_cases hid : id = name
  · subst hid
    rw [hname]
    unfold Propagation.value?
    rw [Namespace.get?_forget, if_pos rfl]
    simp
  · rw [← h id]
    unfold Propagation.value?
    rw [Namespace.get?_forget, if_neg hid]

theorem Scope.isBuiltin_of_applies {scope enclosing id}
    (h : Propagation.applies scope id = true) : Scope.isBuiltin (scope :: enclosing) id = false := by
  unfold Propagation.applies at h
  simp only [Bool.and_eq_true] at h
  have hhides : scope.hidesBuiltin id = true := by rw [Scope.hidesBuiltin, h.1.2, Bool.true_or]
  rw [Scope.isBuiltin, all_cons, hhides]
  simp

/-! ### The statement -/

/-- The reads of a statement that binds in turn.

The names are bound between the reads, but each read sees what was known before the statement.  This is as good as
forgetting each name where it is bound, as long as the reads of the overtaken names are not replaced.  A read of a
name that is replaced gets the value from before the statement, also where the name would have been forgotten. -/
theorem visitor_parts (n : Nat) {t : Stmt} (ht : t.bindsInTurn = true) {ctx : Context}
    (hstage : ctx.stage ≠ .specialize) (s : State) :
    (visitor n).stmtChildren t = (visitor n).parts t >>= (visitor n).withBody ∧
      Follows t.storedNames ((visitor n).parts t) (((visitor n).seeing s.known).partsInOrder t) ctx s s.known ∧
      ((∀ id ∈ t.overtaken, Propagation.value? ctx.config s.scope s.known id = none) →
        Follows t.storedNames ((visitor n).parts t) ((visitor n).partsInOrder t) ctx s s.known) ∧
      ∀ id v pos, Propagation.value? ctx.config s.scope s.known id = some v →
        Ensures ((visitor (n + 1)).expr ⟨pos, .name id⟩) (fun _ => False) (fun new _ => new = v.toExpr pos) ctx s ∧
          Ensures ((visitor (n + 1)).expr ⟨pos, .name id⟩) (fun _ => False) (fun new _ => new = ⟨pos, .name id⟩) ctx
            { s with known := s.known.forget id } := by
  have hsteady := visitor_steady n
  refine ⟨(visitor n).stmtChildren_of_bindsInTurn ht, ?_, ?_, ?_⟩
  · exact Visitor.follows_parts (hsteady.followedBy_seeing ctx s) t trivial fun _ _ _ _ => trivial
  · intro hover
    have hforget : ∀ id ∈ t.overtaken, ∀ ns, SameReads ctx s ns → SameReads ctx s (ns.forget id) :=
      fun id hid ns hns => hns.forget (hover id hid)
    exact Visitor.follows_parts (hsteady.followedBy ctx s) t (fun _ => rfl) hforget
  · intro id v pos hvalue
    have happlies : Propagation.applies s.scope id = true := by
      by_contra hnot
      simp [Propagation.value?, hnot] at hvalue
    have hdebug : Scope.isBuiltin (s.scope :: ctx.enclosing) id = false := Scope.isBuiltin_of_applies happlies
    constructor
    · refine (Visitor.ensures_name n hstage (fun _ => hdebug) pos).imp fun new s' hnew => ?_
      rw [hnew.2, hvalue]
    · let forgotten : State := { s with known := s.known.forget id }
      have hnone : Propagation.value? ctx.config forgotten.scope forgotten.known id = none := by
        simp [forgotten, Propagation.value?, Namespace.get?_forget]
      have hread := Visitor.ensures_name n hstage (s := forgotten) (fun _ => hdebug) pos
      refine hread.imp fun new s' hnew => ?_
      rw [hnew.2, hnone]

/-- In `x, a[x] = p` the index is read after `x` has been bound, and becomes the value from before. -/
theorem visitor_parts_index :
    let t : Stmt := ⟨{}, .assign [⟨{}, .tuple [⟨{}, .name "x"⟩, ⟨{}, .subscript ⟨{}, .name "a"⟩ ⟨{}, .name "x"⟩⟩]⟩]
      ⟨{}, .name "p"⟩⟩
    let ctx : Context := ⟨{}, "m.py", [], .generic, false, []⟩
    let s : State := ⟨{ kind := .module, vars := { locals := ["x"] } }, { values := [("x", .int 1)] }, [], [], false⟩
    t.bindsInTurn = true ∧ t.overtaken = ["x"] ∧
      Ensures ((visitor 1).expr ⟨{}, .name "x"⟩) (fun _ => False)
        (fun new _ => new = ⟨{}, .const (.int 1)⟩) ctx s := by
  intro t ctx s
  refine ⟨rfl, rfl, ?_⟩
  have hvalue : Propagation.value? ctx.config s.scope s.known "x" = some (.int 1) := rfl
  have ht : t.bindsInTurn = true := rfl
  exact ((visitor_parts 0 ht (by decide) s).2.2.2 "x" (.int 1) {} hvalue).1

end Speculator
