import Mathlib.Data.List.Forall2
import Speculator.Visit

/-!
# What a visit ensures

`Visit.Ensures x bad post ctx s` says how the visit `x` ends when it starts in the context `ctx` and the state `s`:
with a result and a state that satisfy `post`, or with a failure that satisfies `bad`.  With `bad` empty the visit
does not fail; with `bad` everything only the results matter.

The rules follow the ways in which visits are built.  Reading the context and the state and logging a decision are
simplified away; the rest is put together by `Ensures.bind` and the rules for lists.
-/

namespace Speculator

/-- Decisions are logged, and nothing else changes. -/
def State.Logs (s s' : State) : Prop := ∃ texts : List String, s' = { s with log := texts.map .decision ++ s.log }

theorem State.Logs.refl (s : State) : s.Logs s := ⟨[], rfl⟩

variable {s s' s'' : State}

theorem State.Logs.trans (h : s.Logs s') (h' : s'.Logs s'') : s.Logs s'' := by
  obtain ⟨texts, rfl⟩ := h
  obtain ⟨texts', rfl⟩ := h'
  exact ⟨texts' ++ texts, by simp⟩

/-- The log changes, and nothing else does. -/
def State.Notes (s s' : State) : Prop := ∃ log, s' = { s with log := log }

theorem State.Notes.refl (s : State) : s.Notes s := ⟨s.log, rfl⟩

theorem State.Logs.notes (h : s.Logs s') : s.Notes s' := by
  obtain ⟨texts, rfl⟩ := h
  exact ⟨_, rfl⟩

/-- The context of a visit in a scope inside of the current one. -/
abbrev Context.inside (ctx : Context) (outer : Scope) (stage : Stage) (allowGuards : Bool) : Context :=
  { ctx with stage := stage, allowGuards := allowGuards, enclosing := outer :: ctx.enclosing }

abbrev State.inside (s : State) (scope : Scope) : State := { s with scope := scope, known := {} }

end Speculator

namespace Speculator.Visit

variable {α β : Type} {bad : Failure → Prop} {post : α → State → Prop} {ctx : Context} {s : State}
  {x : Visit α} {a : α}

/-- The visit ends with a result that satisfies `post` or with a failure that satisfies `bad`. -/
def Ensures (x : Visit α) (bad : Failure → Prop) (post : α → State → Prop) (ctx : Context) (s : State) : Prop :=
  match x ctx s with
  | .ok a s' => post a s'
  | .error failure _ => bad failure

/-! ### Composition -/

theorem ensures_bind_iff {f : α → Visit β} {post : β → State → Prop} :
    Ensures (x >>= f) bad post ctx s ↔ Ensures x bad (fun a s' => Ensures (f a) bad post ctx s') ctx s := by
  unfold Ensures
  change (match EStateM.bind (x ctx) (fun a => f a ctx) s with
    | .ok b s' => post b s'
    | .error failure _ => bad failure) ↔ _
  unfold EStateM.bind
  cases x ctx s <;> exact Iff.rfl

namespace Ensures

variable {bad' : Failure → Prop} {s' : State} {post' : α → State → Prop}

theorem mono (hx : Ensures x bad post ctx s)
    (hbad : ∀ failure, bad failure → bad' failure) (hpost : ∀ a s', post a s' → post' a s') :
    Ensures x bad' post' ctx s := by
  unfold Ensures at hx ⊢
  cases hrun : x ctx s with
  | ok a s' => rw [hrun] at hx; exact hpost a s' hx
  | error failure s' => rw [hrun] at hx; exact hbad failure hx

theorem imp (hx : Ensures x bad post ctx s) (hpost : ∀ a s', post a s' → post' a s') : Ensures x bad post' ctx s :=
  hx.mono (fun _ h => h) hpost

theorem bind {f : α → Visit β} {mid : α → State → Prop} {post : β → State → Prop}
    (hx : Ensures x bad mid ctx s) (hf : ∀ a s', mid a s' → Ensures (f a) bad post ctx s') :
    Ensures (x >>= f) bad post ctx s :=
  ensures_bind_iff.mpr (hx.imp hf)

theorem and (hx : Ensures x bad post ctx s) (hx' : Ensures x bad' post' ctx s) :
    Ensures x (fun failure => bad failure ∧ bad' failure) (fun a s' => post a s' ∧ post' a s') ctx s := by
  unfold Ensures at hx hx' ⊢
  cases hrun : x ctx s with
  | ok a s' => rw [hrun] at hx hx'; exact ⟨hx, hx'⟩
  | error failure s' => rw [hrun] at hx hx'; exact ⟨hx, hx'⟩

theorem of_forall (hbad : ∀ failure, bad failure) (hpost : ∀ a s', post a s') : Ensures x bad post ctx s := by
  unfold Ensures
  cases x ctx s with
  | ok a s' => exact hpost a s'
  | error failure => exact hbad failure

theorem of_run (hx : Ensures x bad post ctx s)
    (h : ∀ a s', x ctx s = .ok a s' → post' a s') : Ensures x bad post' ctx s := by
  unfold Ensures at hx ⊢
  cases hrun : x ctx s with
  | ok a s' => exact h a s' hrun
  | error failure s' => rwa [hrun] at hx

theorem of_eq (hrun : x ctx s = .ok a s') (h : post a s') : Ensures x bad post ctx s := by
  unfold Ensures
  rw [hrun]
  exact h

theorem of_ok (hx : Ensures x bad post ctx s) (hrun : x ctx s = .ok a s') : post a s' := by
  unfold Ensures at hx
  rw [hrun] at hx
  exact hx

theorem of_error (hx : Ensures x bad post ctx s) {failure} (hrun : x ctx s = .error failure s') : bad failure := by
  unfold Ensures at hx
  rw [hrun] at hx
  exact hx

end Ensures

/-! ### Single steps -/

@[simp] theorem ensures_pure : Ensures (pure a) bad post ctx s ↔ post a s := Iff.rfl

protected theorem Ensures.pure (h : post a s) : Ensures (pure a) bad post ctx s := h

variable {cause : Cause} {g : Scope → Scope} {line : Nat} {message : String} {inv : State → Prop} {f : Unit → Visit α}

@[simp] theorem ensures_fail :
    Ensures (fail cause : Visit α) bad post ctx s ↔ bad (.unlocated cause) := Iff.rfl

@[simp] theorem ensures_ofExcept_ok : Ensures (ofExcept (.ok a)) bad post ctx s ↔ post a s := Iff.rfl

@[simp] theorem ensures_ofExcept_error :
    Ensures (ofExcept (.error cause) : Visit α) bad post ctx s ↔ bad (.unlocated cause) := Iff.rfl

@[simp] theorem ensures_read_bind {f : Context → Visit α} :
    Ensures (read >>= f) bad post ctx s ↔ Ensures (f ctx) bad post ctx s := Iff.rfl

@[simp] theorem ensures_get_bind {f : State → Visit α} :
    Ensures (get >>= f) bad post ctx s ↔ Ensures (f s) bad post ctx s := Iff.rfl

@[simp] theorem ensures_modify_bind {g : State → State} {f : PUnit → Visit α} :
    Ensures (modify g >>= f) bad post ctx s ↔ Ensures (f ⟨⟩) bad post ctx (g s) := Iff.rfl

@[simp] theorem ensures_config_bind {f : Config → Visit α} :
    Ensures (config >>= f) bad post ctx s ↔ Ensures (f ctx.config) bad post ctx s := Iff.rfl

@[simp] theorem ensures_scope_bind {f : Scope → Visit α} :
    Ensures (scope >>= f) bad post ctx s ↔ Ensures (f s.scope) bad post ctx s := Iff.rfl

@[simp] theorem ensures_chain_bind {f : List Scope → Visit α} :
    Ensures (chain >>= f) bad post ctx s ↔ Ensures (f (s.scope :: ctx.enclosing)) bad post ctx s := Iff.rfl

@[simp] theorem ensures_isBuiltin_bind {name} {f : Bool → Visit α} : Ensures (isBuiltin name >>= f) bad post ctx s ↔
      Ensures (f (Scope.isBuiltin (s.scope :: ctx.enclosing) name)) bad post ctx s := Iff.rfl

@[simp] theorem ensures_literal?_bind {v pos} {f : Option Expr → Visit α} :
    Ensures (literal? v pos >>= f) bad post ctx s ↔
      Ensures (f (ctx.config.limits.literal? v pos)) bad post ctx s := Iff.rfl

@[simp] theorem ensures_modifyScope {post : Unit → State → Prop} :
    Ensures (modifyScope g) bad post ctx s ↔ post () { s with scope := g s.scope } := Iff.rfl

@[simp] theorem ensures_modifyScope_bind :
    Ensures (modifyScope g >>= f) bad post ctx s ↔ Ensures (f ()) bad post ctx { s with scope := g s.scope } :=
      Iff.rfl

@[simp] theorem ensures_modifyKnown {g : Namespace → Namespace} {post : Unit → State → Prop} :
    Ensures (modifyKnown g) bad post ctx s ↔ post () { s with known := g s.known } := Iff.rfl

@[simp] theorem ensures_modifyKnown_bind {g : Namespace → Namespace} :
    Ensures (modifyKnown g >>= f) bad post ctx s ↔ Ensures (f ()) bad post ctx { s with known := g s.known } :=
      Iff.rfl

@[simp] theorem ensures_log {post : Unit → State → Prop} :
    Ensures (log line message) bad post ctx s ↔
      post () { s with log := .decision (decisionText ctx.filename line message none) :: s.log } := Iff.rfl

@[simp] theorem ensures_log_bind :
    Ensures (log line message >>= f) bad post ctx s ↔
      Ensures (f ()) bad post ctx { s with log := .decision (decisionText ctx.filename line message none) ::
        s.log } := Iff.rfl

@[simp] theorem ensures_logQuoting_bind :
    Ensures (logQuoting line message >>= f) bad post ctx s ↔
      Ensures (f ()) bad post ctx
        { s with log := .decision (decisionText ctx.filename line message (ctx.sourceLine? line)) :: s.log } :=
          Iff.rfl

@[simp] theorem ensures_noteOverrun_bind {overruns : Bool} :
    Ensures (noteOverrun overruns >>= f) bad post ctx s ↔
      Ensures (f ()) bad post ctx { s with log := if overruns then .overrun :: s.log else s.log } := Iff.rfl

theorem ensures_addGuard_bind {g} {f : Bool → Visit α} : Ensures (addGuard g >>= f) bad post ctx s ↔
      if ctx.allowGuards then
        Ensures (f true) bad post ctx { s with scope := { s.scope with guards := s.scope.guards.add g } }
      else Ensures (f false) bad post ctx s := by
  unfold addGuard
  simp only [bind_assoc, ensures_read_bind]
  split
  · simp only [bind_assoc, ensures_modifyScope_bind, pure_bind]
  · simp only [pure_bind]

/-! ### Regions and scopes -/

theorem ensures_conditionally : Ensures (conditionally x) bad post ctx s ↔
      Ensures x bad (fun a s' => post a { s' with known := s'.known.leaveCond s.known.conditional }) ctx
        { s with known := s.known.enterCond } := by
  unfold conditionally
  simp only [ensures_bind_iff, ensures_modifyKnown, ensures_pure]
  rfl

theorem ensures_inScope {scope stage} {allowGuards : Bool} {post : α × Scope → State → Prop} :
    Ensures (inScope scope stage allowGuards x) bad post ctx s ↔
      Ensures x bad (fun a s' => post (a, s'.scope) { s' with scope := s.scope, known := s.known })
        (ctx.inside s.scope stage allowGuards) (s.inside scope) := by
  unfold inScope
  simp only [ensures_bind_iff]
  rfl

theorem ensures_mapFailure {g : Context → Failure → Failure} :
    Ensures (x.mapFailure g) bad post ctx s ↔ Ensures x (fun failure => bad (g ctx failure)) post ctx s := by
  unfold Ensures mapFailure
  cases x ctx s <;> exact Iff.rfl

/-- The condition on failures does not depend on where they are located. -/
def Unlocated (bad : Failure → Prop) : Prop :=
  ∀ failure location node, bad failure → bad (failure.locate location node)

theorem Ensures.atExpr {e} (hx : Ensures x bad post ctx s) (hbad : Unlocated bad) :
    Ensures (atExpr e x) bad post ctx s :=
  ensures_mapFailure.mpr (hx.mono (fun _ h => hbad _ _ _ h) fun _ _ h => h)

theorem Ensures.atStmt {t} (hx : Ensures x bad post ctx s) (hbad : Unlocated bad) :
    Ensures (atStmt t x) bad post ctx s :=
  ensures_mapFailure.mpr (hx.mono (fun _ h => hbad _ _ _ h) fun _ _ h => h)

/-! ### Lists

The state may change from item to item along a preorder `step`, and what holds of an item when it has been visited
still holds when the later ones have been. -/

variable {step : State → State → Prop} {as : List α}

theorem ensures_mapM_along {R : α → β → State → Prop} {f : α → Visit β}
    (hrefl : ∀ s, step s s) (htrans : ∀ s1 s2 s3, step s1 s2 → step s2 s3 → step s1 s3)
    (hmono : ∀ a b s s', R a b s → step s s' → R a b s')
    (h : ∀ a ∈ as, ∀ s', step s s' → Ensures (f a) bad (fun b s'' => R a b s'' ∧ step s' s'') ctx s') :
    Ensures (as.mapM f) bad (fun bs s' => List.Forall₂ (R · · s') as bs ∧ step s s') ctx s := by
  induction as generalizing s with
  | nil => exact ⟨.nil, hrefl s⟩
  | cons a as ih =>
    rw [List.mapM_cons]
    refine (h a (by simp) s (hrefl s)).bind fun b s1 hb => ?_
    have hrest := ih fun a' ha' s' hs' => h a' (by simp [ha']) s' (htrans _ _ _ hb.2 hs')
    refine hrest.bind fun bs s2 hbs => ?_
    rw [ensures_pure]
    exact ⟨.cons (hmono _ _ _ _ hb.1 hbs.2) hbs.1, htrans _ _ _ hb.2 hbs.2⟩

theorem ensures_mapM {R : α → β → Prop} {f : α → Visit β} (hs : inv s)
    (h : ∀ a ∈ as, ∀ s', inv s' → Ensures (f a) bad (fun b s'' => R a b ∧ inv s'') ctx s') :
    Ensures (as.mapM f) bad (fun bs s' => List.Forall₂ R as bs ∧ inv s') ctx s := by
  induction as generalizing s with
  | nil => exact ⟨.nil, hs⟩
  | cons a as ih =>
    rw [List.mapM_cons]
    refine (h a (by simp) s hs).bind fun b s1 hb => ?_
    refine (ih hb.2 fun a' ha' => h a' (by simp [ha'])).bind fun bs s2 hbs => ?_
    rw [ensures_pure]
    exact ⟨.cons hb.1 hbs.1, hbs.2⟩

theorem ensures_forM {f : α → Visit PUnit} (hs : inv s)
    (h : ∀ a ∈ as, ∀ s', inv s' → Ensures (f a) bad (fun _ s'' => inv s'') ctx s') :
    Ensures (as.forM f) bad (fun _ s' => inv s') ctx s := by
  induction as generalizing s with
  | nil => exact hs
  | cons a as ih =>
    exact (h a (by simp) s hs).bind fun _ s1 hs1 => ih hs1 fun a' ha' => h a' (by simp [ha'])

end Speculator.Visit
