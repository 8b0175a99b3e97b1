import Speculator.Proofs.Statements

/-!
# What the passes can do with a statement

The removal of dead code looks at branches, loops and `try` statements; what it may make of them is listed once, with
the statements whose bindings a function loses (`DeadCode.Discards`).  It drops the rest of a body that cannot be
reached (`DeadCode.Trims`).  Unrolling looks at loops over constants (`Unrolling.Unrolls`).  All that the passes of
any stage may do is listed by `Stmt.Changes`.
-/

namespace Speculator

open List Visit

variable {removed : List Stmt} {reason : String}

variable {ctx : Context} {s s' s'' : State} {bad : Failure → Prop} {t : Stmt}

def State.Frees (s s' : State) : Prop :=
  ∃ log vars, s' = { s with log := log, scope := { s.scope with vars := vars } }

theorem State.Frees.refl (s : State) : s.Frees s := ⟨s.log, s.scope.vars, rfl⟩

theorem State.Logs.frees (h : s.Logs s') : s.Frees s' := by
  obtain ⟨texts, rfl⟩ := h
  exact ⟨_, s.scope.vars, rfl⟩

/-- The places of bindings in statements are taken away from a function, which keeps the last place of each variable.
Besides, the states differ in the log only. -/
def State.Releases (removed : List Stmt) (s s' : State) : Prop :=
  ∃ (texts : List String) (vars : Variables),
    s' = { s with log := texts.map .decision ++ s.log, scope := { s.scope with vars := vars } } ∧
    if s.scope.kind = .function then
      ∃ freed, Variables.ofBody removed [] = .ok freed ∧ s.scope.vars.release? freed.bindings = some vars
    else vars = s.scope.vars

namespace State.Releases

theorem frees (h : s.Releases removed s') : s.Frees s' := by
  obtain ⟨texts, vars, rfl, _⟩ := h
  exact ⟨_, vars, rfl⟩

theorem of_logs (h : s.Logs s') : s.Releases [] s' := by
  obtain ⟨texts, rfl⟩ := h
  refine ⟨texts, s.scope.vars, rfl, ?_⟩
  split
  · exact ⟨_, rfl, rfl⟩
  · rfl

theorem logged (h : s.Releases removed s') (h' : s'.Logs s'') : s.Releases removed s'' := by
  obtain ⟨texts, vars, rfl, hvars⟩ := h
  obtain ⟨texts', rfl⟩ := h'
  exact ⟨texts' ++ texts, vars, by simp, hvars⟩

theorem after_logs (h : s.Logs s') (h' : s'.Releases removed s'') : s.Releases removed s'' := by
  obtain ⟨texts, rfl⟩ := h
  obtain ⟨texts', vars, rfl, hvars⟩ := h'
  exact ⟨texts' ++ texts, vars, by simp, hvars⟩

end State.Releases

theorem Variables.locals_release {vars rest : Variables} {removed : List Ident}
    (h : vars.release? removed = some rest) : rest.locals = vars.locals := by
  unfold Variables.release? at h
  split at h
  · cases h
  · cases h
    rfl

/-- Decisions are logged and known values change. -/
def State.Tracks (s s' : State) : Prop :=
  ∃ (texts : List String) (known : Namespace), s' = { s with log := texts.map .decision ++ s.log, known := known }

theorem State.Tracks.refl (s : State) : s.Tracks s := ⟨[], s.known, rfl⟩

theorem State.Tracks.trans (h : s.Tracks s') (h' : s'.Tracks s'') : s.Tracks s'' := by
  obtain ⟨texts, known, rfl⟩ := h
  obtain ⟨texts', known', rfl⟩ := h'
  exact ⟨texts' ++ texts, known', by simp⟩

theorem State.Logs.tracks (h : s.Logs s') : s.Tracks s' := by
  obtain ⟨texts, rfl⟩ := h
  exact ⟨texts, s.known, rfl⟩

namespace Tracking

theorem tracks_assign (value : Option Value) (target : Expr) :
    Ensures (assign value target) bad (fun _ s' => s.Tracks s') ctx s := by
  unfold assign
  split
  · exact ⟨[], _, rfl⟩
  · split
    · exact ⟨[], _, rfl⟩
    · simp only [ensures_get_bind, ensures_modifyKnown_bind]
      split
      · exact .pure ⟨[], _, rfl⟩
      · exact ensures_log.mpr ⟨[_], _, rfl⟩

theorem tracks_forM {α : Type} {f : α → Visit PUnit} (hf : ∀ a s, Ensures (f a) bad (fun _ s' => s.Tracks s') ctx s)
    (as : List α) : Ensures (as.forM f) bad (fun _ s' => s.Tracks s') ctx s :=
  ensures_forM (.refl s) fun a _ s' hs' => (hf a s').imp fun _ _ h => hs'.trans h

theorem tracks_leaveStmt : Ensures (leaveStmt t) bad (fun _ s' => s.Tracks s') ctx s := by
  have hdelete : ∀ target s, Ensures (delete target) bad (fun _ s' => State.Tracks s s') ctx s := by
    intro target s
    unfold delete
    split
    · exact ⟨[], _, rfl⟩
    · exact tracks_assign none target
  obtain ⟨pos, kind⟩ := t
  unfold leaveStmt
  cases kind with
  | assign targets value => exact tracks_forM (fun target s => tracks_assign _ target) targets
  | augAssign | forLoop => exact tracks_assign none _
  | withBlock => exact tracks_forM (fun target s => tracks_assign none target) _
  | delete => exact tracks_forM hdelete _
  | importModules | importFrom | tryBlock => exact ⟨[], _, rfl⟩
  | _ => exact .pure (.refl s)

end Tracking

namespace DeadCode

section Effects

variable {α : Type} {post : α → State → Prop}

/-- Messages about the removed statements and handlers only go to the log. -/
theorem ensures_logs_bind {β : Type} {removed : List β} {line : β → Nat} {message : β → String} {f : Unit → Visit α}
    (h : ∀ s', s.Logs s' → Ensures (f ()) bad post ctx s') :
    Ensures (removed.forM (fun b => Visit.log (line b) (message b)) >>= f) bad post ctx s := by
  have hlogs : Ensures (removed.forM fun b => Visit.log (line b) (message b)) bad (fun _ s' => s.Logs s') ctx s := by
    refine ensures_forM (.refl s) fun b _ s' hs' => ?_
    exact ensures_log.mpr (hs'.trans ⟨[_], rfl⟩)
  exact hlogs.bind fun _ s' hs' => h s' hs'

theorem ensures_release_bind {f : Bool → Visit α} (hrefused : Ensures (f false) bad post ctx s)
    (h : ∀ s', s.Releases removed s' → Ensures (f true) bad post ctx s') :
    Ensures (release removed >>= f) bad post ctx s := by
  unfold release
  simp only [bind_assoc, ensures_scope_bind]
  by_cases hkind : s.scope.kind = .function
  · rw [if_neg (by simp [hkind])]
    split
    · exact hrefused
    rename_i freed hfreed
    split
    · exact hrefused
    rename_i rest hrest
    simp only [bind_assoc, ensures_modifyScope_bind, pure_bind]
    refine h _ ⟨[], rest, rfl, ?_⟩
    rw [if_pos hkind]
    exact ⟨freed, hfreed, hrest⟩
  · rw [if_pos (by simpa using hkind)]
    refine h s ⟨[], s.scope.vars, rfl, ?_⟩
    rw [if_neg hkind]

theorem ensures_dropIdleElse_bind {orelse} {f : List Stmt → Visit α}
    (h : ∀ s', s.Logs s' → Ensures (f (if isIdle orelse then [] else orelse)) bad post ctx s') :
    Ensures (dropIdleElse reason orelse >>= f) bad post ctx s := by
  unfold dropIdleElse
  split
  · rename_i hidle
    rw [if_pos hidle] at h
    rw [bind_assoc]
    exact ensures_logs_bind h
  · rename_i hidle
    rw [if_neg hidle] at h
    exact h s (.refl s)

end Effects

/-- What the removal of dead code may make of a statement, and the statements that are released for it. -/
inductive Discards : Stmt → List Stmt → StmtStep → Prop
  /-- A branch whose test is constant is one of its blocks. -/
  | always {pos test body orelse v} (htest : test.constant? = some v)
    (hv : v.truthy = true) (hremovable : removable orelse = true) :
    Discards ⟨pos, .cond test body orelse⟩ orelse (inPlaceOf ⟨pos, .cond test body orelse⟩ body)
  | never {pos test body orelse v} (htest : test.constant? = some v)
    (hv : v.truthy = false) (hremovable : removable body = true) :
    Discards ⟨pos, .cond test body orelse⟩ body (inPlaceOf ⟨pos, .cond test body orelse⟩ orelse)
  /-- A branch without a body is a branch on the negated test. -/
  | negated {pos test body orelse} (hbody : doesNothing body = true)
    (horelse : doesNothing orelse = false) : Discards ⟨pos, .cond test body orelse⟩ []
      (.replace ⟨pos, .cond (test.withKind (.unaryOp .not test)) orelse []⟩)
  | condElse {pos test body orelse} (horelse : doesNothing orelse = true) :
    Discards ⟨pos, .cond test body orelse⟩ [] (.replace ⟨pos, .cond test body []⟩)
  /-- A loop whose test is false is its `else` block, and so is a loop over nothing. -/
  | idleWhile {pos test body orelse v} (htest : test.constant? = some v)
    (hv : v.truthy = false) (hremovable : removable body = true) :
    Discards ⟨pos, .whileLoop test body orelse⟩ body (inPlaceOf ⟨pos, .whileLoop test body orelse⟩ orelse)
  | whileElse {pos test body orelse} (horelse : doesNothing orelse = true) :
    Discards ⟨pos, .whileLoop test body orelse⟩ [] (.replace ⟨pos, .whileLoop test body []⟩)
  | idleFor {pos target iter body orelse} {isAsync : Bool}
    (hiter : iter.constant? = some (.tuple [])) (hremovable : removable body = true) :
    Discards ⟨pos, .forLoop target iter body orelse isAsync⟩ [⟨pos, .forLoop target iter body [] isAsync⟩]
      (inPlaceOf ⟨pos, .forLoop target iter body orelse isAsync⟩ orelse)
  | forElse {pos target iter body orelse} {isAsync : Bool}
    (horelse : doesNothing orelse = true) : Discards ⟨pos, .forLoop target iter body orelse isAsync⟩ []
      (.replace ⟨pos, .forLoop target iter body [] isAsync⟩)
  /-- Without a body there is what runs after it.  A `continue` does not leave a `finally` block. -/
  | tryFinal {pos body orelse final handlers}
    (hbody : doesNothing body = true) (horelse : doesNothing orelse = true)
    (hremovable : removableHandlers handlers = true)
    (hfinal : (Stmt.nodesList Node.everywhere final).any Node.isContinue = false) :
    Discards ⟨pos, .tryBlock body handlers orelse final⟩ [⟨pos, .tryBlock [] handlers [] []⟩]
      (inPlaceOf ⟨pos, .tryBlock body handlers orelse final⟩ final)
  | tryElse {pos body orelse final handlers}
    (hbody : doesNothing body = true) (hfinal : doesNothing final = true)
    (hremovable : removableHandlers handlers = true) :
    Discards ⟨pos, .tryBlock body handlers orelse final⟩ [⟨pos, .tryBlock [] handlers [] []⟩]
      (inPlaceOf ⟨pos, .tryBlock body handlers orelse final⟩ orelse)
  | tryMoved {pos body orelse final handlers}
    (hbody : doesNothing body = true) (hremovable : removableHandlers handlers = true)
    (hfinal : (Stmt.nodesList Node.everywhere final).any Node.isContinue = false) (horelse : orelse ≠ [])
    (hidle : doesNothing final = false) :
    Discards ⟨pos, .tryBlock body handlers orelse final⟩ [⟨pos, .tryBlock [] handlers [] []⟩]
      (.replace ⟨pos, .tryBlock orelse [] [] final⟩)
  | tryWithoutElse {pos body orelse final handlers}
    (horelse : doesNothing orelse = true) : Discards ⟨pos, .tryBlock body handlers orelse final⟩ []
      (.replace ⟨pos, .tryBlock body handlers [] final⟩)

variable {step : StmtStep}

theorem Discards.cases_step (h : Discards t removed step) :
    (∃ new, step = .replace new) ∨ ∃ body, step = .splice body := by
  have hplace : ∀ (t : Stmt) (body : List Stmt),
      (∃ new, inPlaceOf t body = .replace new) ∨ ∃ body', inPlaceOf t body = .splice body' := by
    intro t body
    unfold inPlaceOf
    split
    · exact .inl ⟨_, rfl⟩
    · exact .inr ⟨_, rfl⟩
  cases h with
  | always | never | idleWhile | idleFor | tryFinal | tryElse => exact hplace _ _
  | negated | condElse | whileElse | forElse | tryMoved | tryWithoutElse => exact .inl ⟨_, rfl⟩

theorem doesNothing_of_isIdle {block} (h : isIdle block = true) : doesNothing block = true := by
  unfold isIdle at h
  exact (Bool.and_eq_true_iff.mp h).2

/-- What a part of the pass does with the statement, and with the state. -/
inductive Result (t : Stmt) (s : State) : StmtStep → State → Prop
  | kept {s' : State} (hs : s.Logs s') : Result t s .keep s'
  | discarded {removed : List Stmt} {step : StmtStep} {s' : State} (h : Discards t removed step)
    (hs : s.Releases removed s') : Result t s step s'

theorem Result.frees (h : Result t s step s') : s.Frees s' := by
  cases h with
  | kept hs => exact hs.frees
  | discarded _ hs => exact hs.frees

theorem Result.after_logs (hs : s.Logs s') (h : Result t s' step s'') : Result t s step s'' := by
  cases h with
  | kept hs' => exact .kept (hs.trans hs')
  | discarded h hs' => exact .discarded h (.after_logs hs hs')

theorem ensures_keep (h : s.Logs s') : Ensures (pure StmtStep.keep) bad (Result t s) ctx s' :=
  .pure (.kept h)

theorem ensures_step (hstep : Discards t [] step) (h : s.Logs s') :
    Ensures (pure step) bad (Result t s) ctx s' :=
  .pure (.discarded hstep (.of_logs h))

theorem ensures_keepBlock {kept} (hkept : removable removed = true → Discards t removed (inPlaceOf t kept)) :
    Ensures (keepBlock t reason kept removed) bad (Result t s) ctx s := by
  unfold keepBlock
  split
  · exact ensures_keep (.refl s)
  rename_i hremovable
  refine ensures_release_bind (ensures_keep (.refl s)) fun s1 h1 => ?_
  refine ensures_logs_bind fun s2 h2 => .pure (.discarded (hkept ?_) (h1.logged h2))
  simpa using hremovable

theorem ensures_orElse {first second} (hfirst : Ensures first bad (Result t s) ctx s)
    (hsecond : ∀ s', Ensures second bad (Result t s') ctx s') :
    Ensures (orElse first second) bad (Result t s) ctx s := by
  refine hfirst.bind fun step s1 h1 => ?_
  cases h1 with
  | kept hs => exact (hsecond s1).imp fun step' s2 h2 => h2.after_logs hs
  | discarded h hs =>
    obtain ⟨new, rfl⟩ | ⟨body, rfl⟩ := h.cases_step
    · exact .pure (.discarded h hs)
    · exact .pure (.discarded h hs)

theorem ensures_leaveIdleElse {orelse without} (h : doesNothing orelse = true → Discards t [] (.replace without)) :
    Ensures (leaveIdleElse reason orelse without) bad (Result t s) ctx s := by
  unfold leaveIdleElse
  refine ensures_dropIdleElse_bind fun s1 h1 => ?_
  split
  · rename_i hidle
    exact ensures_step (h (doesNothing_of_isIdle hidle)) h1
  · exact ensures_keep h1

section Kinds

variable {pos : Position} {test : Expr} {body orelse final : List Stmt} {handlers : List Handler}

theorem ensures_leaveConstantCond :
    Ensures (leaveConstantCond ⟨pos, .cond test body orelse⟩ test body orelse) bad
      (Result ⟨pos, .cond test body orelse⟩ s) ctx s := by
  unfold leaveConstantCond
  split
  · rename_i h
    obtain ⟨v, htest, hv⟩ := Option.map_eq_some_iff.mp h
    exact ensures_keepBlock (.always htest hv)
  · rename_i h
    obtain ⟨v, htest, hv⟩ := Option.map_eq_some_iff.mp h
    exact ensures_keepBlock (.never htest hv)
  · exact ensures_keep (.refl s)

theorem ensures_leaveIdleCond :
    Ensures (leaveIdleCond ⟨pos, .cond test body orelse⟩ test body orelse) bad
      (Result ⟨pos, .cond test body orelse⟩ s) ctx s := by
  unfold leaveIdleCond
  refine ensures_dropIdleElse_bind fun s1 h1 => ?_
  by_cases hidle : isIdle orelse = true
  · rw [if_pos hidle, if_pos hidle, if_neg (by simp [doesNothing])]
    exact ensures_step (.condElse (doesNothing_of_isIdle hidle)) h1
  · rw [if_neg hidle, if_neg hidle]
    split
    · rename_i hswap
      simp only [Bool.and_eq_true, Bool.not_eq_true'] at hswap
      exact ensures_logs_bind fun s2 h2 => ensures_step (.negated hswap.1 hswap.2) (h1.trans h2)
    · exact ensures_keep h1

theorem ensures_leaveConstantLoop :
    Ensures (leaveConstantLoop ⟨pos, .whileLoop test body orelse⟩ test body orelse) bad
      (Result ⟨pos, .whileLoop test body orelse⟩ s) ctx s := by
  unfold leaveConstantLoop
  split
  · rename_i h
    obtain ⟨v, htest, hv⟩ := Option.map_eq_some_iff.mp h
    exact ensures_keepBlock (.idleWhile htest hv)
  · exact ensures_keep (.refl s)

theorem ensures_leaveEmptyLoop {target iter} {isAsync : Bool} :
    Ensures (leaveEmptyLoop ⟨pos, .forLoop target iter body orelse isAsync⟩ iter body orelse
      ⟨pos, .forLoop target iter body [] isAsync⟩) bad
      (Result ⟨pos, .forLoop target iter body orelse isAsync⟩ s) ctx s := by
  unfold leaveEmptyLoop
  split
  · exact ensures_keep (.refl s)
  rename_i h
  simp only [Bool.or_eq_true, Bool.not_eq_true', not_or, Bool.not_eq_false] at h
  have hiter : iter.constant? = some (.tuple []) := by
    have hempty := h.1
    unfold isEmptyTuple at hempty
    split at hempty
    · assumption
    · cases hempty
  refine ensures_release_bind (ensures_keep (.refl s)) fun s1 h1 => ?_
  exact ensures_logs_bind fun s2 h2 => .pure (.discarded (.idleFor hiter h.2) (h1.logged h2))

theorem ensures_leaveEmptyTry {rest} (hrest : rest.isEmpty = true → doesNothing orelse = true)
    (hkept : rest.isEmpty = false → rest = orelse) :
    Ensures (leaveEmptyTry ⟨pos, .tryBlock body handlers orelse final⟩ body handlers rest final) bad
      (Result ⟨pos, .tryBlock body handlers orelse final⟩ s) ctx s := by
  unfold leaveEmptyTry
  extract_lets movesFinal
  split
  · exact ensures_keep (.refl s)
  rename_i h
  simp only [Bool.or_eq_true, Bool.not_eq_true', not_or, Bool.not_eq_false, Bool.and_eq_true, not_and] at h
  obtain ⟨⟨hbody, hhandlers⟩, hfinal⟩ := h
  refine ensures_release_bind (ensures_keep (.refl s)) fun s1 h1 => ?_
  refine ensures_logs_bind fun s2 h2 => ensures_logs_bind fun s3 h3 => ?_
  have h' := h1.logged (h2.trans h3)
  -- the `finally` block takes the place of the statement, or holds it
  have hcontinue : movesFinal = true → (Stmt.nodesList Node.everywhere final).any Node.isContinue = false :=
    fun hmoves => by simpa using hfinal hmoves
  split
  · rename_i hempty
    exact .pure (.discarded (.tryFinal hbody (hrest hempty) hhandlers
      (hcontinue (by simp [movesFinal, hempty]))) h')
  rename_i hempty
  have horelse := hkept (by simpa using hempty)
  rw [horelse] at hempty ⊢
  split
  · rename_i hidle
    exact ensures_logs_bind fun s4 h4 =>
      .pure (.discarded (.tryElse hbody hidle hhandlers) (h'.logged h4))
  · rename_i hidle
    exact .pure (.discarded (.tryMoved hbody hhandlers (hcontinue (by simp [movesFinal, hidle]))
      (by simpa using hempty) (by simpa using hidle)) h')

theorem ensures_leaveTry :
    Ensures (leaveTry ⟨pos, .tryBlock body handlers orelse final⟩ body handlers orelse final) bad
      (Result ⟨pos, .tryBlock body handlers orelse final⟩ s) ctx s := by
  unfold leaveTry
  refine ensures_dropIdleElse_bind fun s1 h1 => ?_
  -- what is left of the `else` block
  have hrest : (if isIdle orelse then [] else orelse).isEmpty = true → doesNothing orelse = true := by
    split
    · exact fun _ => doesNothing_of_isIdle ‹_›
    · intro hempty
      rw [isEmpty_iff.mp hempty]
      rfl
  have hkept : (if isIdle orelse then [] else orelse).isEmpty = false →
      (if isIdle orelse then [] else orelse) = orelse := by
    split
    · exact fun hempty => by cases hempty
    · exact fun _ => rfl
  have hdropped : ∀ s', Ensures
      (return if isIdle orelse then .replace ⟨pos, .tryBlock body handlers [] final⟩ else .keep)
      bad (Result ⟨pos, .tryBlock body handlers orelse final⟩ s') ctx s' := by
    intro s'
    split
    · exact ensures_step (.tryWithoutElse (doesNothing_of_isIdle ‹_›)) (.refl s')
    · exact ensures_keep (.refl s')
  exact (ensures_orElse (ensures_leaveEmptyTry hrest hkept) hdropped).imp fun step s2 h2 => h2.after_logs h1

end Kinds

/-- The removal does nothing else with a statement, and changes nothing but the log and the places of bindings. -/
theorem ensures_leaveStmt : Ensures (leaveStmt t) bad (Result t s) ctx s := by
  obtain ⟨pos, kind⟩ := t
  unfold leaveStmt
  rw [ensures_config_bind]
  split
  · exact ensures_keep (.refl s)
  cases kind with
  | cond => exact ensures_orElse ensures_leaveConstantCond fun _ => ensures_leaveIdleCond
  | whileLoop => exact ensures_orElse ensures_leaveConstantLoop fun _ => ensures_leaveIdleElse .whileElse
  | forLoop => exact ensures_orElse ensures_leaveEmptyLoop fun _ => ensures_leaveIdleElse .forElse
  | tryBlock => exact ensures_leaveTry
  | _ => exact ensures_keep (.refl s)

/-- The statements after one that ends the body are dropped, if they can be. -/
inductive Trims : List Stmt → List Stmt → List Stmt → Prop
  | none (ts : List Stmt) : Trims ts [] ts
  | rest (before : List Stmt) {last} (dropped : List Stmt) (hlast : last.endsBody = true)
    (hremovable : removable dropped = true) : Trims (before ++ last :: dropped) dropped (before ++ [last])

theorem ensures_trimBody (ts : List Stmt) :
    Ensures (trimBody ts) bad (fun news s' => ∃ dropped, Trims ts dropped news ∧ s.Releases dropped s') ctx s := by
  induction ts with
  | nil => exact .pure ⟨[], .none [], .of_logs (.refl s)⟩
  | cons t ts ih =>
    have hrest : Ensures (do return t :: (← trimBody ts)) bad
        (fun news s' => ∃ dropped, Trims (t :: ts) dropped news ∧ s.Releases dropped s') ctx s := by
      refine ih.bind fun news s' h => .pure ?_
      obtain ⟨dropped, htrims, hs⟩ := h
      refine ⟨dropped, ?_, hs⟩
      cases htrims with
      | none => exact .none _
      | rest before dropped hlast hremovable => exact .rest (t :: before) dropped hlast hremovable
    unfold trimBody
    split
    · rename_i h
      simp only [Bool.and_eq_true] at h
      refine ensures_release_bind hrest fun s1 h1 => ?_
      refine ensures_logs_bind fun s2 h2 => .pure ⟨ts, ?_, h1.logged h2⟩
      exact .rest [] ts h.1.1 h.2
    · exact hrest

theorem Trims.subset {ts dropped news} (h : Trims ts dropped news) : news ⊆ ts := by
  cases h with
  | none => exact Subset.refl _
  | rest before dropped =>
    refine append_subset.mpr ⟨subset_append_left _ _, fun t ht => ?_⟩
    exact mem_append_right _ (mem_cons.mpr (.inl (mem_singleton.mp ht)))

end DeadCode

/-- A display that a loop runs over becomes the constant with the same items. -/
theorem Iterable.exists_of_constantDisplay {limits iter new}
    (h : constantDisplay? limits iter = some new) : ∃ value, limits.literal? value iter.pos = some new ∧
      ((∃ values, iter.kind = .dict [] values) ∨ ∃ w, iter.literal? = some w ∧ immutable? w = some value) := by
  unfold constantDisplay? at h
  split at h
  · rename_i values hk
    exact ⟨_, h, .inl ⟨values, hk⟩⟩
  case h_4 => cases h
  -- lists and sets are read and made immutable in the same way
  all_goals
    obtain ⟨w, hw, h⟩ := Option.bind_eq_some_iff.mp h
    obtain ⟨value, hvalue, h⟩ := Option.bind_eq_some_iff.mp h
    split at h
    · exact ⟨value, h, .inr ⟨w, hw, hvalue⟩⟩
    · cases h

/-- What may become of a loop; `R` tells the iterables that may be replaced. -/
inductive Iterable.Replaces (R : Expr → Expr → Prop) : Stmt → StmtStep → Prop
  | keep {t : Stmt} : Replaces R t .keep
  | iter {pos target iter new body orelse} (hnew : R iter new) :
    Replaces R ⟨pos, .forLoop target iter body orelse false⟩ (.replace ⟨pos, .forLoop target new body orelse false⟩)

theorem Iterable.ensures_leaveStmt {simplify : Expr → Visit (Option Expr)} {R : Expr → Expr → Prop}
    {P : State → Prop} (hs : P s)
    (hsimplify : ∀ iter, Ensures (simplify iter) bad (fun r s' => (∀ new, r = some new → R iter new) ∧ P s') ctx s) :
    Ensures (leaveStmt simplify t) bad (fun step s' => Replaces R t step ∧ P s') ctx s := by
  unfold leaveStmt
  split
  · rename_i target iter body orelse hk
    obtain ⟨pos, kind⟩ := t
    cases hk
    simp only [ensures_config_bind]
    split
    · exact .pure ⟨.keep, hs⟩
    refine (hsimplify iter).bind fun r s' h => ?_
    cases r with
    | none => exact .pure ⟨.keep, h.2⟩
    | some new => exact .pure ⟨.iter (h.1 new rfl), h.2⟩
  · exact .pure ⟨.keep, hs⟩

namespace Unrolling

/-- The iterations of a loop that nothing ends early, then its `else` block. -/
inductive Unrolls (limits : Limits) : Stmt → StmtStep → Prop
  | keep {t : Stmt} : Unrolls limits t .keep
  | unroll {pos target iter id body orelse items literals} (htarget : target.name? = some id)
      (hiter : iter.constant? = some (.tuple items))
    (hitems : items ≠ []) (hliterals : (items.mapM fun item => limits.literal? item iter.pos) = some literals)
    (hstops : ∀ node ∈ Stmt.nodes Node.inScope ⟨pos, .forLoop target iter body orelse false⟩,
      node.stopsLoop = false) :
    Unrolls limits ⟨pos, .forLoop target iter body orelse false⟩
      (.revisit (iterations ⟨pos, .forLoop target iter body orelse false⟩ target body literals ++ orelse))

theorem stopsLoop_of_find {nodes : List Node} (h : (nodes.find? Node.stopsLoop).bind Node.stmt? = none) :
    ∀ node ∈ nodes, node.stopsLoop = false := by
  intro node hnode
  cases hfind : nodes.find? Node.stopsLoop with
  | none => simpa using find?_eq_none.mp hfind node hnode
  | some stop =>
    have hstop := find?_some hfind
    rw [hfind] at h
    cases stop with
    | stmt => cases h
    | expr | handler => cases hstop

/-- Unrolling does nothing else with a statement, and changes nothing but the log. -/
theorem ensures_leaveStmt :
    Ensures (leaveStmt t) bad (fun step s' => Unrolls ctx.config.limits t step ∧ s.Logs s') ctx s := by
  have hkeep : ∀ s', s.Logs s' →
      Ensures (pure StmtStep.keep) bad (fun step s' => Unrolls ctx.config.limits t step ∧ s.Logs s') ctx s' :=
    fun s' h => .pure ⟨.keep, h⟩
  unfold leaveStmt
  split
  · rename_i target iter body orelse hk
    obtain ⟨pos, kind⟩ := t
    cases hk
    rw [ensures_config_bind]
    split
    · rename_i id items htarget hiter
      split
      · exact hkeep s (.refl s)
      rename_i hcount
      have hitems : items ≠ [] := by
        rintro rfl
        exact hcount (by simp [countAllowed])
      split
      · exact ensures_log_bind.mpr (hkeep _ ⟨[_], rfl⟩)
      · rename_i hstops
        split
        · rename_i literals hliterals
          refine ensures_log_bind.mpr (.pure ⟨?_, [_], rfl⟩)
          exact .unroll htarget hiter hitems hliterals (stopsLoop_of_find hstops)
        · exact hkeep s (.refl s)
    · exact hkeep s (.refl s)
  · exact hkeep s (.refl s)

end Unrolling

/-! ### All passes -/

/-- The literal that takes the place of an iterable: that of a display, or that of a range. -/
inductive Iterable.Constant (limits : Limits) : Expr → Expr → Prop
  | display {iter new value} (hnew : limits.literal? value iter.pos = some new)
    (hiter : (∃ values, iter.kind = .dict [] values) ∨ ∃ w, iter.literal? = some w) : Constant limits iter new
  | range {pos inner args} {bounds : List Int} {value new}
    (hargs : args.mapM integer? = some bounds) (hnew : limits.literal? value pos = some new) :
    Constant limits ⟨pos, .call ⟨inner, .name "range"⟩ args []⟩ new

theorem Iterable.ensures_rangeTuple (iter : Expr) : Ensures (rangeTuple iter) bad
    (fun r s' => (∀ new, r = some new → Constant ctx.config.limits iter new) ∧ s'.scope.functions = s.scope.functions)
    ctx s := by
  have hnone : Ensures (pure none) bad (fun (r : Option Expr) s' =>
      (∀ new, r = some new → Constant ctx.config.limits iter new) ∧ s'.scope.functions = s.scope.functions) ctx s :=
    .pure ⟨(fun _ h => by cases h), rfl⟩
  obtain ⟨pos, kind⟩ := iter
  unfold rangeTuple
  split
  · rename_i hkind
    cases hkind
    simp only [ensures_isBuiltin_bind]
    split
    · exact hnone
    rw [ensures_config_bind]
    split
    · rename_i new hnew
      obtain ⟨bounds, hargs, hnew⟩ := Option.bind_eq_some_iff.mp hnew
      obtain ⟨items, _, hnew⟩ := Option.bind_eq_some_iff.mp hnew
      rw [ensures_addGuard_bind]
      split
      · refine .pure ⟨fun new' h => ?_, rfl⟩
        cases h
        exact .range hargs hnew
      · exact hnone
    · exact hnone
  · exact hnone

/-- What the passes may make of a statement. -/
inductive Stmt.Changes (limits : Limits) : Stmt → StmtStep → Prop
  | keep {t : Stmt} : Changes limits t .keep
  | iterable {t step} (h : Iterable.Replaces (Iterable.Constant limits) t step) : Changes limits t step
  | unrolled {t step} (h : Unrolling.Unrolls limits t step) : Changes limits t step
  | discarded {t removed step} (h : DeadCode.Discards t removed step) : Changes limits t step

theorem Stage.changes_leaveStmt (stage : Stage) {p} (hp : p ∈ stage.passes) : Ensures (p.leaveStmt t) bad
    (fun step s' => t.Changes ctx.config.limits step ∧ s'.scope.functions = s.scope.functions) ctx s := by
  have hkeep : Ensures (pure StmtStep.keep) bad
      (fun step s' => t.Changes ctx.config.limits step ∧ s'.scope.functions = s.scope.functions) ctx s :=
    .pure ⟨.keep, rfl⟩
  have hdisplay : ∀ iter, Ensures (do return Iterable.constantDisplay? (← Visit.config).limits iter) bad
      (fun r s' => (∀ new, r = some new → Iterable.Constant ctx.config.limits iter new) ∧
        s'.scope.functions = s.scope.functions) ctx s := by
    refine fun iter => ⟨fun new hnew => ?_, rfl⟩
    obtain ⟨value, hvalue, hiter⟩ := Iterable.exists_of_constantDisplay hnew
    refine .display hvalue (hiter.imp_right ?_)
    rintro ⟨w, hw, _⟩
    exact ⟨w, hw⟩
  have hiterable : ∀ {simplify : Expr → Visit (Option Expr)}, (∀ iter, Ensures (simplify iter) bad
      (fun r s' => (∀ new, r = some new → Iterable.Constant ctx.config.limits iter new) ∧
        s'.scope.functions = s.scope.functions) ctx s) → Ensures (Iterable.leaveStmt simplify t) bad
      (fun step s' => t.Changes ctx.config.limits step ∧ s'.scope.functions = s.scope.functions) ctx s := by
    intro simplify hsimplify
    refine (Iterable.ensures_leaveStmt (P := fun s' => s'.scope.functions = s.scope.functions) rfl hsimplify).imp
      fun step s' h => ?_
    exact ⟨.iterable h.1, h.2⟩
  refine stage.forall_leaveStmt (P := fun leave => Ensures (leave t) bad _ ctx s) hkeep ?_ (hiterable hdisplay) ?_ ?_
    (hiterable Iterable.ensures_rangeTuple) p hp
  · refine Tracking.tracks_leaveStmt.bind fun _ s' h => .pure ⟨.keep, ?_⟩
    obtain ⟨log, known, rfl⟩ := h
    rfl
  · refine Unrolling.ensures_leaveStmt.imp fun step s' h => ⟨.unrolled h.1, ?_⟩
    obtain ⟨log, rfl⟩ := h.2
    rfl
  · refine DeadCode.ensures_leaveStmt.imp fun step s' h => ⟨?_, ?_⟩
    · cases h with
      | kept => exact .keep
      | discarded h => exact .discarded h
    · obtain ⟨log, vars, rfl⟩ := h.frees
      rfl

end Speculator
