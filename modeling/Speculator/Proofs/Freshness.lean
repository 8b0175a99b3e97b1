import Mathlib.Data.List.Nodup
import Mathlib.Data.List.Perm.Subperm
import Speculator.Proofs.Closure
import Speculator.Proofs.Steps

/-!
# New names and texts

Besides the variables that hold slow versions of functions, the only new texts are the placeholders of builtins: a
step of a visit, and the visit of an expression, chooses placeholders for builtins of the current scope, whose texts
were not in use before, and leaves the local variables of the scope as they are (`State.Chooses`, `Visit.Choosing`).
-/

namespace Speculator

open List Visit

/-! ### The search for a text -/

/-- The search for a text that is not in use finds one. -/
theorem freshText_not_mem (used : List String) (base mark : String) : freshText used base mark ∉ used := by
  let candidate : Nat → String := fun i => base ++ mark ++ toString (i + 2)
  have hinjective : Function.Injective candidate := by
    intro i j h
    have hrepr : (i + 2).repr = (j + 2).repr := (String.append_right_inj _).mp h
    have hdigits : Nat.toDigits 10 (i + 2) = Nat.toDigits 10 (j + 2) := by rw [← Nat.toList_repr, hrepr,
        Nat.toList_repr]
    have hindex : i + 2 = j + 2 := by
      rw [← @Nat.ofDigitChars_ten_toDigits (i + 2), hdigits, Nat.ofDigitChars_ten_toDigits]
    omega
  have hbase : ∀ i, candidate i ≠ base := by
    intro i h
    have hempty : mark ++ toString (i + 2) = "" := by
      simp only [candidate, String.append_assoc] at h
      exact String.append_eq_left_iff.mp h
    exact Nat.repr_ne_empty (String.append_eq_empty_iff.mp hempty).2
  unfold freshText
  split
  · rename_i hfree
    simpa using hfree
  rename_i hused
  have hmem : base ∈ used := by simpa using hused
  -- all the candidates before the current one are in use
  have hgo : ∀ fuel start, fuel + start = used.length → (∀ i < start, candidate i ∈ used) →
      freshText.go used base mark fuel (start + 2) ∉ used := by
    intro fuel
    induction fuel with
    | zero =>
      intro start hlength hbefore
      have hnodup : (base :: (List.range start).map candidate).Nodup := by
        rw [nodup_cons, mem_map]
        refine ⟨fun ⟨i, _, hi⟩ => hbase i hi, Nodup.map hinjective nodup_range⟩
      have hsubset : base :: (List.range start).map candidate ⊆ used := by
        intro text htext
        rcases mem_cons.mp htext with rfl | htext
        · exact hmem
        · obtain ⟨i, hi, rfl⟩ := mem_map.mp htext
          exact hbefore i (mem_range.mp hi)
      have hle := (subperm_of_subset hnodup hsubset).length_le
      simp at hle
      omega
    | succ fuel ih =>
      intro start hlength hbefore
      unfold freshText.go
      split
      · rename_i hcandidate
        refine ih (start + 1) (by omega) fun i hi => ?_
        by_cases hlast : i = start
        · subst hlast
          exact contains_iff_mem.mp hcandidate
        · exact hbefore i (by omega)
      · rename_i hcandidate
        simpa using hcandidate
  exact hgo used.length 0 (by omega) fun i hi => by omega

theorem freshText_eq (used : List String) (base mark : String) :
    freshText used base mark = base ∨ ∃ index : Nat, freshText used base mark = base ++ mark ++ toString index := by
  have hgo : ∀ fuel index, ∃ last : Nat, freshText.go used base mark fuel index = base ++ mark ++ toString last := by
    intro fuel
    induction fuel with
    | zero => exact fun index => ⟨index, rfl⟩
    | succ fuel ih =>
      intro index
      unfold freshText.go
      split
      · exact ih (index + 1)
      · exact ⟨index, rfl⟩
  unfold freshText
  split
  · exact .inl rfl
  · exact .inr (hgo _ _)

theorem Specialize.ensures_definitions {scope slow fast} {bad : Failure → Prop}
    {post : List Stmt → State → Prop} {ctx s} (h : ∀ log,
      let kept := freshText s.scope.vars.locals "_ast_optimized" ""
      let vars := { s.scope.vars with locals := kept :: s.scope.vars.locals }
      post (definitions slow fast scope.guards scope.copied kept)
        { s with scope := { s.scope with vars := vars }, log := log, needsSupport := true }) :
    Ensures (specialize scope slow fast) bad post ctx s :=
  h _

/-! ### Steps that choose placeholders -/

/-- The states differ in chosen placeholders, and in what concerns neither names nor texts. -/
structure State.Chooses (s s' : State) : Prop where
  locals : s'.scope.vars.locals = s.scope.vars.locals
  texts : s.texts ⊆ s'.texts
  copied : ∃ new, s'.scope.copied = s.scope.copied ++ new ∧ (∀ p ∈ new, p.2 ∈ s'.texts ∧ p.2 ∉ s.texts) ∧
    (new.map Prod.snd).Nodup
  names : (s.scope.copied.map Prod.fst).Nodup → (s'.scope.copied.map Prod.fst).Nodup

namespace State.Chooses

variable {s s' s'' : State}

theorem of_same (hlocals : s'.scope.vars.locals = s.scope.vars.locals) (htexts : s'.texts = s.texts)
    (hcopied : s'.scope.copied = s.scope.copied) : s.Chooses s' where
  locals := hlocals
  texts := by rw [htexts]; exact Subset.refl _
  copied := ⟨[], by rw [hcopied, append_nil], by simp, by simp⟩
  names := by rw [hcopied]; exact id

theorem refl (s : State) : s.Chooses s := .of_same rfl rfl rfl

theorem trans (h : s.Chooses s') (h' : s'.Chooses s'') : s.Chooses s'' := by
  obtain ⟨new, hcopied, hnew, hnodup⟩ := h.copied
  obtain ⟨new', hcopied', hnew', hnodup'⟩ := h'.copied
  refine ⟨h'.locals.trans h.locals, fun text htext => h'.texts (h.texts htext), ⟨new ++ new', ?_, fun p hp => ?_, ?_⟩,
    fun hnames => h'.names (h.names hnames)⟩
  · rw [hcopied', hcopied, append_assoc]
  · rcases mem_append.mp hp with hp | hp
    · exact ⟨h'.texts (hnew p hp).1, (hnew p hp).2⟩
    · exact ⟨(hnew' p hp).1, fun htext => (hnew' p hp).2 (h.texts htext)⟩
  · rw [map_append, nodup_append]
    refine ⟨hnodup, hnodup', fun text htext text' htext' heq => ?_⟩
    obtain ⟨p, hp, rfl⟩ := mem_map.mp htext
    obtain ⟨p', hp', rfl⟩ := mem_map.mp htext'
    -- the later text was not in use when the earlier one already was
    exact (hnew' p' hp').2 (heq ▸ (hnew p hp).1)

theorem of_tracks (h : s.Tracks s') : s.Chooses s' := by
  obtain ⟨log, known, rfl⟩ := h
  exact .of_same rfl rfl rfl

theorem of_releases {removed} (h : s.Releases removed s') : s.Chooses s' := by
  obtain ⟨log, vars, rfl, hvars⟩ := h
  refine .of_same ?_ rfl rfl
  split at hvars
  · obtain ⟨freed, _, hrelease⟩ := hvars
    exact Variables.locals_release hrelease
  · rw [hvars]

end State.Chooses

def Visit.Choosing {α : Type} (x : Visit α) : Prop :=
  ∀ ctx s, Ensures x (fun _ => True) (fun _ s' => s.Chooses s') ctx s

namespace Visit.Choosing

variable {α β : Type} {x : Visit α}

theorem bind {f : α → Visit β} (hx : Choosing x) (hf : ∀ a, Choosing (f a)) : Choosing (x >>= f) := by
  intro ctx s
  refine (hx ctx s).bind fun a s1 h1 => ?_
  exact (hf a ctx s1).imp fun _ s2 h2 => h1.trans h2

theorem get : Choosing (MonadState.get : Visit State) := fun _ s => .refl s

theorem modifyKnown (f : Namespace → Namespace) : Choosing (Visit.modifyKnown f) :=
  fun _ _ => ensures_modifyKnown.mpr (.of_same rfl rfl rfl)

theorem addGuard (guard : Guard) : Choosing (Visit.addGuard guard) := by
  intro ctx s
  unfold Visit.addGuard
  rw [ensures_read_bind]
  split
  · rw [ensures_modifyScope_bind]
    exact .pure (.of_same rfl rfl rfl)
  · exact .pure (.refl s)

theorem knownVariable (e : Expr) : Choosing (Propagation.knownVariable e) := by
  intro ctx s
  have hkeep : Ensures (pure ExprStep.keep) (fun _ => True) (fun _ s' => s.Chooses s') ctx s :=
    .pure (.refl s)
  unfold Propagation.knownVariable
  split
  · rw [ensures_config_bind, ensures_scope_bind]
    split
    · exact hkeep
    rw [ensures_get_bind]
    split
    · exact hkeep
    rw [ensures_literal?_bind]
    split
    · exact hkeep
    · rw [ensures_logQuoting_bind]
      exact .pure (.of_same rfl rfl rfl)
  · exact hkeep

theorem choose (id : Ident) : Choosing (Placeholder.choose id) := by
  intro ctx s
  have hnothing : ∀ s', s.Chooses s' → Ensures (pure ()) (fun _ => True) (fun _ s' => s.Chooses s') ctx s' :=
    fun s' h => .pure h
  unfold Placeholder.choose
  rw [ensures_config_bind]
  split
  · exact hnothing s (.refl s)
  rw [ensures_scope_bind, ensures_isBuiltin_bind]
  split
  · exact hnothing s (.refl s)
  rename_i hopen
  have hnew : id ∉ s.scope.copied.map Prod.fst := by
    simp only [Bool.or_eq_true, not_or, Bool.not_eq_true, Scope.hasCopied, Option.isSome_eq_false_iff,
      Option.isNone_iff_eq_none] at hopen
    intro hmem
    obtain ⟨p, hp, rfl⟩ := mem_map.mp hmem
    have hlookup := lookup_eq_none_iff.mp hopen.1 p hp
    simp at hlookup
  rw [ensures_addGuard_bind]
  split
  · unfold Visit.newText
    simp only [if_true, bind_assoc, ensures_get_bind, ensures_modify_bind, pure_bind, ensures_modifyScope]
    have hfresh := freshText_not_mem s.texts ("LOAD_GLOBAL " ++ id) "#"
    refine ⟨rfl, subset_cons_self _ _, ⟨[(id, _)], rfl, ?_, by simp⟩, fun hnames => ?_⟩
    · intro p hp
      rw [mem_singleton.mp hp]
      exact ⟨mem_cons_self, hfresh⟩
    · rw [map_append, nodup_append]
      refine ⟨hnames, by simp, fun name hname name' hname' heq => hnew ?_⟩
      rw [heq, mem_singleton.mp hname'] at hname
      exact hname
  · exact hnothing s (.refl s)

theorem mapFailure (hx : Choosing x) (g : Context → Failure → Failure) : Choosing (x.mapFailure g) :=
  fun ctx s => ensures_mapFailure.mpr ((hx ctx s).mono (fun _ _ => trivial) fun _ _ h => h)

theorem inside (hx : Choosing x) (kind : ScopeKind) (vars : Variables) : Choosing (Visitor.inside kind vars x) := by
  intro ctx s
  refine Visitor.ensures_inside.mpr ((hx _ _).imp fun a s' h => ?_)
  exact ⟨rfl, h.texts, ⟨[], by simp, by simp, by simp⟩, id⟩

theorem closed : Visit.Closed Choosing where
  pure _ _ s := .pure (.refl s)
  bind := .bind
  read _ s := .refl s
  scope _ s := .refl s
  log _ _ _ _ := ensures_log.mpr (.of_same rfl rfl rfl)
  logQuoting _ _ _ _ := .of_same rfl rfl rfl
  noteOverrun _ _ _ := .of_same rfl rfl rfl
  fail _ _ _ := trivial
  addGuard := .addGuard
  knownVariable := .knownVariable
  choose := .choose
  mapFailure := .mapFailure
  inside := .inside

end Visit.Choosing

/-! ### The passes over statements -/

theorem Stage.choosing_enterAll (stage : Stage) (t : Stmt) : Choosing (stage.passes.forM fun p => p.enterStmt t) := by
  intro ctx s
  refine ensures_forM (.refl s) fun p hp s' hs' => (Pass.ensures_enterStmt stage hp).imp fun _ s'' h => hs'.trans ?_
  cases h <;> exact .of_same rfl rfl rfl

theorem Iterable.choosing_leaveStmt {simplify : Expr → Visit (Option Expr)}
    (hsimplify : ∀ iter, Choosing (simplify iter))
    (t : Stmt) : Choosing (leaveStmt simplify t) := by
  intro ctx s
  refine (Iterable.ensures_leaveStmt (R := fun _ _ => True) (.refl s) fun iter => ?_).imp fun _ s' h => h.2
  exact (hsimplify iter ctx s).imp fun _ s' h => ⟨fun _ _ => trivial, h⟩

theorem Iterable.choosing_rangeTuple (iter : Expr) : Choosing (rangeTuple iter) := by
  unfold rangeTuple
  split
  · refine .bind (Choosing.closed.isBuiltin _) fun isBuiltin => ?_
    split
    · exact Choosing.closed.pure _
    refine .bind Choosing.closed.config fun config => ?_
    dsimp only
    split
    · exact .bind (.addGuard _) fun _ => Choosing.closed.pure _
    · exact Choosing.closed.pure _
  · exact Choosing.closed.pure _

theorem Stage.choosing_leaveStmt (stage : Stage) : ∀ p ∈ stage.passes, ∀ t, Choosing (p.leaveStmt t) := by
  refine stage.forall_leaveStmt (P := fun leave => ∀ t, Choosing (leave t)) (fun _ => Choosing.closed.pure _) ?_
    (Iterable.choosing_leaveStmt fun iter => .bind Choosing.closed.config fun _ => Choosing.closed.pure _) ?_ ?_
    (Iterable.choosing_leaveStmt Iterable.choosing_rangeTuple)
  · exact fun t ctx s => Tracking.tracks_leaveStmt.bind fun _ s' h => .pure (.of_tracks h)
  · exact fun t ctx s => Unrolling.ensures_leaveStmt.imp fun _ s' h => .of_tracks h.2.tracks
  · intro t ctx s
    refine DeadCode.ensures_leaveStmt.imp fun step s' h => ?_
    cases h with
    | kept hs => exact .of_tracks hs.tracks
    | discarded _ hs => exact .of_releases hs

theorem DeadCode.choosing_trimBody (ts : List Stmt) : Choosing (trimBody ts) := by
  intro ctx s
  refine (ensures_trimBody ts).imp fun news s' h => ?_
  obtain ⟨dropped, _, hs⟩ := h
  exact .of_releases hs

end Speculator
