import Speculator.Proofs.Redefinition

/-!
# Tracing statements back

What the visits leave of statements was in their blocks, is a definition of theirs with another header and inside, or
goes with the two versions of a specialized function.  A relation that allows these (`Stmt.Traces`) holds between a
statement and the result of visiting it.
-/

namespace Speculator

open List Visit

def Shape.any : Shape where
  check _ := true
  rebuilt _ := rfl
  negated _ := rfl
  const _ := rfl
  tuple _ := rfl
  list _ := rfl
  set _ := rfl
  dict _ := rfl

theorem Shape.admitsCalls_any : Shape.any.AdmitsCalls := ⟨fun _ => rfl, fun _ _ => rfl, fun _ _ _ => rfl⟩

theorem Expr.congruence_any : Congruence (fun _ _ => True) fun _ _ => True where
  refl _ := trivial
  trans _ _ := trivial
  rebuilt _ := trivial
  replaced _ := trivial
  revisited _ _ := trivial
  unrolled _ := trivial
  frame _ _ := trivial
  inside _ _ _ _ _ := trivial

namespace Stmt

/-- The kind of scope that a definition opens, and its name. -/
def definition? (t : Stmt) : Option (ScopeKind × Ident) :=
  match t.kind with
  | .functionDef fn => some (.function, fn.name)
  | .classDef cls => some (.classBody, cls.name)
  | _ => none

def inside (t : Stmt) : List Stmt :=
  match t.kind with
  | .functionDef fn => fn.body
  | .classDef cls => cls.body
  | _ => []

def isPlain (t : Stmt) : Bool :=
  match t.kind with
  | .functionDef _ | .classDef _ | .globals _ | .nonlocals _ => false
  | _ => true

/-- The same definition with another header and another inside. -/
structure Redefined (P : List Stmt → List Stmt → Prop) (old new : Stmt) : Prop where
  pos : new.pos = old.pos
  definition : new.definition? = old.definition?
  inside : P old.inside new.inside

/-- New statements are traced to old ones by `C`, with the insides of definitions related by `P`. -/
structure Traces (P C : List Stmt → List Stmt → Prop) : Prop where
  refl : ∀ ts, C ts ts
  trans : ∀ {ts us vs}, C ts us → C us vs → C ts vs
  mono : ∀ {ts ts' us}, ts ⊆ ts' → C ts us → C ts' us
  each : ∀ {ts us}, (∀ u ∈ us, C ts [u]) → C ts us
  block : ∀ {t block}, t.isScope = false → block ∈ t.blocks → C [t] block
  of_blocks : ∀ {ts new}, new.isPlain = true → (∀ block ∈ new.blocks, C ts block) → C ts [new]
  definition : ∀ {old new}, old.isScope = true → old.Redefined (fun ts us => P ts us ∧ C ts us) new → C [old] [new]
  insideRefl : ∀ ts, P ts ts
  insideTrans : ∀ {ts us vs}, P ts us → P us vs → P ts vs
  insideSubstitute : ∀ table ts, P ts (substituteList table ts)

theorem isScope_of_isPlain {t : Stmt} (ht : t.isPlain = true) : t.isScope = false := by
  obtain ⟨pos, kind⟩ := t
  cases kind with
  | functionDef | classDef => cases ht
  | _ => rfl

namespace Traces

variable {P C : List Stmt → List Stmt → Prop} (hC : Traces P C) {ts ts' us us' : List Stmt} {t new : Stmt}
include hC

theorem nil (ts : List Stmt) : C ts [] := hC.each fun u hu => by cases hu

theorem append (h : C ts us) (h' : C ts' us') : C (ts ++ ts') (us ++ us') := by
  have hone : ∀ {us u}, u ∈ us → C us [u] := fun hu => hC.mono (by simpa using hu) (hC.refl _)
  refine hC.each fun u hu => ?_
  rcases mem_append.mp hu with hu | hu
  · exact hC.mono (subset_append_left ts ts') (hC.trans h (hone hu))
  · exact hC.mono (subset_append_right ts ts') (hC.trans h' (hone hu))

theorem union (h : C ts us) (h' : C ts us') : C ts (us ++ us') :=
  hC.mono (append_subset.mpr ⟨Subset.refl ts, Subset.refl ts⟩) (hC.append h h')

theorem rebuild (ht : t.isScope = false) (hnew : new.isPlain = true) (h : Forall₂ C t.blocks new.blocks) :
    C [t] [new] := by
  refine hC.of_blocks hnew fun block hblock => ?_
  obtain ⟨old, hold, htraced⟩ := exists_of_forall₂ h hblock
  exact hC.trans (hC.block ht hold) htraced

theorem idle (ts : List Stmt) (hnew : new.isPlain = true) (h : new.blocks = []) : C ts [new] :=
  hC.of_blocks hnew fun block hblock => by simp [h] at hblock

theorem header (ht : t.isScope = true) (hpos : new.pos = t.pos) (hdefinition : new.definition? = t.definition?)
    (hinside : new.inside = t.inside) : C [t] [new] :=
  hC.definition ht ⟨hpos, hdefinition, hinside ▸ ⟨hC.insideRefl _, hC.refl _⟩⟩

theorem of_rebuilds {R T : Expr → Expr → Prop} (h : t.Rebuilds R T C new) : C [t] [new] := by
  cases h with
  | same => exact hC.refl _
  | header h =>
    cases h with
    | function | classDef => exact hC.header rfl rfl rfl rfl
  | forLoop _ _ h h' | whileLoop _ h h' | cond _ h h' => exact hC.rebuild rfl rfl (.cons h (.cons h' .nil))
  | withBlock _ h => exact hC.rebuild rfl rfl (.cons h .nil)
  | tryBlock h hhandlers h' hfinal =>
    exact hC.rebuild rfl rfl (.cons h (rel_append (rel_map (fun _ _ h => h.body) hhandlers)
      (.cons h' (.cons hfinal .nil))))
  | ret | delete | assign | augAssign | raise | expr => exact hC.idle _ rfl rfl

theorem substitute (table : List (Ident × Expr)) (ts : List Stmt) : C ts (substituteList table ts) :=
  Stmt.related_substituteList (R := fun _ _ => True) (T := fun _ _ => True) (fun _ => trivial) (fun _ => trivial)
    (hC.refl []) hC.append hC.of_rebuilds ts

/-! ### Visits -/

omit hC in
def correspondence (C : List Stmt → List Stmt → Prop) : Correspondence where
  expr _ _ _ _ := True
  target _ _ _ _ := True
  stmts _ ts news _ := C ts news

theorem rebuilding : (correspondence C).Rebuilding (fun (_ : Unit) _ => True) (fun _ => True) (fun _ _ => True)
    (fun _ _ => True) C := by
  refine .of_plain rfl hC.refl hC.trans hC.append hC.of_rebuilds (fun h => ?_) fun _ => hC.idle _ rfl rfl
  cases h with
  | none => exact hC.refl _
  | rest => exact hC.append (hC.refl _) (hC.mono (by simp) (hC.refl _))

theorem lawful : (correspondence C).Bodies := hC.rebuilding.bodies

theorem inPlaceOf (ht : t.isScope = false) {block} (h : block ∈ t.blocks) :
    C [t] ((DeadCode.inPlaceOf t block).stmts t) := by
  unfold DeadCode.inPlaceOf
  split
  · exact hC.idle _ rfl rfl
  · exact hC.block ht h

theorem of_discards {removed step} (h : DeadCode.Discards t removed step) : C [t] (step.stmts t) := by
  cases h with
  | always | never | idleWhile | idleFor | tryFinal | tryElse => exact hC.inPlaceOf rfl (by simp [blocks])
  | negated | condElse | whileElse | forElse | tryMoved | tryWithoutElse =>
    refine hC.of_blocks rfl fun block hblock => ?_
    rcases eq_or_ne block [] with rfl | hne
    · exact hC.nil _
    · refine hC.block rfl ?_
      simp only [blocks, map_nil, cons_append, nil_append, mem_cons, mem_append, not_mem_nil, or_false] at hblock ⊢
      tauto

theorem iterations (ht : t.isScope = false) {body} (h : body ∈ t.blocks) (target : Expr)
    (literals : List Expr) : C [t] (Unrolling.iterations t target body literals) := by
  induction literals with
  | nil => exact hC.nil _
  | cons l literals ih =>
    have hassign : C [t] [t.withKind (.assign [target] l)] := hC.idle _ rfl rfl
    exact hC.union (hC.union hassign (hC.block ht h)) ih

theorem of_changes {limits step} (h : t.Changes limits step) : C [t] (step.stmts t) := by
  cases h with
  | keep => exact hC.refl _
  | iterable h =>
    cases h with
    | keep => exact hC.refl _
    | iter => exact hC.rebuild rfl rfl (.cons (hC.refl _) (.cons (hC.refl _) .nil))
  | unrolled h =>
    cases h with
    | keep => exact hC.refl _
    | unroll => exact hC.union (hC.iterations rfl (by simp [blocks]) _ _) (hC.block rfl (by simp [blocks]))
  | discarded h => exact hC.of_discards h

theorem of_redefines (h : t.Redefines (fun ts us => P ts us ∧ C ts us) us) : C [t] us := by
  cases h with
  | function h =>
    obtain ⟨body, hbody, rfl⟩ := h
    exact hC.definition rfl ⟨rfl, rfl, hbody⟩
  | classDef h => exact hC.definition rfl ⟨rfl, rfl, h⟩
  | pair hslow hfast =>
    obtain ⟨body, hbody, rfl⟩ := hslow
    obtain ⟨body', hbody', rfl⟩ := hfast
    refine hC.each fun u hu => ?_
    rcases Specialize.cases_definitions Shape.admitsCalls_any hu with rfl | rfl | haux
    · exact hC.definition rfl ⟨rfl, rfl, hbody⟩
    · exact hC.definition rfl ⟨rfl, rfl, hC.insideTrans hbody'.1 (hC.insideSubstitute _ _),
        hC.trans hbody'.2 (hC.substitute _ _)⟩
    · cases haux with
      | assign | delete | expr => exact hC.idle _ rfl rfl

section Visitor

variable {ctx : Context} {s : State} {n : Nat}
  (hinside : ∀ n ctx s ts, Ensures ((visitor n).body true ts) (fun _ => True) (fun us _ => P ts us) ctx s)
include hinside

theorem ensures_inside (h : ∀ ctx t s, Ensures ((visitor n).stmt t) (fun _ => True) (fun us _ => C [t] us) ctx s)
    (ctx : Context) (s : State) (ts : List Stmt) :
    Ensures ((visitor n).body true ts) (fun _ => True) (fun us _ => P ts us ∧ C ts us) ctx s :=
  ((hinside n ctx s ts).and (Correspondence.ensures_body hC.lawful (h ctx) true ts)).mono (fun _ _ => trivial)
    fun _ _ h => h

/-- A statement is traced back from what it becomes. -/
theorem visitor (n : Nat) (ctx : Context) (t : Stmt) (s : State) :
    Ensures ((visitor n).stmt t) (fun _ => True) (fun us _ => C [t] us) ctx s := by
  induction n generalizing t s ctx with
  | zero => exact trivial
  | succ n ih =>
    cases ht : t.isScope with
    | false =>
      refine hC.rebuilding.visitStmt ⟨fun e s => Visitor.ensures_any, fun e s => Visitor.ensures_any⟩ (ih ctx)
        (fun p hp t s => ?_) (fun _ _ _ _ => trivial) ht
      refine (ctx.stage.changes_leaveStmt hp).imp fun step s' h => ?_
      exact (Correspondence.step_iff _).mpr (hC.of_changes h.1)
    | true =>
      refine (Expr.congruence_any.visitDefinition (Expr.congruence_any.visitor n) trivial
        (fun ts => ⟨hC.insideRefl ts, hC.refl ts⟩) (fun h h' => ⟨hC.insideTrans h.1 h'.1, hC.trans h.2 h'.2⟩)
        (fun ctx s ts _ => hC.ensures_inside hinside ih ctx s ts) ht fun _ _ _ => trivial).imp fun us s' h => ?_
      obtain ⟨⟨new, hheader, hus⟩, _⟩ := h
      exact hC.trans (hC.of_rebuilds (.header (T := fun _ _ => True) hheader)) (hC.of_redefines hus)

end Visitor

end Traces

end Stmt

end Speculator
