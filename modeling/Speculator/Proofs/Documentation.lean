import Speculator.Proofs.StraightLine
import Speculator.Proofs.Tracing

/-!
# Documentation

The documentation of a module, a class or a function is the text that its body begins with.  Bodies keep theirs, in
both versions of a specialized function.  A body without documentation gets one only if it begins with an expression
that may become a text, or with a block that may be all that is left of the statement around it (`Stmt.mayDocument`).
-/

namespace Speculator

open List Visit

def Expr.mayBeLiteral : Expr → Bool
  | ⟨_, .unaryOp _ operand⟩ => operand.mayBeLiteral
  | ⟨_, .boolOp ..⟩ | ⟨_, .lambda ..⟩ | ⟨_, .ifExp ..⟩ | ⟨_, .generatorExp ..⟩ | ⟨_, .await _⟩ | ⟨_, .yield _⟩
  | ⟨_, .yieldFrom _⟩ | ⟨_, .attr ..⟩ | ⟨_, .starred _⟩ | ⟨_, .slice ..⟩ => false
  | _ => true

def Expr.mayBeText (e : Expr) : Bool :=
  match e.kind with
  | .const (.str _) | .name _ | .binOp .. | .subscript .. | .call .. => true
  | _ => false

namespace Stmt

def text? (t : Stmt) : Option String :=
  match t.kind with
  | .expr ⟨_, .const (.str text)⟩ => some text
  | _ => none

def documentation (ts : List Stmt) : Option String := ts.head?.bind text?

mutual

/-- Whether the statement is a text, or may become one or a body that begins with one. -/
def mayBeText : Stmt → Bool
  | ⟨_, .expr value⟩ => value.mayBeText
  | ⟨_, .cond test body orelse⟩ => test.mayBeLiteral && (mayDocument body || mayDocument orelse)
  | ⟨_, .whileLoop test _ orelse⟩ => test.mayBeLiteral && mayDocument orelse
  | ⟨_, .forLoop _ iter _ orelse _⟩ => iter.mayBeLiteral && mayDocument orelse
  | ⟨_, .tryBlock _ _ orelse final⟩ => mayDocument orelse || mayDocument final
  | _ => false

def mayDocument : List Stmt → Bool
  | [] => false
  | t :: _ => t.mayBeText

end

/-- A body that begins with a text keeps it, and one that begins with something that cannot become a text gets
none. -/
def KeepsDocumentation (olds news : List Stmt) : Prop :=
  (documentation olds).isSome = true ∨ mayDocument olds = false → documentation news = documentation olds

theorem text?_expr {pos value} {text : String} :
    text? ⟨pos, .expr value⟩ = some text ↔ value.kind = .const (.str text) := by
  obtain ⟨inner, kind⟩ := value
  unfold text?
  dsimp only
  split
  · rename_i hkind
    cases hkind
    simp
  · rename_i hkind
    simp only [reduceCtorEq, false_iff]
    rintro rfl
    exact hkind _ _ rfl

theorem mayBeText_of_text? {t : Stmt} {text : String} (h : t.text? = some text) : t.mayBeText = true := by
  obtain ⟨pos, kind⟩ := t
  unfold text? at h
  split at h
  · rename_i hkind
    cases hkind
    rfl
  · cases h

end Stmt

/-! ### Expressions -/

/-- What an expression becomes is a text if it is one, and otherwise only if it may become one. -/
structure Expr.KeepsText (e new : Expr) : Prop where
  kept : ∀ {text}, e.kind = .const (.str text) → new.kind = .const (.str text)
  text : new.mayBeText = true → e.mayBeText = true
  literal : new.mayBeLiteral = true → e.mayBeLiteral = true

theorem Expr.KeepsText.refl (e : Expr) : e.KeepsText e := ⟨fun h => h, fun h => h, fun h => h⟩

variable {e new : Expr} {v : Value} {t : Stmt} {limits : Limits}

theorem Expr.Rebuilds.keepsText (h : e.Rebuilds Expr.KeepsText new) : e.KeepsText new := by
  cases h with
  | const => exact .refl _
  | unaryOp h => exact ⟨(fun h => by cases h), fun h => h, h.literal⟩
  | _ => exact ⟨(fun h => by cases h), fun h => h, fun h => h⟩

theorem Expr.mayBeLiteral_of_literal? (h : e.literal? = some v) : e.mayBeLiteral = true := by
  obtain ⟨pos, kind⟩ := e
  cases kind with
  | unaryOp op operand =>
    change ExprKind.scalar? _ = some v at h
    unfold ExprKind.scalar? at h
    split at h
    · rename_i hkind
      cases hkind
    · rename_i hkind
      cases hkind
      rfl
    · cases h
  | boolOp | lambda | ifExp | generatorExp | await | yield | yieldFrom | attr | starred | slice => cases h
  | _ => rfl

theorem Expr.mayBeLiteral_of_constant? (h : e.constant? = some v) : e.mayBeLiteral = true :=
  mayBeLiteral_of_literal? (literal?_of_constant? e h)

theorem Iterable.Constant.mayBeLiteral {iter} (h : Constant limits iter new) : iter.mayBeLiteral = true := by
  cases h with
  | range => rfl
  | display _ hiter =>
    rcases hiter with ⟨values, hkind⟩ | ⟨w, hw⟩
    · obtain ⟨pos, kind⟩ := iter
      cases hkind
      rfl
    · exact Expr.mayBeLiteral_of_literal? hw

theorem Limits.not_mayBeText_of_isNumber {pos} (hv : v.isNumber = true)
    (h : limits.literal? v pos = some new) : new.mayBeText = false := by
  unfold Limits.literal? at h
  split at h
  · cases h
    rw [Value.toExpr_of_isNumber hv]
    cases v <;> first | rfl | cases hv
  · cases h

theorem Folding.Folded.keepsText (h : Folded limits e new) : e.KeepsText new := by
  have hnumber : ∀ {v pos}, v.isNumber = true → limits.literal? v pos = some new →
      new.mayBeText = true → e.mayBeText = true := by
    intro v pos hv hnew htext
    rw [Limits.not_mayBeText_of_isNumber hv hnew] at htext
    cases htext
  cases h with
  | binary | item | slice => exact ⟨(fun h => by cases h), fun _ => rfl, fun _ => rfl⟩
  | unary hoperand hresult hnew =>
    have hliteral := Expr.mayBeLiteral_of_constant? hoperand
    exact ⟨(fun h => by cases h), hnumber (Value.isNumber_unary hresult) hnew, fun _ => hliteral⟩
  | negated | searched => exact ⟨(fun h => by cases h), fun h => h, fun _ => rfl⟩
  | compared _ _ _ hnew | identical _ hnew => exact ⟨(fun h => by cases h), hnumber rfl hnew, fun _ => rfl⟩

theorem Expr.congruence_keepsText : Congruence Expr.KeepsText fun _ _ => True where
  refl := .refl
  trans h h' := ⟨fun htext => h'.kept (h.kept htext), fun htext => h.text (h'.text htext),
    fun hliteral => h.literal (h'.literal hliteral)⟩
  rebuilt := Expr.Rebuilds.keepsText
  replaced h := by
    cases h with
    | folded hnew => exact hnew.keepsText
    | debug | known | method | builtin => exact ⟨(fun h => by cases h), fun _ => rfl, fun _ => rfl⟩
  revisited _ h := by
    cases h with
    | inlined => exact ⟨(fun h => by cases h), fun _ => rfl, fun _ => rfl⟩
  unrolled h := by
    cases h with
    | list | set | dict => exact ⟨(fun h => by cases h), fun h => h, fun _ => rfl⟩
  frame _ _ := trivial
  inside _ _ _ _ _ := trivial

theorem Expr.keepsText_substitute (table : List (Ident × Expr)) (e : Expr) : e.KeepsText (e.substitute table) := by
  induction e using Expr.induction_parts with
  | step e ih =>
    cases hname : e.name? with
    | some id =>
      rw [Expr.eq_of_name hname]
      exact ⟨(fun h => by cases h), fun _ => rfl, fun _ => rfl⟩
    | none => exact (Expr.rebuilds_substitute hname fun c hc => ⟨fun _ => .refl c, ih c hc⟩).keepsText

/-! ### Bodies -/

/-- What a body becomes is as long where it matters, and begins with a text if the body does. -/
structure Stmt.Documents (olds news : List Stmt) : Prop where
  nil_iff : news = [] ↔ olds = []
  kept : ∀ {text}, documentation olds = some text → documentation news = some text
  may : mayDocument news = true → mayDocument olds = true

namespace Stmt.Documents

variable {ts us vs ts' us' : List Stmt} {t u : Stmt}

theorem refl (ts : List Stmt) : Documents ts ts := ⟨Iff.rfl, fun h => h, fun h => h⟩

theorem trans (h : Documents ts us) (h' : Documents us vs) : Documents ts vs :=
  ⟨h'.nil_iff.trans h.nil_iff, fun htext => h'.kept (h.kept htext), fun hmay => h.may (h'.may hmay)⟩

theorem cons (ts us : List Stmt) (hkept : ∀ {text}, t.text? = some text → u.text? = some text)
    (hmay : u.mayBeText = true → t.mayBeText = true) : Documents (t :: ts) (u :: us) :=
  ⟨by simp, hkept, hmay⟩

theorem append (h : Documents ts us) (h' : Documents ts' us') : Documents (ts ++ ts') (us ++ us') := by
  cases ts with
  | nil =>
    obtain rfl := h.nil_iff.mpr rfl
    exact h'
  | cons t ts =>
    cases us with
    | nil => cases h.nil_iff.mp rfl
    | cons u us => exact .cons _ _ h.kept h.may

theorem keepsDocumentation (h : Documents ts us) : KeepsDocumentation ts us := by
  have hmay : ∀ {ts} {text : String}, documentation ts = some text → mayDocument ts = true := by
    intro ts text htext
    cases ts with
    | nil => cases htext
    | cons t ts => exact mayBeText_of_text? htext
  intro hold
  cases htext : documentation ts with
  | some text => exact h.kept htext
  | none =>
    rw [htext] at hold
    cases hnew : documentation us with
    | none => rfl
    | some text =>
      have hmayOld := h.may (hmay hnew)
      rw [hold.resolve_left Bool.false_ne_true] at hmayOld
      cases hmayOld

theorem both {a a' b b' : Bool} (ha : a' = true → a = true) (hb : b' = true → b = true) (h : (a' && b') = true) :
    (a && b) = true := by
  rw [Bool.and_eq_true] at h ⊢
  exact ⟨ha h.1, hb h.2⟩

theorem either {a a' b b' : Bool} (ha : a' = true → a = true) (hb : b' = true → b = true) (h : (a' || b') = true) :
    (a || b) = true := by
  rw [Bool.or_eq_true] at h ⊢
  exact h.imp ha hb

def correspondence : Correspondence where
  expr _ e new _ := e.KeepsText new
  target _ _ _ _ := True
  stmts _ ts news _ := Documents ts news

theorem of_rebuilds {T : Expr → Expr → Prop} (h : t.Rebuilds Expr.KeepsText T Documents u) : Documents [t] [u] := by
  cases h with
  | same => exact refl _
  | header h =>
    cases h with
    | function | classDef => exact .cons _ _ (fun h => by cases h) fun h => by cases h
  | forLoop _ h _ h' | whileLoop h _ h' => exact .cons _ _ (fun h => by cases h) (both h.literal h'.may)
  | cond h h' h'' => exact .cons _ _ (fun h => by cases h) (both h.literal (either h'.may h''.may))
  | tryBlock _ _ h h' => exact .cons _ _ (fun h => by cases h) (either h.may h'.may)
  | expr h => exact .cons _ _ (fun htext => text?_expr.mpr (h.kept (text?_expr.mp htext))) h.text
  | ret | delete | assign | augAssign | withBlock | raise => exact .cons _ _ (fun h => by cases h) fun h => by cases h

theorem rebuilding : correspondence.Rebuilding (fun (_ : Unit) _ => True) (fun _ => True) Expr.KeepsText
    (fun _ _ => True)
    Documents := by
  refine .of_plain rfl refl trans append of_rebuilds (fun h => ?_) fun h => by cases h.nil_iff.mp rfl
  cases h with
  | none => exact refl _
  | rest before => exact append (refl before) (.cons _ _ (fun h => h) fun h => h)

theorem inPlaceOf {block} (ht : t.text? = none) (h : mayDocument block = true → t.mayBeText = true) :
    Documents [t] ((DeadCode.inPlaceOf t block).stmts t) := by
  have hnone : ∀ {u : Stmt} {text : String}, t.text? = some text → u.text? = some text := by
    intro u text htext
    rw [ht] at htext
    cases htext
  cases block with
  | nil => exact .cons _ _ hnone fun h => by cases h
  | cons u us => exact .cons _ _ hnone h

theorem of_discards {removed step} (h : DeadCode.Discards t removed step) : Documents [t] (step.stmts t) := by
  have hand : ∀ {a b : Bool}, a = true → b = true → (a && b) = true := fun ha hb => Bool.and_eq_true_iff.mpr ⟨ha, hb⟩
  cases h with
  | always htest =>
    exact .inPlaceOf rfl fun h => hand (Expr.mayBeLiteral_of_constant? htest) (Bool.or_eq_true_iff.mpr (.inl h))
  | never htest =>
    exact .inPlaceOf rfl fun h => hand (Expr.mayBeLiteral_of_constant? htest) (Bool.or_eq_true_iff.mpr (.inr h))
  | idleWhile htest | idleFor htest => exact .inPlaceOf rfl fun h => hand (Expr.mayBeLiteral_of_constant? htest) h
  | tryFinal => exact .inPlaceOf rfl fun h => Bool.or_eq_true_iff.mpr (.inr h)
  | tryElse => exact .inPlaceOf rfl fun h => Bool.or_eq_true_iff.mpr (.inl h)
  | negated | condElse =>
    refine .cons _ _ (fun h => by cases h) (both (fun h => h) fun h => ?_)
    rw [mayDocument, Bool.or_false] at h
    simp [h]
  | whileElse | forElse => exact .cons _ _ (fun h => by cases h) (both (fun h => h) fun h => by cases h)
  | tryMoved | tryWithoutElse => exact .cons _ _ (fun h => by cases h) fun h => Bool.or_eq_true_iff.mpr (.inr h)

theorem of_changes {step} (h : t.Changes limits step) : Documents [t] (step.stmts t) := by
  cases h with
  | keep => exact refl _
  | iterable h =>
    cases h with
    | keep => exact refl _
    | iter hnew => exact .cons _ _ (fun h => by cases h) (both (fun _ => hnew.mayBeLiteral) fun h => h)
  | unrolled h =>
    cases h with
    | keep => exact refl _
    | unroll htarget hiter hitems hliterals =>
      obtain ⟨l, literals, rfl⟩ := exists_cons_of_ne_nil (ne_nil_of_mapM hliterals hitems)
      exact .cons _ _ (fun h => by cases h) fun h => by cases h
  | discarded h => exact of_discards h

/-! ### Definitions -/

theorem of_isScope (ht : t.isScope = true) (hu : u.isScope = true) (ts us : List Stmt) :
    Documents (t :: ts) (u :: us) := by
  obtain ⟨pos, kind⟩ := t
  obtain ⟨pos', kind'⟩ := u
  cases kind with
  | functionDef | classDef =>
    cases kind' with
    | functionDef | classDef => exact .cons _ _ (fun h => by cases h) fun h => by cases h
    | _ => cases hu
  | _ => cases ht

theorem of_redefines {P : List Stmt → List Stmt → Prop} (h : t.Redefines P us) : Documents [t] us := by
  cases h with
  | function | classDef | pair => exact of_isScope rfl rfl _ _

theorem substitute (table : List (Ident × Expr)) (ts : List Stmt) : Documents ts (substituteList table ts) :=
  Stmt.related_substituteList (T := fun _ _ => True) (fun e => e.keepsText_substitute table)
    (fun _ => trivial) (refl [])
    append of_rebuilds ts

theorem visitor (n : Nat) (ctx : Context) (t : Stmt) (s : State) :
    Ensures ((visitor n).stmt t) (fun _ => True) (fun news _ => Documents [t] news) ctx s := by
  have hcongruence := Expr.congruence_keepsText
  induction n generalizing t s ctx with
  | zero => exact trivial
  | succ n ih =>
    cases ht : t.isScope with
    | false =>
      refine rebuilding.visitStmt ⟨fun e s => (hcongruence.visitor n ctx s e trivial).imp fun _ _ h => h.1,
        fun e s => Visitor.ensures_any⟩ (ih ctx) (fun p hp t s => ?_) (fun _ _ _ _ => trivial) ht
      refine (ctx.stage.changes_leaveStmt hp).imp fun step s' h => ?_
      exact (Correspondence.step_iff _).mpr (of_changes h.1)
    | true =>
      refine (Expr.congruence_any.visitDefinition (P := fun _ _ => True) (Expr.congruence_any.visitor n) trivial
        (fun _ => trivial) (fun _ _ => trivial) (fun _ _ _ _ => Visitor.ensures_any) ht fun _ _ _ => trivial).imp ?_
      rintro news s' ⟨⟨new, hheader, hnews⟩, _⟩
      exact (of_isScope ht hheader.isScope [] []).trans (of_redefines hnews)

theorem ensures_body (n : Nat) (ctx : Context) (s : State) (required : Bool) (ts : List Stmt) :
    Ensures ((Speculator.visitor n).body required ts) (fun _ => True) (fun us _ => Documents ts us) ctx s :=
  Correspondence.ensures_body rebuilding.bodies (Documents.visitor n ctx) required ts

end Stmt.Documents

/-! ### Nested definitions -/

/-- A definition is somewhere in statements. -/
inductive Stmt.Contains : List Stmt → Stmt → Prop
  | here {ts t} (h : t ∈ ts) (ht : t.isScope = true) : Contains ts t
  | block {ts block u t} (hu : u ∈ ts) (hblock : block ∈ u.blocks) (h : Contains block t) : Contains ts t
  | inside {ts u t} (hu : u ∈ ts) (h : Contains u.inside t) : Contains ts t

theorem Stmt.Contains.exists_mem {ts} (h : Contains ts t) : ∃ u ∈ ts, Contains [u] t := by
  cases h with
  | here h ht => exact ⟨t, h, .here mem_cons_self ht⟩
  | block hu hblock h => exact ⟨_, hu, .block mem_cons_self hblock h⟩
  | inside hu h => exact ⟨_, hu, .inside mem_cons_self h⟩

theorem Stmt.Contains.mono {ts us} (h : Contains ts t) (hsub : ts ⊆ us) : Contains us t := by
  cases h with
  | here h ht => exact .here (hsub h) ht
  | block hu hblock h => exact .block (hsub hu) hblock h
  | inside hu h => exact .inside (hsub hu) h

def Stmt.Inherits (P : List Stmt → List Stmt → Prop) (olds news : List Stmt) : Prop :=
  ∀ t, Contains news t → ∃ old, Contains olds old ∧ old.Redefined P t

theorem Stmt.Inherits.traces : Traces Documents (Inherits Documents) where
  refl _ t h := ⟨t, h, rfl, rfl, .refl _⟩
  trans h h' t ht := by
    obtain ⟨mid, hmid, hnew⟩ := h' t ht
    obtain ⟨old, hold, hmid⟩ := h mid hmid
    exact ⟨old, hold, hnew.pos.trans hmid.pos, hnew.definition.trans hmid.definition, hmid.inside.trans hnew.inside⟩
  mono hsub h t ht := by
    obtain ⟨old, hold, hnew⟩ := h t ht
    exact ⟨old, hold.mono hsub, hnew⟩
  each h t ht := by
    obtain ⟨u, hu, ht⟩ := ht.exists_mem
    exact h u hu t ht
  block _ hblock t ht := ⟨t, .block mem_cons_self hblock ht, rfl, rfl, .refl _⟩
  of_blocks {ts new} hnew h t ht := by
    have hscope := isScope_of_isPlain hnew
    cases ht with
    | here hmem ht =>
      rw [mem_singleton.mp hmem, hscope] at ht
      cases ht
    | block hu hblock ht =>
      rw [mem_singleton.mp hu] at hblock
      exact h _ hblock t ht
    | inside hu ht =>
      have hinside : new.inside = [] := by
        obtain ⟨pos, kind⟩ := new
        cases kind with
        | functionDef | classDef => cases hscope
        | _ => rfl
      rw [mem_singleton.mp hu, hinside] at ht
      obtain ⟨_, hmem, _⟩ := ht.exists_mem
      cases hmem
  definition {old new} hold hnew t ht := by
    cases ht with
    | here hmem =>
      obtain rfl := mem_singleton.mp hmem
      exact ⟨old, .here mem_cons_self hold, hnew.pos, hnew.definition, hnew.inside.1⟩
    | block hu hblock =>
      have hblocks : new.blocks = [] := by
        have hdefinition := hnew.definition
        obtain ⟨pos, kind⟩ := old
        obtain ⟨pos', kind'⟩ := new
        cases kind' with
        | functionDef | classDef => rfl
        | _ =>
          cases kind with
          | functionDef | classDef => cases hdefinition
          | _ => cases hold
      rw [mem_singleton.mp hu, hblocks] at hblock
      cases hblock
    | inside hu ht =>
      rw [mem_singleton.mp hu] at ht
      obtain ⟨inner, hinner, hredefined⟩ := hnew.inside.2 t ht
      exact ⟨inner, .inside mem_cons_self hinner, hredefined⟩
  insideRefl := .refl
  insideTrans := .trans
  insideSubstitute := Documents.substitute

/-! ### Modules -/

theorem Stmt.text?_of_not_isText (ht : t.isText = false) : t.text? = none := by
  unfold text?
  split
  · rename_i hkind
    simp [isText, hkind] at ht
  · rfl

theorem documentation_importSupport (body : List Stmt) :
    Stmt.documentation (importSupport body) = Stmt.documentation body := by
  cases body with
  | nil => rfl
  | cons t ts =>
    rw [importSupport]
    cases ht : t.isText with
    | true => rfl
    | false =>
      rw [if_neg Bool.false_ne_true]
      have hnone : Stmt.documentation (t :: ts) = none := Stmt.text?_of_not_isText ht
      rw [hnone]
      unfold importAfterFuture
      by_cases hfuture : t.isFutureImport = true
      · rw [takeWhile_cons_of_pos hfuture]
        exact hnone
      · rw [takeWhile_cons_of_neg hfuture]
        rfl

theorem mem_of_mem_importSupport {body} (h : t ∈ importSupport body) : t ∈ body ∨ t = supportImport := by
  have hafter : ∀ {ts}, t ∈ importAfterFuture ts → t ∈ ts ∨ t = supportImport := by
    intro ts ht
    rcases mem_append.mp ht with ht | ht
    · exact .inl ((takeWhile_sublist _).subset ht)
    · rcases mem_cons.mp ht with rfl | ht
      · exact .inr rfl
      · exact .inl ((dropWhile_suffix _).subset ht)
  cases body with
  | nil => exact hafter h
  | cons u us =>
    rw [importSupport] at h
    split at h
    · rcases mem_cons.mp h with rfl | h
      · exact .inl mem_cons_self
      · exact (hafter h).imp_left (mem_cons_of_mem _)
    · exact hafter h

theorem inherits_importSupport (body : List Stmt) : Stmt.Inherits Stmt.Documents body (importSupport body) := by
  have hC := Stmt.Inherits.traces
  refine hC.each fun t ht => ?_
  rcases mem_of_mem_importSupport ht with ht | rfl
  · exact hC.mono (by simpa using ht) (hC.refl [t])
  · exact hC.idle body rfl rfl

theorem Module.ensures_documentation (m : Module) (n : Nat) (ctx : Context) (s : State) :
    Ensures (m.visit (visitor n)) (fun _ => True) (fun new _ =>
      Stmt.KeepsDocumentation m.body new.body ∧ Stmt.Inherits Stmt.Documents m.body new.body) ctx s := by
  have hC := Stmt.Inherits.traces
  have hsame : Stmt.KeepsDocumentation m.body m.body ∧ Stmt.Inherits Stmt.Documents m.body m.body :=
    ⟨fun _ => rfl, hC.refl m.body⟩
  have hbody := fun n ctx s ts => Stmt.Documents.ensures_body n ctx s true ts
  refine Module.ensures_visit_of_body (fun _ _ => hsame) fun vars => ?_
  have hvisited :=
    (Stmt.Documents.ensures_body n ctx { s with scope := { s.scope with vars := vars } } false m.body).and
    (Correspondence.ensures_body hC.lawful (hC.visitor hbody n ctx) false m.body)
  refine hvisited.mono (fun _ _ => trivial) fun body s1 h => ?_
  split
  · refine ⟨fun hold => ?_, hC.trans h.2 (inherits_importSupport body)⟩
    exact (documentation_importSupport body).trans (h.1.keepsDocumentation hold)
  · exact ⟨h.1.keepsDocumentation, h.2⟩

/-- Optimizing a module keeps its documentation, and every definition in the result, whether it is a class or a
version of a function, has the documentation of the definition that it comes from.  Where there is none, there is one
only if the body begins with a statement that may become a text.  This does not depend on how deep the visits may go.
-/
theorem optimize_documentation (depth : Nat) (config : Config) (filename : String) (source : Option String)
    {m new : Module} (hnew : (optimizeWith (visitor depth) config filename source m).result = .ok new) :
    Stmt.KeepsDocumentation m.body new.body ∧
      ∀ t, Stmt.Contains new.body t → ∃ old, Stmt.Contains m.body old ∧ old.Redefined Stmt.KeepsDocumentation t := by
  have h := Report.of_ensures (rfl : optimizeWith (visitor depth) config filename source m = _) fun ctx s _ _ =>
    m.ensures_documentation depth ctx s
  rw [hnew] at h
  obtain ⟨_, ⟨hmodule, hdefinitions⟩, _⟩ := h
  refine ⟨hmodule, fun t ht => ?_⟩
  obtain ⟨old, hold, hredefined⟩ := hdefinitions t ht
  exact ⟨old, hold, hredefined.pos, hredefined.definition, hredefined.inside.keepsDocumentation⟩

set_option maxRecDepth 100000 in
/-- A module with documentation, and in it a function `f` with documentation that is specialized because of
`return len('abc')`.  All definitions in the result are versions of `f`. -/
theorem optimize_documentation_specialized :
    let text (s : String) : Stmt := ⟨{}, .expr ⟨{}, .const (.str s)⟩⟩
    let length : Expr := ⟨{}, .call ⟨{}, .name "len"⟩ [⟨{}, .const (.str "abc")⟩] []⟩
    let f : FunctionDef :=
      ⟨"f", ⟨["x"], none, [], [], none, []⟩, [text "function", ⟨{}, .ret (some length)⟩], [], false⟩
    let m : Module := ⟨[text "module", ⟨{}, .functionDef f⟩]⟩
    ∃ new, (optimize {} "m.py" none m).result = .ok new ∧ m.body.length < new.body.length ∧
      Stmt.documentation new.body = some "module" ∧
      ∀ t, Stmt.Contains new.body t → Stmt.documentation t.inside = some "function" := by
  intro text length f m
  have hplain : ∀ {u t : Stmt}, u.isPlain = true → u.blocks = [] → ¬ Stmt.Contains [u] t := by
    intro u t hu hblocks ht
    obtain ⟨old, hold, _⟩ := Stmt.Inherits.traces.idle [] hu hblocks t ht
    obtain ⟨_, hmem, _⟩ := hold.exists_mem
    cases hmem
  have hbody : ∀ {t : Stmt}, ¬ Stmt.Contains f.body t := by
    intro t ht
    obtain ⟨u, hu, ht⟩ := ht.exists_mem
    rcases List.mem_pair.mp hu with rfl | rfl
    · exact hplain rfl rfl ht
    · exact hplain rfl rfl ht
  have honly : ∀ {t : Stmt}, Stmt.Contains m.body t → t.inside = f.body := by
    intro t ht
    obtain ⟨u, hu, ht⟩ := ht.exists_mem
    rcases List.mem_pair.mp hu with rfl | rfl
    · exact absurd ht (hplain rfl rfl)
    · cases ht with
      | here h => rw [List.mem_singleton.mp h]; rfl
      | block hu hblock => rw [List.mem_singleton.mp hu] at hblock; cases hblock
      | inside hu ht => rw [List.mem_singleton.mp hu] at ht; exact absurd ht hbody
  have hlength : (optimize {} "m.py" none m).result.toOption.map
      (fun new => decide (m.body.length < new.body.length)) =
      some true := by decide +kernel
  obtain ⟨new, hnew, hlonger⟩ := Option.map_eq_some_iff.mp hlength
  have hnew := toOption_eq_some hnew
  obtain ⟨hmodule, hdefinitions⟩ := optimize_documentation _ {} "m.py" none hnew
  refine ⟨new, hnew, of_decide_eq_true hlonger, hmodule (.inl rfl), fun t ht => ?_⟩
  obtain ⟨old, hold, hredefined⟩ := hdefinitions t ht
  have hinside := hredefined.inside
  rw [honly hold] at hinside
  exact hinside (.inl rfl)

/-- The module `'a' + 'b'` gets documentation. -/
theorem optimize_documentation_computed :
    let a : Expr := ⟨{}, .const (.str "a")⟩
    let b : Expr := ⟨{}, .const (.str "b")⟩
    let m : Module := ⟨[⟨{}, .expr ⟨{}, .binOp a .add b⟩⟩]⟩
    let new : Module := ⟨[⟨{}, .expr ⟨{}, .const (.str "ab")⟩⟩]⟩
    (optimize {} "m.py" none m).result = .ok new ∧ Stmt.documentation m.body = none ∧
      Stmt.documentation new.body = some "ab" :=
  ⟨rfl, rfl, rfl⟩

end Speculator
