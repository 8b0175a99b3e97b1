import Speculator.Proofs.Correspondence
import Speculator.Proofs.Definitions
import Speculator.Proofs.Outcome.Statements
import Speculator.Proofs.Shapes

/-!
# What the visits make of a definition

The header of a definition is visited where it stands, and its body in a scope of its own.  A class stays one
definition.  A function is visited in up to three stages, each of which gives another body, and stays one definition
or becomes the statements of a specialized function (`Stmt.Redefines`).  Besides the two versions of the function
these have only names, constants and calls of the support module in them (`Specialize.Auxiliary`).
-/

namespace Speculator

open List Visit

variable {t : Stmt}

section Relations

variable (P : List Stmt → List Stmt → Prop)

def FunctionDef.HasVersion (fn new : FunctionDef) : Prop := ∃ body, P fn.body body ∧ new = { fn with body := body }

/-- A definition with another body, or the statements of a specialized function. -/
inductive Stmt.Redefines : Stmt → List Stmt → Prop
  | function {pos fn new} (h : fn.HasVersion P new) : Redefines ⟨pos, .functionDef fn⟩ [⟨pos, .functionDef new⟩]
  | pair {pos fn slow fast guards copied kept} (hslow : fn.HasVersion P slow) (hfast : fn.HasVersion P fast) :
      Redefines ⟨pos, .functionDef fn⟩
      (Specialize.definitions ⟨pos, .functionDef slow⟩ fast guards copied kept)
  | classDef {pos cls body} (h : P cls.body body) :
    Redefines ⟨pos, .classDef cls⟩ [⟨pos, .classDef { cls with body := body }⟩]

end Relations

theorem Stmt.RebuildsHeader.isScope {R : Expr → Expr → Prop} {new} (h : t.RebuildsHeader R new) :
    new.isScope = true := by
  cases h with
  | function | classDef => rfl

theorem Stmt.Redefines.refl {P : List Stmt → List Stmt → Prop} (hrefl : ∀ ts, P ts ts) (ht : t.isScope = true) :
    t.Redefines P [t] := by
  obtain ⟨pos, kind⟩ := t
  cases kind with
  | functionDef fn => exact .function ⟨fn.body, hrefl _, by cases fn; rfl⟩
  | classDef cls =>
    obtain ⟨name, bases, keywords, body, decorators⟩ := cls
    exact .classDef (hrefl body)
  | _ => cases ht

namespace Visitor

variable {v : Visitor} {ctx : Context} {s : State} {bad : Failure → Prop}

variable {fn : FunctionDef} {P : List Stmt → List Stmt → Prop}

theorem ensures_version {stage} {allowGuards : Bool} {scope} (h : ∀ vars,
      Ensures (v.body true fn.body) (fun _ => True) (fun body _ => P fn.body body)
      (ctx.inside s.scope stage allowGuards) (s.inside { scope with vars := vars, functions := [] })) :
    Ensures (v.functionStage stage allowGuards scope fn) (fun _ => True)
      (fun r s' => fn.HasVersion P r.1 ∧ s'.scope = s.scope) ctx s := by
  cases hvars : Variables.ofBody fn.body fn.params.names with
  | ok vars => exact ensures_functionStage_of_ok hvars ((h vars).imp fun body s' hbody => ⟨⟨body, hbody, rfl⟩, rfl⟩)
  | error cause =>
    unfold functionStage
    rw [hvars]
    exact trivial

theorem ensures_specialize {scope slow fast} :
    Ensures (Specialize.specialize scope slow fast) bad (fun ts s' => (∃ kept,
      ts = Specialize.definitions slow fast scope.guards scope.copied kept) ∧
        s'.scope.functions = s.scope.functions) ctx s :=
  Specialize.ensures_definitions fun _ => ⟨⟨_, rfl⟩, rfl⟩

theorem ensures_function_redefines (hrefl : ∀ ts, P ts ts) (htrans : ∀ {ts us vs}, P ts us → P us vs → P ts vs)
    {pos} (hstage : ∀ stage allowGuards scope version s', s'.scope = s.scope → Ensures
      (v.functionStage stage allowGuards scope version) (fun _ => True)
      (fun r s'' => version.HasVersion P r.1 ∧ s''.scope = s.scope) ctx s') :
    Ensures (v.function ⟨pos, .functionDef fn⟩ fn) (fun _ => True) (fun r s' =>
      Gives (Stmt.Redefines P ⟨pos, .functionDef fn⟩) r ∧ s'.scope.functions = s.scope.functions) ctx s := by
  have hself : fn.HasVersion P fn := ⟨fn.body, hrefl _, by cases fn; rfl⟩
  refine ensures_function_of_stages (I := fun version _ s' => fn.HasVersion P version ∧ s'.scope = s.scope) ?_
    (fun _ _ => ⟨hself, rfl⟩) (fun stage allowGuards h => ?_) ?_
    fun hslow hfast => ensures_specialize.imp fun ts s'' h => ?_
  · rintro _ ⟨log, rfl⟩
    exact ⟨⟨rfl, .function hself⟩, rfl⟩
  · refine (hstage stage allowGuards _ _ _ h.2).imp fun r s' hr => ⟨?_, hr.2⟩
    obtain ⟨body, hbody, rfl⟩ := h.1
    obtain ⟨body', hbody', heq⟩ := hr.1
    exact ⟨body', htrans hbody hbody', heq⟩
  · rintro version scope s' _ h ⟨log, rfl⟩
    exact ⟨⟨rfl, .function h.1⟩, congrArg Scope.functions h.2⟩
  · obtain ⟨⟨kept, rfl⟩, hfunctions⟩ := h
    exact ⟨.pair hslow.1 hfast.1, by rw [hfunctions, hfast.2]⟩

end Visitor

namespace Congruence

variable {R : Expr → Expr → Prop} {Good : Context → State → Prop} (hR : Congruence R Good) {v : Visitor}
  (hv : v.Relates R Good) {ctx : Context} {s : State} (hs : Good ctx s)

include hv hs in
theorem stmtHeader (ht : t.isScope = true) : Ensures (v.stmtHeader t) (fun _ => True)
    (fun new s' => t.RebuildsHeader R new ∧ Good ctx s') ctx s :=
  (logic_ensures _).stmtHeader ht (fun e _ => visits hv ctx e) hs

include hR hs

theorem enterStmt {p} (hp : p ∈ ctx.stage.passes)
    (hdefine : ∀ {fn s'}, t.kind = .functionDef fn → Good ctx s' → Good ctx { s' with scope := s'.scope.define fn }) :
    Ensures (p.enterStmt t) (fun _ => True) (fun _ s' => Good ctx s') ctx s := by
  refine (Pass.ensures_enterStmt ctx.stage hp).imp fun _ s' h => ?_
  cases h with
  | same => exact hs
  | forgets => exact hR.frame hs rfl
  | defines hkind => exact hdefine hkind hs

section Inside

variable {P : List Stmt → List Stmt → Prop} (hrefl : ∀ ts, P ts ts)
  (htrans : ∀ {ts us vs}, P ts us → P us vs → P ts vs)
  (hbody : ∀ ctx s ts, Good ctx s → Ensures (v.body true ts) (fun _ => True) (fun us _ => P ts us) ctx s)
include hrefl hbody

theorem classBody (pos : Position) (cls : ClassDef) : Ensures (v.classBody ⟨pos, .classDef cls⟩ cls) (fun _ => True)
    (fun new s' => (new.isScope = true ∧ Stmt.Redefines P ⟨pos, .classDef cls⟩ [new]) ∧ Good ctx s') ctx s := by
  refine Visitor.ensures_classBody (fun s' hs' => ?_) fun vars => ?_
  · obtain ⟨log, rfl⟩ := hs'
    exact ⟨⟨rfl, .refl hrefl rfl⟩, hR.frame hs rfl⟩
  · have hinner := hR.inside .generic false { kind := .classBody, vars := vars } hs rfl
    exact (hbody _ _ cls.body hinner).imp fun body s1 h1 => ⟨⟨rfl, .classDef h1⟩, hR.frame hs rfl⟩

include htrans

theorem stmtInside (ht : t.isScope = true) : Ensures (v.stmtInside t) (fun _ => True)
    (fun r s' => Visitor.Gives (t.Redefines P) r ∧ Good ctx s') ctx s := by
  refine Visitor.ensures_stmtInside ht ⟨⟨ht, .refl hrefl ht⟩, hs⟩ (fun _ heq => ?_) fun _ heq => ?_
  · subst heq
    refine (Visitor.ensures_function_redefines hrefl htrans fun stage allowGuards scope version s' hs' => ?_).imp
      fun r s' h => ⟨h.1, hR.frame hs h.2⟩
    rw [← hs']
    refine Visitor.ensures_version fun vars => hbody _ _ _ ?_
    exact hR.inside stage allowGuards _ (hR.frame hs (by rw [hs'])) rfl
  · subst heq
    exact hR.classBody hs hrefl hbody _ _

include hv in
theorem visitDefinition (ht : t.isScope = true)
    (hdefine : ∀ {new fn s'}, t.RebuildsHeader R new → new.kind = .functionDef fn → Good ctx s' →
      Good ctx { s' with scope := s'.scope.define fn }) :
    Ensures (v.visitStmt t) (fun _ => True)
      (fun news s' => (∃ new, t.RebuildsHeader R new ∧ new.Redefines P news) ∧ Good ctx s') ctx s := by
  refine Visitor.ensures_visitDefinition (fun _ _ _ _ => trivial) ((stmtHeader hv hs ht).imp fun new s1 h1 => ?_)
  have henter : Ensures (ctx.stage.passes.forM fun p => p.enterStmt new) (fun _ => True)
      (fun _ s' => Good ctx s') ctx s1 :=
    ensures_forM h1.2 fun p hp s' hs' => hR.enterStmt hs' hp (hdefine h1.1)
  refine henter.imp fun _ s2 h2 => (hR.stmtInside h2 hrefl htrans hbody h1.1.isScope).imp fun r s3 h3 => ?_
  cases r with
  | inl inner => exact ⟨h3.1.1, ⟨new, h1.1, h3.1.2⟩, h3.2⟩
  | inr ts => exact ⟨⟨new, h1.1, h3.1⟩, h3.2⟩

end Inside

end Congruence

/-! ### The statements of a specialized function -/

/-- The condition allows names, attributes and calls. -/
structure Shape.AdmitsCalls (sh : Shape) : Prop where
  name : ∀ id, sh.check (.name id) = true
  attr : ∀ value name, sh.check (.attr value name) = true
  call : ∀ func args keywords, sh.check (.call func args keywords) = true

/-- The statements that make a specialized function from its two versions. -/
inductive Specialize.Auxiliary (sh : Shape) : Stmt → Prop
  | assign {pos target value} (htarget : target.All sh) (hvalue : value.All sh) :
    Auxiliary sh ⟨pos, .assign [target] value⟩
  | delete {pos target} (htarget : target.All sh) : Auxiliary sh ⟨pos, .delete [target]⟩
  | expr {pos value} (hvalue : value.All sh) : Auxiliary sh ⟨pos, .expr value⟩

namespace Specialize

variable {sh : Shape} (hsh : sh.AdmitsCalls) (pos : Position)
include hsh

theorem all_name (id : Ident) : Expr.All sh ⟨pos, .name id⟩ := Expr.all_iff.mpr ⟨hsh.name id, fun c hc => by cases hc⟩

theorem all_member (id name : Ident) : (member pos id name).All sh := by
  refine Expr.all_iff.mpr ⟨hsh.attr _ _, fun c hc => ?_⟩
  rw [mem_singleton.mp hc]
  exact all_name hsh pos id

theorem all_call {func args} (hfunc : func.All sh) (hargs : ∀ arg ∈ args, arg.All sh) :
    Expr.All sh ⟨pos, .call func args []⟩ := by
  refine Expr.all_iff.mpr ⟨hsh.call _ _ _, fun c hc => ?_⟩
  simp only [Expr.parts, Expr.children, map_nil, append_nil, mem_cons] at hc
  rcases hc with rfl | hc
  · exact hfunc
  · exact hargs c hc

theorem all_supportCall (name : Ident) {args} (hargs : ∀ arg ∈ args, arg.All sh) :
    (supportCall pos name args).All sh :=
  all_call hsh pos (all_member hsh pos supportName name) hargs

theorem all_guard (g : Guard) (fat : Ident) : (g.toExpr fat pos).All sh := by
  refine all_call hsh pos (all_member hsh pos fat g.builder) fun arg harg => ?_
  have hnames : ∀ {names : List Ident}, arg ∈ names.map (fun name => ⟨pos, .const (.str name)⟩) → arg.All sh := by
    intro names hmem
    obtain ⟨name, _, rfl⟩ := mem_map.mp hmem
    exact Expr.all_const rfl
  cases g with
  | builtins | globals => exact hnames harg
  | argType position types =>
    simp only [mem_cons, not_mem_nil, or_false] at harg
    rcases harg with rfl | rfl
    · exact Expr.all_const rfl
    · refine Expr.all_iff.mpr ⟨sh.tuple _, fun c hc => ?_⟩
      obtain ⟨name, _, rfl⟩ := mem_map.mp hc
      exact all_name hsh pos name

theorem all_guards (guards : GuardSet) (fat : Ident) : (guards.toExpr fat pos).All sh := by
  refine Expr.all_iff.mpr ⟨sh.list _, fun c hc => ?_⟩
  obtain ⟨g, _, rfl⟩ := mem_map.mp hc
  exact all_guard hsh pos g fat

omit hsh in
theorem all_placeholders (copied : List (Ident × String)) : ∀ q ∈ placeholders pos copied, q.2.All sh := by
  intro q hq
  obtain ⟨p, _, rfl⟩ := mem_map.mp hq
  exact Expr.all_const rfl

theorem all_patch (copied : List (Ident × String)) : (patch pos copied).All sh := by
  refine Expr.all_iff.mpr ⟨sh.dict (by simp [placeholders]), fun c hc => ?_⟩
  rcases mem_append.mp hc with hc | hc
  · obtain ⟨q, hq, rfl⟩ := mem_map.mp hc
    exact all_placeholders pos copied q hq
  · obtain ⟨p, _, rfl⟩ := mem_map.mp hc
    exact all_name hsh pos p.1

omit pos in
theorem cases_definitions {slow fast guards copied kept} (ht : t ∈ definitions slow fast guards copied kept) :
    t = slow ∨ t = ⟨slow.pos, .functionDef
      ⟨fast.name, fast.params, Stmt.substituteList (placeholders slow.pos copied) fast.body, [], fast.isAsync⟩⟩ ∨
      Auxiliary sh t := by
  have hname := all_name hsh slow.pos
  have hcode := all_member hsh slow.pos fast.name "__code__"
  rcases mem_definitions ht with rfl | rfl | rfl | rfl | rfl | rfl | rfl
  · exact .inl rfl
  · exact .inr (.inr (.assign (hname _) (hname _)))
  · exact .inr (.inl rfl)
  · refine .inr (.inr (.assign hcode (all_supportCall hsh _ _ ?_)))
    simp only [mem_cons, not_mem_nil, or_false, forall_eq_or_imp, forall_eq]
    exact ⟨hcode, all_patch hsh _ copied⟩
  · refine .inr (.inr (.expr (all_supportCall hsh _ _ ?_)))
    simp only [mem_cons, not_mem_nil, or_false, forall_eq_or_imp, forall_eq]
    exact ⟨hname kept, hcode, all_guards hsh _ guards supportName⟩
  · exact .inr (.inr (.assign (hname _) (hname _)))
  · exact .inr (.inr (.delete (hname _)))

end Specialize

end Speculator
