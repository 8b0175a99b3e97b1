import Speculator.Proofs.Statements
import Speculator.Proofs.Stores

/-!
# Visits of the parts of expressions

An expression is visited by visiting its parts, one after the other, and putting the results together.  So the visits
make of it an expression of the same kind with parts that are related to its own ones (`Expr.Rebuilds`), if the visits
of the parts give what is related to them.  This does not depend on how the visits are described (`Visit.Logic`): a
description may be about one visitor, or about all visitors of a family.
-/

namespace Speculator

open List Visit

variable {gs : List Generator} {c e : Expr} {α : Type} {t : Stmt}

/-! ### The parts in a scope -/

def Generator.insideParts : List Generator → List Expr
  | [] => []
  | g :: gs => g.target :: (g.conditions ++ gs.flatMap Generator.parts)

def Expr.insideParts (e : Expr) : List Expr :=
  match e.kind with
  | .lambda _ body => [body]
  | .listComp item gens | .setComp item gens | .generatorExp item gens => Generator.insideParts gens ++ [item]
  | .dictComp key value gens => Generator.insideParts gens ++ [key, value]
  | _ => []

/-- The parts of an expression that are evaluated outside of the scope that it opens. -/
def Expr.outsideParts (e : Expr) : List Expr :=
  match e.kind with
  | .lambda params _ => params.parts
  | .listComp _ gens | .setComp _ gens | .generatorExp _ gens | .dictComp _ _ gens => (gens.take 1).map Generator.iter
  | _ => []

theorem Generator.mem_parts_of_inside (hc : c ∈ Generator.insideParts gs) :
    c ∈ gs.flatMap Generator.parts := by
  cases gs with
  | nil => exact hc
  | cons g gs =>
    simp only [Generator.insideParts, mem_cons, mem_append] at hc
    simp only [flatMap_cons, Generator.parts, cons_append, mem_cons, mem_append]
    exact hc.imp_right .inr

theorem Generator.mem_parts_of_first (hc : c ∈ (gs.take 1).map Generator.iter) :
    c ∈ gs.flatMap Generator.parts := by
  obtain ⟨g, hg, rfl⟩ := mem_map.mp hc
  exact mem_flatMap.mpr ⟨g, mem_of_mem_take hg, by simp [Generator.parts]⟩

theorem Expr.mem_parts_of_inside (hc : c ∈ e.insideParts) : c ∈ e.parts := by
  obtain ⟨pos, kind⟩ := e
  cases kind with
  | lambda => exact mem_append_right _ hc
  | listComp | setComp | generatorExp | dictComp =>
    exact mem_append.mpr ((mem_append.mp hc).imp_left Generator.mem_parts_of_inside)
  | _ => cases hc

theorem Expr.mem_parts_of_outside (hc : c ∈ e.outsideParts) : c ∈ e.parts := by
  obtain ⟨pos, kind⟩ := e
  cases kind with
  | lambda => exact mem_append_left _ hc
  | listComp | setComp | generatorExp | dictComp => exact mem_append_left _ (Generator.mem_parts_of_first hc)
  | _ => cases hc

/-! ### Descriptions of visits -/

/-- A way to describe the visits of a family by what holds of their results and of the states after them, put together
from descriptions of their steps. -/
structure Visit.Logic {I : Type} (E : ∀ {α : Type}, (I → Visit α) → (α → State → Prop) → Context → State → Prop) :
    Prop where
  pure : ∀ {α : Type} {a : α} {post : α → State → Prop} {ctx s}, post a s → E (fun _ => Pure.pure a) post ctx s
  bind : ∀ {α β : Type} {x : I → Visit α} {f : I → α → Visit β} {post : α → State → Prop} {post' : β → State → Prop}
    {ctx s}, E x post ctx s → (∀ a s', post a s' → E (fun i => f i a) post' ctx s') →
    E (fun i => x i >>= f i) post' ctx s
  ofEnsures : ∀ {α : Type} {x : Visit α} {post : α → State → Prop} {ctx s}, Ensures x (fun _ => False) post ctx s →
    E (fun _ => x) post ctx s
  inScope : ∀ {α : Type} {x : I → Visit α} {scope stage allowGuards} {post : α × Scope → State → Prop} {ctx s},
    E x (fun a s' => post (a, s'.scope) { s' with scope := s.scope, known := s.known })
      (ctx.inside s.scope stage allowGuards) (s.inside scope) →
    E (fun i => Visit.inScope scope stage allowGuards (x i)) post ctx s

theorem Visit.logic_ensures (bad : Failure → Prop) :
    Visit.Logic (I := Unit) fun x post ctx s => Ensures (x ()) bad post ctx s where
  pure h := .pure h
  bind h hf := h.bind hf
  ofEnsures h := h.mono (fun _ h => h.elim) fun _ _ h => h
  inScope h := ensures_inScope.mpr h

namespace Visit.Logic

attribute [local simp] Stmt.blocks Stmt.exprs

variable {I : Type} {E : ∀ {α : Type}, (I → Visit α) → (α → State → Prop) → Context → State → Prop}

/-- The visits of the expression give what is related to it, and keep what is known of the state. -/
def Visits (E : ∀ {α : Type}, (I → Visit α) → (α → State → Prop) → Context → State → Prop) (w : I → Visitor)
    (R : Expr → Expr → Prop) (inv : State → Prop) (ctx : Context) (e : Expr) : Prop :=
  ∀ s, inv s → E (fun i => (w i).expr e) (fun new s' => R e new ∧ inv s') ctx s

/-- The same in the scopes that expressions open.  What is known of the state around a scope is known again after
it. -/
def VisitsNested (E : ∀ {α : Type}, (I → Visit α) → (α → State → Prop) → Context → State → Prop) (w : I → Visitor)
    (R : Expr → Expr → Prop) (P : Expr → Prop) (inv : State → Prop) (ctx : Context) (s : State) : Prop :=
  ∀ kind vars, kind ≠ .function → ∃ nested : State → Prop,
    nested (s.inside { kind := kind, vars := vars }) ∧
    (∀ s', nested s' → inv { s' with scope := s.scope, known := s.known }) ∧
    ∀ e, P e → Visits E w R nested (ctx.inside s.scope .generic false) e

variable (hE : Visit.Logic E) {w : I → Visitor} {R T : Expr → Expr → Prop} {inv : State → Prop} {ctx : Context}
  {s : State} {post : α → State → Prop}

include hE

theorem imp {x : I → Visit α} {post' : α → State → Prop} (h : E x post ctx s)
    (hpost : ∀ a s', post a s' → post' a s') : E x post' ctx s := by
  have hbind := hE.bind (f := fun _ => Pure.pure) h fun a s' ha => hE.pure (hpost a s' ha)
  simpa only [bind_pure] using hbind

theorem read_bind {f : I → Context → Visit α} (h : E (fun i => f i ctx) post ctx s) :
    E (fun i => read >>= f i) post ctx s := by
  have hread : Ensures (read : Visit Context) (fun _ => False) (fun c s' => c = ctx ∧ s' = s) ctx s := ⟨rfl, rfl⟩
  refine hE.bind (hE.ofEnsures hread) fun c s' hc => ?_
  rw [hc.1, hc.2]
  exact h

theorem mapM {β : Type} {f : I → α → Visit β} {Q : α → β → Prop} {as : List α} (hs : inv s)
    (h : ∀ a ∈ as, ∀ s', inv s' → E (fun i => f i a) (fun b s'' => Q a b ∧ inv s'') ctx s') :
    E (fun i => as.mapM (f i)) (fun bs s' => Forall₂ Q as bs ∧ inv s') ctx s := by
  induction as generalizing s with
  | nil => exact hE.pure ⟨.nil, hs⟩
  | cons a as ih =>
    simp only [mapM_cons]
    refine hE.bind (h a mem_cons_self s hs) fun b s1 h1 => ?_
    refine hE.bind (ih h1.2 fun a' ha' => h a' (mem_cons_of_mem _ ha')) fun bs s2 h2 => ?_
    exact hE.pure ⟨.cons h1.1 h2.1, h2.2⟩

/-! ### Expressions in one scope -/

theorem exprs {es} (h : ∀ e ∈ es, Visits E w R inv ctx e) (hs : inv s) :
    E (fun i => es.mapM (w i).expr) (fun news s' => Forall₂ R es news ∧ inv s') ctx s := hE.mapM hs h

theorem option {o} (h : ∀ e ∈ o.toList, Visits E w R inv ctx e) (hs : inv s) :
    E (fun i => (w i).option o) (fun new s' => Option.Rel R o new ∧ inv s') ctx s := by
  cases o with
  | none => exact hE.pure ⟨.none, hs⟩
  | some e => exact hE.bind (h e (by simp) s hs) fun new s1 h1 => hE.pure ⟨.some h1.1, h1.2⟩

theorem keywords {ks} (h : ∀ e ∈ ks.map Keyword.value, Visits E w R inv ctx e) (hs : inv s) :
    E (fun i => ks.mapM (w i).keyword) (fun news s' => Forall₂ (Keyword.Rebuilds R) ks news ∧ inv s') ctx s := by
  refine hE.mapM hs fun k hk s' hs' => ?_
  exact hE.bind (h k.value (mem_map_of_mem hk) s' hs') fun new s1 h1 => hE.pure ⟨⟨rfl, h1.1⟩, h1.2⟩

theorem params {p} (h : ∀ e ∈ p.parts, Visits E w R inv ctx e) (hs : inv s) :
    E (fun i => (w i).params p) (fun new s' => p.Rebuilds R new ∧ inv s') ctx s := by
  refine hE.bind (hE.exprs (fun e he => h e (mem_append_left _ he)) hs) fun defaults s1 h1 => ?_
  have hoptions : ∀ o ∈ p.kwDefaults, ∀ s', inv s' →
      E (fun i => (w i).option o) (fun new s'' => Option.Rel R o new ∧ inv s'') ctx s' := fun o ho s' hs' =>
    hE.option (fun e he => h e (mem_append_right _ (mem_flatMap.mpr ⟨o, ho, he⟩))) hs'
  exact hE.bind (hE.mapM h1.2 hoptions) fun kwDefaults s2 h2 => hE.pure ⟨⟨rfl, h1.1, h2.1⟩, h2.2⟩

theorem stmtHeader (ht : t.isScope = true) (h : ∀ e ∈ t.exprs, Visits E w R inv ctx e) (hs : inv s) :
    E (fun i => (w i).stmtHeader t) (fun new s' => t.RebuildsHeader R new ∧ inv s') ctx s := by
  obtain ⟨pos, kind⟩ := t
  unfold Visitor.stmtHeader
  cases kind with
  | functionDef fn =>
    obtain ⟨name, params, body, decorators, isAsync⟩ := fn
    refine hE.bind (hE.exprs (fun e he => h e (mem_append_left _ he)) hs) fun _ _ h1 => ?_
    refine hE.bind (hE.params (fun e he => h e (mem_append_right _ he)) h1.2) fun _ _ h2 => ?_
    exact hE.pure ⟨.function h1.1 h2.1, h2.2⟩
  | classDef cls =>
    obtain ⟨name, bases, keywords, body, decorators⟩ := cls
    refine hE.bind (hE.exprs (fun e he => h e (by simp [he])) hs) fun _ _ h1 => ?_
    refine hE.bind (hE.exprs (fun e he => h e (by simp [he])) h1.2) fun _ _ h2 => ?_
    refine hE.bind (hE.keywords (fun e he => h e (mem_append_right _ he)) h2.2) fun _ _ h3 => ?_
    exact hE.pure ⟨.classDef h1.1 h2.1 h3.1, h3.2⟩
  | _ => cases ht

theorem exprChildren (he : e.isScope = false) (h : ∀ c ∈ e.children, Visits E w R inv ctx c) (hs : inv s) :
    E (fun i => (w i).exprChildren e) (fun new s' => e.Rebuilds R new ∧ inv s') ctx s := by
  obtain ⟨pos, kind⟩ := e
  -- the visit of one part, and what is left to do
  have hpart : ∀ {c} {f : I → Expr → Visit Expr} {post : Expr → State → Prop} {s},
      c ∈ Expr.children ⟨pos, kind⟩ → inv s →
      (∀ new s', R c new → inv s' → E (fun i => f i new) post ctx s') →
        E (fun i => (w i).expr c >>= f i) post ctx s :=
    fun hc hs hf => hE.bind (h _ hc _ hs) fun new s' h' => hf new s' h'.1 h'.2
  have hparts : ∀ {es} {f : I → List Expr → Visit Expr} {post : Expr → State → Prop} {s},
      (∀ c ∈ es, c ∈ Expr.children ⟨pos, kind⟩) → inv s →
      (∀ news s', Forall₂ R es news → inv s' → E (fun i => f i news) post ctx s') →
      E (fun i => es.mapM (w i).expr >>= f i) post ctx s :=
    fun hes hs hf => hE.bind (hE.exprs (fun c hc => h c (hes c hc)) hs) fun news s' h' => hf news s' h'.1 h'.2
  have hoption : ∀ {o} {f : I → Option Expr → Visit Expr} {post : Expr → State → Prop} {s},
      (∀ c ∈ o.toList, c ∈ Expr.children ⟨pos, kind⟩) → inv s →
      (∀ new s', Option.Rel R o new → inv s' → E (fun i => f i new) post ctx s') →
      E (fun i => (w i).option o >>= f i) post ctx s :=
    fun ho hs hf => hE.bind (hE.option (fun c hc => h c (ho c hc)) hs) fun new s' h' => hf new s' h'.1 h'.2
  unfold Visitor.exprChildren
  cases kind with
  | const => exact hE.pure ⟨.const, hs⟩
  | name => exact hE.pure ⟨.name, hs⟩
  | lambda | listComp | setComp | generatorExp | dictComp => cases he
  | boolOp | set | list | tuple =>
    exact hparts (fun _ hc => hc) hs fun _ _ h1 hs1 => hE.pure ⟨by constructor; exact h1, hs1⟩
  | unaryOp | await | yieldFrom | starred | attr =>
    exact hpart mem_cons_self hs fun _ _ h1 hs1 => hE.pure ⟨by constructor; exact h1, hs1⟩
  | yield => exact hoption (fun _ hc => hc) hs fun _ _ h1 hs1 => hE.pure ⟨.yield h1, hs1⟩
  | binOp | subscript =>
    refine hpart (by simp [Expr.children]) hs fun _ _ h1 hs1 => ?_
    exact hpart (by simp [Expr.children]) hs1 fun _ _ h2 hs2 => hE.pure ⟨by constructor <;> assumption, hs2⟩
  | ifExp =>
    refine hpart (by simp [Expr.children]) hs fun _ _ h1 hs1 => ?_
    refine hpart (by simp [Expr.children]) hs1 fun _ _ h2 hs2 => ?_
    exact hpart (by simp [Expr.children]) hs2 fun _ _ h3 hs3 => hE.pure ⟨.ifExp h1 h2 h3, hs3⟩
  | dict =>
    refine hparts (fun _ hc => mem_append_left _ hc) hs fun _ _ h1 hs1 => ?_
    exact hparts (fun _ hc => mem_append_right _ hc) hs1 fun _ _ h2 hs2 => hE.pure ⟨.dict h1 h2, hs2⟩
  | compare =>
    refine hpart mem_cons_self hs fun _ _ h1 hs1 => ?_
    exact hparts (fun _ hc => mem_cons_of_mem _ hc) hs1 fun _ _ h2 hs2 => hE.pure ⟨.compare h1 h2, hs2⟩
  | call func args keywords =>
    refine hpart mem_cons_self hs fun _ _ h1 hs1 => ?_
    refine hparts (fun _ hc => mem_cons_of_mem _ (mem_append_left _ hc)) hs1 fun _ _ h2 hs2 => ?_
    have hkeywords := hE.keywords (fun c hc => h c (mem_cons_of_mem _ (mem_append_right _ hc))) hs2
    exact hE.bind hkeywords fun _ _ h3 => hE.pure ⟨.call h1 h2 h3.1, h3.2⟩
  | slice =>
    refine hoption (fun _ hc => mem_append_left _ hc) hs fun _ _ h1 hs1 => ?_
    refine hoption (fun _ hc => mem_append_right _ (mem_append_left _ hc)) hs1 fun _ _ h2 hs2 => ?_
    exact hoption (fun _ hc => mem_append_right _ (mem_append_right _ hc)) hs2 fun _ _ h3 hs3 =>
      hE.pure ⟨.slice h1 h2 h3, hs3⟩

/-! ### Targets -/

theorem base (h : Visits E w R inv ctx e) (hs : inv s) :
    E (fun i => (w i).base e) (fun new s' => (new = e ∨ e.name? = none ∧ R e new) ∧ inv s') ctx s := by
  obtain ⟨pos, kind⟩ := e
  cases kind with
  | name id => exact hE.pure ⟨.inl rfl, hs⟩
  | _ => exact hE.imp (h s hs) fun new s' h' => ⟨.inr ⟨rfl, h'.1⟩, h'.2⟩

theorem targets_of_forall {es} (hs : inv s)
    (h : ∀ e ∈ es, ∀ s, inv s → E (fun i => (w i).target e) (fun new s' => T e new ∧ inv s') ctx s) :
    E (fun i => (w i).targets es) (fun news s' => Forall₂ T es news ∧ inv s') ctx s := by
  induction es generalizing s with
  | nil => exact hE.pure ⟨.nil, hs⟩
  | cons e es ih =>
    refine hE.bind (h e mem_cons_self s hs) fun new s1 h1 => ?_
    refine hE.bind (ih h1.2 fun e' he' => h e' (mem_cons_of_mem _ he')) fun news s2 h2 => ?_
    exact hE.pure ⟨.cons h1.1 h2.1, h2.2⟩

variable {P : Expr → Prop} (hP : ∀ e, P e → ∀ c ∈ e.parts, P c)
include hP

theorem target (hT : Expr.TargetRules R T) (hv : ∀ e, P e → Visits E w R inv ctx e) (he : P e) (hs : inv s) :
    E (fun i => (w i).target e) (fun new s' => T e new ∧ inv s') ctx s := by
  induction e using Expr.induction_parts generalizing s with
  | _ e ih =>
    have hparts := hP e he
    obtain ⟨pos, kind⟩ := e
    cases kind with
    | name id =>
      simp only [Visitor.target]
      exact hE.pure ⟨hT.name, hs⟩
    | tuple items | list items =>
      simp only [Visitor.target]
      refine hE.bind (hE.targets_of_forall hs fun c hc s hs => ih c hc (hparts c hc) hs) fun news s1 h1 => ?_
      first | exact hE.pure ⟨hT.tuple h1.1, h1.2⟩ | exact hE.pure ⟨hT.list h1.1, h1.2⟩
    | starred value =>
      simp only [Visitor.target]
      have hvalue : value ∈ Expr.parts ⟨pos, .starred value⟩ := mem_cons_self
      exact hE.bind (ih value hvalue (hparts value hvalue) hs) fun new s1 h1 => hE.pure ⟨hT.starred h1.1, h1.2⟩
    | attr value name =>
      simp only [Visitor.target]
      refine hE.bind (hE.base (hv value (hparts value mem_cons_self)) hs) fun new s1 h1 => ?_
      exact hE.pure ⟨hT.attr h1.1, h1.2⟩
    | subscript value slice =>
      simp only [Visitor.target]
      have hslice : slice ∈ Expr.parts ⟨pos, .subscript value slice⟩ := mem_cons_of_mem _ mem_cons_self
      refine hE.bind (hE.base (hv value (hparts value mem_cons_self)) hs) fun new s1 h1 => ?_
      refine hE.bind (hv slice (hparts slice hslice) s1 h1.2) fun new' s2 h2 => ?_
      exact hE.pure ⟨hT.subscript h1.1 h2.1, h2.2⟩
    | _ =>
      simp only [Visitor.target]
      exact hE.imp (hv _ he s hs) fun new s1 h1 => ⟨hT.other rfl h1.1, h1.2⟩

/-! ### Statements -/

section Statements

variable {B : List Stmt → List Stmt → Prop} (henter : ∀ s, inv s → inv { s with known := s.known.enterCond })
  (hleave : ∀ s wasConditional, inv s → inv { s with known := s.known.leaveCond wasConditional })

omit hP
include henter hleave

theorem conditionally {x : I → Visit α} {Q : α → Prop} (hs : inv s)
    (h : ∀ s, inv s → E x (fun a s' => Q a ∧ inv s') ctx s) :
    E (fun i => Visit.conditionally (x i)) (fun a s' => Q a ∧ inv s') ctx s := by
  have hget : Ensures (get : Visit State) (fun _ => False) (fun now s' => now = s ∧ s' = s) ctx s := ⟨rfl, rfl⟩
  refine hE.bind (hE.ofEnsures hget) fun now s1 h1 => ?_
  obtain ⟨rfl, rfl⟩ := h1
  have hmodify : ∀ {f : Namespace → Namespace} {s}, inv { s with known := f s.known } →
      E (fun _ => Visit.modifyKnown f) (fun _ s' => inv s') ctx s := fun h => hE.ofEnsures (ensures_modifyKnown.mpr h)
  refine hE.bind (hmodify (henter s1 hs)) fun _ s2 h2 => ?_
  refine hE.bind (h s2 h2) fun a s3 h3 => ?_
  exact hE.bind (hmodify (hleave s3 _ h3.2)) fun _ s4 h4 => hE.pure ⟨h3.1, h4⟩

theorem stmtChildren (hexpr : ∀ e ∈ t.exprs, Visits E w R inv ctx e)
    (htarget : ∀ e ∈ t.exprs, ∀ s, inv s → E (fun i => (w i).target e) (fun new s' => T e new ∧ inv s') ctx s)
    (hbody : ∀ required, ∀ ts ∈ t.blocks, ∀ s, inv s →
      E (fun i => (w i).body required ts) (fun new s' => B ts new ∧ inv s') ctx s) (hs : inv s) :
    E (fun i => (w i).stmtChildren t) (fun new s' => t.Rebuilds R T B new ∧ inv s') ctx s := by
  have htargets : ∀ {es s}, (∀ e ∈ es, e ∈ t.exprs) → inv s →
      E (fun i => (w i).targets es) (fun news s' => Forall₂ T es news ∧ inv s') ctx s := fun hes hs =>
    hE.targets_of_forall hs fun e he => htarget e (hes e he)
  have hoption : ∀ {o s}, (∀ e ∈ o.toList, e ∈ t.exprs) → inv s →
      E (fun i => (w i).option o) (fun new s' => Option.Rel R o new ∧ inv s') ctx s := fun ho hs =>
    hE.option (fun e he => hexpr e (ho e he)) hs
  have hconditional : ∀ {required : Bool} {ts s}, ts ∈ t.blocks → inv s →
      E (fun i => Visit.conditionally ((w i).body required ts)) (fun new s' => B ts new ∧ inv s') ctx s :=
        fun hts hs =>
    hE.conditionally henter hleave hs (hbody _ _ hts)
  obtain ⟨pos, kind⟩ := t
  unfold Visitor.stmtChildren
  cases kind with
  | ret value => exact hE.bind (hoption (fun _ he => he) hs) fun _ _ h1 => hE.pure ⟨.ret h1.1, h1.2⟩
  | delete targets => exact hE.bind (htargets (fun _ he => he) hs) fun _ _ h1 => hE.pure ⟨.delete h1.1, h1.2⟩
  | assign targets value =>
    refine hE.bind (hexpr value (by simp) s hs) fun _ _ h1 => ?_
    refine hE.bind (htargets (fun _ he => mem_append_left _ he) h1.2) fun _ _ h2 => ?_
    exact hE.pure ⟨.assign h2.1 h1.1, h2.2⟩
  | augAssign target op value =>
    refine hE.bind (htarget target (by simp) s hs) fun _ s1 h1 => ?_
    refine hE.bind (hexpr value (by simp) s1 h1.2) fun _ _ h2 => hE.pure ⟨.augAssign h1.1 h2.1, h2.2⟩
  | forLoop target iter body orelse =>
    refine hE.bind (hexpr iter (by simp) s hs) fun _ _ h1 => ?_
    refine hE.conditionally henter hleave h1.2 fun s hs => ?_
    refine hE.bind (htarget target (by simp) s hs) fun _ s2 h2 => ?_
    refine hE.bind (hbody true body (by simp) s2 h2.2) fun _ s3 h3 => ?_
    refine hE.bind (hbody false orelse (by simp) s3 h3.2) fun _ _ h4 => ?_
    exact hE.pure ⟨.forLoop h2.1 h1.1 h3.1 h4.1, h4.2⟩
  | whileLoop test body orelse =>
    refine hE.conditionally henter hleave hs fun s hs => ?_
    refine hE.bind (hexpr test (by simp) s hs) fun _ s1 h1 => ?_
    refine hE.bind (hbody true body (by simp) s1 h1.2) fun _ s2 h2 => ?_
    refine hE.bind (hbody false orelse (by simp) s2 h2.2) fun _ _ h3 => ?_
    exact hE.pure ⟨.whileLoop h1.1 h2.1 h3.1, h3.2⟩
  | cond test body orelse =>
    refine hE.bind (hexpr test (by simp) s hs) fun _ _ h1 => ?_
    refine hE.bind (hconditional (by simp) h1.2) fun _ _ h2 => ?_
    refine hE.bind (hconditional (by simp) h2.2) fun _ _ h3 => hE.pure ⟨.cond h1.1 h2.1 h3.1, h3.2⟩
  | withBlock items body isAsync =>
    refine hE.bind (hE.mapM (Q := WithItem.Rebuilds R T) hs fun item hitem s hs => ?_) fun _ _ h1 => ?_
    · have hparts : ∀ e ∈ item.context :: item.target.toList, e ∈ Stmt.exprs ⟨pos, .withBlock items body isAsync⟩ :=
        fun e he => mem_flatMap.mpr ⟨item, hitem, he⟩
      refine hE.bind (hexpr item.context (hparts _ mem_cons_self) s hs) fun _ s1 h1 => ?_
      obtain ⟨context, target⟩ := item
      cases target with
      | none => exact hE.pure ⟨⟨h1.1, .none⟩, h1.2⟩
      | some target =>
        have htarget : E (fun i => some <$> (w i).target target)
            (fun new s' => Option.Rel T (some target) new ∧ inv s')
            ctx s1 :=
          hE.bind (htarget target (hparts _ (by simp)) s1 h1.2) fun _ _ h2 => hE.pure ⟨.some h2.1, h2.2⟩
        exact hE.bind htarget fun _ _ h2 => hE.pure ⟨⟨h1.1, h2.1⟩, h2.2⟩
    · exact hE.bind (hconditional (by simp) h1.2) fun _ _ h2 => hE.pure ⟨.withBlock h1.1 h2.1, h2.2⟩
  | raise exc cause =>
    refine hE.bind (hoption (fun _ he => mem_append_left _ he) hs) fun _ _ h1 => ?_
    refine hE.bind (hoption (fun _ he => mem_append_right _ he) h1.2) fun _ _ h2 => ?_
    exact hE.pure ⟨.raise h1.1 h2.1, h2.2⟩
  | tryBlock body handlers orelse final =>
    have hprotected : ∀ s, inv s → E (fun i => do
        let body ← (w i).body true body
        let handlers ← handlers.mapM (w i).handler
        return (body, handlers, ← (w i).body false orelse)) (fun r s' => (B body r.1 ∧
          Forall₂ (Handler.Rebuilds R B) handlers r.2.1 ∧ B orelse r.2.2) ∧ inv s') ctx s := by
      intro s hs
      refine hE.bind (hbody true body (by simp) s hs) fun _ _ h1 => ?_
      refine hE.bind (hE.mapM (Q := Handler.Rebuilds R B) h1.2 fun h hh s hs => ?_) fun _ s2 h2 => ?_
      · have hblock : h.body ∈ Stmt.blocks ⟨pos, .tryBlock body handlers orelse final⟩ :=
          mem_append_left _ (mem_cons_of_mem _ (mem_map_of_mem hh))
        refine hE.bind (hoption (fun e he => mem_flatMap.mpr ⟨h, hh, he⟩) hs) fun _ s1 h1 => ?_
        exact hE.bind (hbody true h.body hblock s1 h1.2) fun _ _ h2 => hE.pure ⟨⟨rfl, rfl, h1.1, h2.1⟩, h2.2⟩
      · refine hE.bind (hbody false orelse (by simp) s2 h2.2) fun _ _ h3 => ?_
        exact hE.pure ⟨⟨h1.1, h2.1, h3.1⟩, h3.2⟩
    refine hE.bind (hE.conditionally henter hleave hs hprotected) fun _ s1 h1 => ?_
    refine hE.bind (hbody true final (by simp) s1 h1.2) fun _ _ h2 => ?_
    exact hE.pure ⟨.tryBlock h1.1.1 h1.1.2.1 h1.1.2.2 h2.1, h2.2⟩
  | expr value =>
    exact hE.bind (hexpr value (by simp) s hs) fun _ _ h1 => hE.pure ⟨.expr h1.1, h1.2⟩
  | functionDef | classDef | importModules | importFrom | globals | nonlocals | pass | brk | cont =>
    exact hE.pure ⟨.same _, hs⟩

end Statements

/-! ### Expressions that open a scope -/

omit hP in
theorem exprHeader (hrefl : ∀ e, R e e) (h : ∀ c ∈ e.outsideParts, Visits E w R inv ctx c) (hs : inv s) :
    E (fun i => (w i).exprHeader e) (fun new s' => (e.Rebuilds R new ∧ new.insideParts = e.insideParts) ∧ inv s')
      ctx s := by
  have hfirst : ∀ {gs}, (∀ c ∈ (gs.take 1).map Generator.iter, Visits E w R inv ctx c) →
      E (fun i => (w i).firstIter gs) (fun news s' => (Forall₂ (Generator.Rebuilds R) gs news ∧
        Generator.insideParts news = Generator.insideParts gs) ∧ inv s') ctx s := by
    intro gs hgs
    cases gs with
    | nil => exact hE.pure ⟨⟨.nil, rfl⟩, hs⟩
    | cons g gs =>
      refine hE.bind (hgs g.iter (by simp) s hs) fun iter s1 h1 => hE.pure ⟨⟨.cons ?_ ?_, rfl⟩, h1.2⟩
      · exact ⟨hrefl _, h1.1, forall₂_refl hrefl _, rfl⟩
      · exact forall₂_refl (Generator.rebuilds_refl hrefl) gs
  obtain ⟨pos, kind⟩ := e
  unfold Visitor.exprHeader
  cases kind with
  | lambda params body =>
    exact hE.bind (hE.params h hs) fun new s1 h1 => hE.pure ⟨⟨.lambda h1.1 (hrefl body), rfl⟩, h1.2⟩
  | listComp item gens | setComp item gens | generatorExp item gens =>
    refine hE.bind (hfirst h) fun new s1 h1 => hE.pure ⟨⟨?_, congrArg (· ++ [item]) h1.1.2⟩, h1.2⟩
    constructor
    · exact hrefl item
    · exact h1.1.1
  | dictComp key value gens =>
    refine hE.bind (hfirst h) fun new s1 h1 => hE.pure ⟨⟨.dictComp (hrefl key) (hrefl value) h1.1.1, ?_⟩, h1.2⟩
    exact congrArg (· ++ [key, value]) h1.1.2
  | _ => exact hE.pure ⟨⟨Expr.rebuilds_refl hrefl _, rfl⟩, hs⟩

variable (hrefl : ∀ e, R e e) (hrebuilt : ∀ {e new}, e.Rebuilds R new → R e new)
include hrefl hrebuilt

theorem generators (hv : ∀ e, P e → Visits E w R inv ctx e) (hgs : ∀ c ∈ Generator.insideParts gs, P c) (hs : inv s) :
    E (fun i => (w i).generators gs) (fun news s' => Forall₂ (Generator.Rebuilds R) gs news ∧ inv s') ctx s := by
  have hgenerator : ∀ (isFirst : Bool) (g : Generator), P g.target → (isFirst = false → P g.iter) →
      (∀ c ∈ g.conditions, P c) → ∀ s, inv s →
      E (fun i => (w i).generator isFirst g) (fun new s' => g.Rebuilds R new ∧ inv s') ctx s := by
    intro isFirst g htarget hiter hconditions s hs
    unfold Visitor.generator
    refine hE.bind (hE.target hP (.of_rebuilds hrefl hrebuilt) hv htarget hs) fun target s1 h1 => ?_
    have hrest : ∀ {iter s2}, R g.iter iter → inv s2 → E (fun i => do
        return { g with target := target, iter := iter, conditions := ← g.conditions.mapM (w i).expr })
        (fun new s' => g.Rebuilds R new ∧ inv s') ctx s2 := fun hiter hs2 =>
      hE.bind (hE.exprs (fun c hc => hv c (hconditions c hc)) hs2) fun conditions s3 h3 =>
        hE.pure ⟨⟨h1.1, hiter, h3.1, rfl⟩, h3.2⟩
    cases isFirst with
    | true => exact hrest (hrefl _) h1.2
    | false => exact hE.bind (hv g.iter (hiter rfl) s1 h1.2) fun iter s2 h2 => hrest h2.1 h2.2
  cases gs with
  | nil => exact hE.pure ⟨.nil, hs⟩
  | cons g gs =>
    simp only [Generator.insideParts, forall_mem_cons, forall_mem_append] at hgs
    obtain ⟨htarget, hconditions, hrest⟩ := hgs
    refine hE.bind (hgenerator true g htarget (fun h => by cases h) hconditions s hs) fun new s1 h1 => ?_
    have hpart : ∀ g ∈ gs, ∀ c ∈ g.parts, P c := fun g hg c hc => hrest c (mem_flatMap.mpr ⟨g, hg, hc⟩)
    refine hE.bind (hE.mapM h1.2 fun g hg s' hs' => ?_) fun news s2 h2 => hE.pure ⟨.cons h1.1 h2.1, h2.2⟩
    refine hgenerator false g ?_ (fun _ => ?_) (fun c hc => ?_) s' hs'
    · exact hpart g hg _ mem_cons_self
    · exact hpart g hg _ (mem_cons_of_mem _ mem_cons_self)
    · exact hpart g hg c (mem_cons_of_mem _ (mem_cons_of_mem _ hc))

variable (hlogs : ∀ s s', inv s → s.Logs s' → inv s') (hnested : ∀ s, inv s → VisitsNested E w R P inv ctx s)
include hlogs hnested

theorem exprScope (he : ∀ c ∈ e.insideParts, P c) (hs : inv s) :
    E (fun i => (w i).exprScope e) (fun new s' => e.Rebuilds R new ∧ inv s') ctx s := by
  have hinside : ∀ {α : Type} {x : I → Visit α} {Q : α → Prop} {kind vars s},
      kind ≠ .function → inv s → (∀ (inv' : State → Prop) (ctx' : Context) (s' : State), inv' s' →
        (∀ e, P e → Visits E w R inv' ctx' e) → E x (fun a s'' => Q a ∧ inv' s'') ctx' s') →
      E (fun i => Visitor.inside kind vars (x i)) (fun a s' => Q a ∧ inv s') ctx s := by
    intro α x Q kind vars s hkind hs hx
    obtain ⟨inv', hs', hback, hv⟩ := hnested s hs kind vars hkind
    have hscope : E (fun i => Visit.inScope { kind := kind, vars := vars } .generic false (x i))
        (fun r s' => Q r.1 ∧ inv s') ctx s :=
      hE.inScope (hE.imp (hx inv' _ _ hs' hv) fun a s' ha => ⟨ha.1, hback s' ha.2⟩)
    exact hE.bind hscope fun r s' h => hE.pure h
  have hcomprehension : ∀ {gs} {visit : I → List Generator → Visit ExprKind},
      (∀ c ∈ Generator.insideParts gs, P c) → (∀ inv' ctx' s' news, inv' s' →
        (∀ e, P e → Visits E w R inv' ctx' e) → Forall₂ (Generator.Rebuilds R) gs news →
        E (fun i => visit i news) (fun kind s'' => e.Rebuilds R (e.withKind kind) ∧ inv' s'') ctx' s') →
      E (fun i => (w i).comprehension e gs (visit i)) (fun new s' => e.Rebuilds R new ∧ inv s') ctx s := by
    intro gs visit hgs hvisit
    have hanalyzed : Ensures (Visitor.analyzed (Variables.ofComprehension gs)) (fun _ => False) (fun _ s' => inv s')
        ctx s :=
      Visitor.ensures_analyzed (fun cause hcause => Variables.cause_of_ofComprehension hcause)
        (fun s' hs' => hlogs s s' hs hs') fun vars _ => hs
    refine hE.bind (hE.ofEnsures hanalyzed) fun vars s1 hs1 => ?_
    cases vars with
    | none => exact hE.pure ⟨Expr.rebuilds_refl hrefl e, hs1⟩
    | some vars =>
      refine hE.bind (hinside (by decide) hs1 fun inv' ctx' s' hs' hv => ?_) fun kind s2 h2 => hE.pure h2
      refine hE.bind (hE.generators hP hrefl hrebuilt hv hgs hs') fun news s2 h2 => ?_
      exact hvisit inv' ctx' s2 news h2.2 hv h2.1
  obtain ⟨pos, kind⟩ := e
  unfold Visitor.exprScope
  cases kind with
  | lambda params body =>
    refine hE.bind (hinside (by decide) hs fun inv' ctx' s' hs' hv => hv body (he body mem_cons_self) s' hs') ?_
    exact fun new s1 h1 => hE.pure ⟨.lambda (Params.rebuilds_refl hrefl params) h1.1, h1.2⟩
  | listComp item gs | setComp item gs | generatorExp item gs =>
    refine hcomprehension (fun c hc => he c (mem_append_left _ hc)) fun inv' ctx' s' news hs' hv hnews => ?_
    refine hE.bind (hv item (he item (by simp [Expr.insideParts])) s' hs') fun new s1 h1 => hE.pure ⟨?_, h1.2⟩
    constructor
    · exact h1.1
    · exact hnews
  | dictComp key value gs =>
    refine hcomprehension (fun c hc => he c (mem_append_left _ hc)) fun inv' ctx' s' news hs' hv hnews => ?_
    refine hE.bind (hv key (he key (by simp [Expr.insideParts])) s' hs') fun new s1 h1 => ?_
    refine hE.bind (hv value (he value (by simp [Expr.insideParts])) s1 h1.2) fun new' s2 h2 => ?_
    exact hE.pure ⟨.dictComp h1.1 h2.1 hnews, h2.2⟩
  | _ => exact hE.pure ⟨Expr.rebuilds_refl hrefl _, hs⟩

theorem exprInside (hchildren : ∀ c ∈ e.children, Visits E w R inv ctx c) (he : ∀ c ∈ e.insideParts, P c)
    (hs : inv s) : E (fun i => (w i).exprInside e) (fun new s' => e.Rebuilds R new ∧ inv s') ctx s := by
  unfold Visitor.exprInside
  cases hscope : e.isScope with
  | false => exact hE.exprChildren hscope hchildren hs
  | true =>
    refine hE.read_bind ?_
    split
    · exact hE.exprScope hP hrefl hrebuilt hlogs hnested he hs
    · exact hE.pure ⟨Expr.rebuilds_refl hrefl e, hs⟩

end Visit.Logic

theorem Visitor.ensures_rebuildsHeader (v : Visitor) (ht : t.isScope = true) {ctx s} :
    Ensures (v.stmtHeader t) (fun _ => True) (fun new _ => t.RebuildsHeader (fun _ _ => True) new) ctx s := by
  have hvisits : ∀ e ∈ t.exprs, Logic.Visits (I := Unit)
      (fun x post ctx s => Ensures (x ()) (fun _ => True) post ctx s)
      (fun _ => v) (fun _ _ => True) (fun _ => True) ctx e := fun e _ s _ => Visitor.ensures_any.imp fun _ _ h =>
        ⟨h, h⟩
  exact ((logic_ensures _).stmtHeader ht hvisits trivial).imp fun _ _ h => h.1

end Speculator
