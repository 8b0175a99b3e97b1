import Speculator.Optimize
import Speculator.Proofs.Literals

/-!
# Depth of traversals

How deep the visits of a tree can go.  A literal may take the place of a variable or of an operation, and an unrolled
loop or comprehension is visited once more, so that a node counts for as much as what it may become.  `h` is the depth
of the deepest literal that the limits admit.

With this measure nothing that the passes build is deeper than what it replaces.
-/

namespace Speculator

open List

mutual

def Expr.depth (h : Nat) : Expr → Nat
  | ⟨_, kind⟩ => kind.depth h

/-- Operations may become literals, and comprehensions may become displays, which are visited again. -/
def ExprKind.depth (h : Nat) : ExprKind → Nat
  | .const _ => 1
  | .name _ => h
  | .boolOp _ values => 1 + Expr.depthList h values
  | .binOp left _ right => 1 + max h (max (left.depth h) (right.depth h))
  | .unaryOp _ operand => 1 + max h (operand.depth h)
  | .lambda params body => 1 + max (params.depth h) (body.depth h)
  | .ifExp test body orelse => 1 + max (test.depth h) (max (body.depth h) (orelse.depth h))
  | .dict keys values => 1 + max (Expr.depthList h keys) (Expr.depthList h values)
  | .set items | .list items | .tuple items => 1 + Expr.depthList h items
  | .listComp item generators | .setComp item generators | .generatorExp item generators =>
    2 + max (item.depth h) (Generator.depthList h generators)
  | .dictComp key value generators => 2 + max (max (key.depth h) (value.depth h)) (Generator.depthList h generators)
  | .await value | .yieldFrom value | .starred value => 1 + value.depth h
  | .yield value => 1 + Expr.depthOption h value
  | .compare left _ comparators => 1 + max h (max (left.depth h) (Expr.depthList h comparators))
  | .call func args keywords =>
    1 + max h (max (func.depth h) (max (Expr.depthList h args) (Keyword.depthList h keywords)))
  | .attr value _ => 1 + value.depth h
  | .subscript value slice => 1 + max h (max (value.depth h) (slice.depth h))
  | .slice lower upper step =>
    1 + max (Expr.depthOption h lower) (max (Expr.depthOption h upper) (Expr.depthOption h step))

def Expr.depthOption (h : Nat) : Option Expr → Nat
  | none => 0
  | some e => e.depth h

def Expr.depthList (h : Nat) : List Expr → Nat
  | [] => 0
  | e :: es => max (e.depth h) (Expr.depthList h es)

def Expr.depthOptions (h : Nat) : List (Option Expr) → Nat
  | [] => 0
  | e :: es => max (Expr.depthOption h e) (Expr.depthOptions h es)

def Params.depth (h : Nat) : Params → Nat
  | ⟨_, _, _, kwDefaults, _, defaults⟩ => max (Expr.depthList h defaults) (Expr.depthOptions h kwDefaults)

def Keyword.depthList (h : Nat) : List Keyword → Nat
  | [] => 0
  | ⟨_, value⟩ :: ks => max (value.depth h) (Keyword.depthList h ks)

def Generator.depthList (h : Nat) : List Generator → Nat
  | [] => 0
  | ⟨target, iter, conditions, _⟩ :: gs =>
    max (max (target.depth h) (max (iter.depth h) (Expr.depthList h conditions))) (Generator.depthList h gs)

end

def WithItem.depth (h : Nat) (item : WithItem) : Nat := max (item.context.depth h) (Expr.depthOption h item.target)

def WithItem.depthList (h : Nat) : List WithItem → Nat
  | [] => 0
  | item :: items => max (item.depth h) (WithItem.depthList h items)

mutual

def Stmt.depth (h : Nat) : Stmt → Nat
  | ⟨_, kind⟩ => kind.depth h

/-- Functions may become specialized ones, loops the assignments of their targets, and the test of a conditional with
two branches may be negated. -/
def StmtKind.depth (h : Nat) : StmtKind → Nat
  | .functionDef fn => fn.depth h
  | .classDef cls => cls.depth h
  | .ret value => 1 + Expr.depthOption h value
  | .delete targets => 1 + Expr.depthList h targets
  | .assign targets value => 1 + max (Expr.depthList h targets) (value.depth h)
  | .augAssign target _ value => 1 + max (target.depth h) (value.depth h)
  | .forLoop target iter body orelse _ =>
    1 + max (1 + max h (target.depth h)) (max (iter.depth h) (max (Stmt.depthList h body) (Stmt.depthList h orelse)))
  | .whileLoop test body orelse => 1 + max (test.depth h) (max (Stmt.depthList h body) (Stmt.depthList h orelse))
  | .cond test body orelse =>
    1 + max (if orelse.isEmpty then test.depth h else 1 + max h (test.depth h))
      (max (Stmt.depthList h body) (Stmt.depthList h orelse))
  | .withBlock items body _ => 1 + max (WithItem.depthList h items) (Stmt.depthList h body)
  | .raise exc cause => 1 + max (Expr.depthOption h exc) (Expr.depthOption h cause)
  | .tryBlock body handlers orelse final =>
    1 + max (max (Stmt.depthList h body) (Handler.depthList h handlers))
      (max (Stmt.depthList h orelse) (Stmt.depthList h final))
  | .expr value => 1 + value.depth h
  | .importModules _ | .importFrom .. | .globals _ | .nonlocals _ | .pass | .brk | .cont => 1

def FunctionDef.depth (h : Nat) : FunctionDef → Nat
  | ⟨_, params, body, decorators, _⟩ =>
    1 + max (h + 5) (max (max (Expr.depthList h decorators) (params.depth h)) (Stmt.depthList h body))

def ClassDef.depth (h : Nat) : ClassDef → Nat
  | ⟨_, bases, keywords, body, decorators⟩ =>
    1 + max (max (Expr.depthList h decorators) (max (Expr.depthList h bases) (Keyword.depthList h keywords)))
      (Stmt.depthList h body)

def Stmt.depthList (h : Nat) : List Stmt → Nat
  | [] => 0
  | s :: ss => max (s.depth h) (Stmt.depthList h ss)

def Handler.depthList (h : Nat) : List Handler → Nat
  | [] => 0
  | ⟨_, type, _, body⟩ :: hs =>
    max (max (Expr.depthOption h type) (Stmt.depthList h body)) (Handler.depthList h hs)

end

variable {h : Nat}

variable {es : List Expr} {n : Nat} {e c new : Expr} {t : Stmt} {R : Expr → Expr → Prop}

attribute [local simp] Expr.depthList Stmt.depthList

theorem Expr.depthList_le_iff : Expr.depthList h es ≤ n ↔ ∀ e ∈ es, e.depth h ≤ n := by
  induction es with
  | nil => simp
  | cons e es ih => rw [Expr.depthList, Nat.max_le, ih, forall_mem_cons]

theorem Stmt.depthList_le_iff {ss} : Stmt.depthList h ss ≤ n ↔ ∀ s ∈ ss, s.depth h ≤ n := by
  induction ss with
  | nil => simp
  | cons s ss ih => rw [Stmt.depthList, Nat.max_le, ih, forall_mem_cons]

theorem Stmt.depthList_append (as bs : List Stmt) :
    Stmt.depthList h (as ++ bs) = max (Stmt.depthList h as) (Stmt.depthList h bs) := by
  induction as with
  | nil => simp
  | cons a as ih => simp [ih, Nat.max_assoc]

/-! ### Parts -/

theorem Expr.depthList_append (as bs : List Expr) :
    Expr.depthList h (as ++ bs) = max (Expr.depthList h as) (Expr.depthList h bs) := by
  induction as with
  | nil => simp
  | cons a as ih => simp [ih, Nat.max_assoc]

theorem Expr.depthOption_eq_parts (o : Option Expr) : Expr.depthOption h o = Expr.depthList h o.toList := by
  cases o <;> simp [Expr.depthOption]

theorem Keyword.depthList_eq_parts (ks : List Keyword) :
    Keyword.depthList h ks = Expr.depthList h (ks.map Keyword.value) := by
  induction ks with
  | nil => rfl
  | cons k ks ih =>
    obtain ⟨name, value⟩ := k
    rw [Keyword.depthList, ih, map_cons, Expr.depthList]

theorem Params.depth_eq_parts (p : Params) : p.depth h = Expr.depthList h p.parts := by
  obtain ⟨args, vararg, kwOnly, kwDefaults, kwarg, defaults⟩ := p
  have hoptions : Expr.depthOptions h kwDefaults = Expr.depthList h (kwDefaults.flatMap Option.toList) := by
    induction kwDefaults with
    | nil => rfl
    | cons o os ih =>
      rw [Expr.depthOptions, Expr.depthOption_eq_parts, ih, flatMap_cons, Expr.depthList_append]
  rw [Params.depth, hoptions, Params.parts, Expr.depthList_append]

theorem Generator.depthList_eq_parts (gs : List Generator) :
    Generator.depthList h gs = Expr.depthList h (gs.flatMap Generator.parts) := by
  induction gs with
  | nil => rfl
  | cons g gs ih =>
    obtain ⟨target, iter, conditions, isAsync⟩ := g
    simp only [Generator.depthList, ih, flatMap_cons, Generator.parts, cons_append, Expr.depthList,
      Expr.depthList_append, Nat.max_assoc]

/-- What the kind adds to the depth of the parts, and the depth of what the expression may become. -/
def ExprKind.rank (h : Nat) : ExprKind → Nat × Nat
  | .name _ => (0, h)
  | .binOp .. | .unaryOp .. | .compare .. | .call .. | .subscript .. => (1, h)
  | .listComp .. | .setComp .. | .generatorExp .. | .dictComp .. => (2, 0)
  | _ => (1, 0)

theorem Expr.depth_eq_parts (e : Expr) :
    e.depth h = (e.kind.rank h).1 + max (e.kind.rank h).2 (Expr.depthList h e.parts) := by
  obtain ⟨pos, kind⟩ := e
  cases kind with
  | dictComp key value gens =>
    simp only [Expr.depth, ExprKind.depth, ExprKind.rank, Expr.parts, Expr.depthList, Expr.depthList_append,
      Generator.depthList_eq_parts]
    omega
  | listComp item gens | setComp item gens | generatorExp item gens =>
    simp only [Expr.depth, ExprKind.depth, ExprKind.rank, Expr.parts, Expr.depthList, Expr.depthList_append,
      Generator.depthList_eq_parts]
    omega
  | _ =>
    simp [Expr.depth, ExprKind.depth, ExprKind.rank, Expr.parts, Expr.children, Expr.depthList_append,
      Expr.depthOption_eq_parts, Keyword.depthList_eq_parts, Params.depth_eq_parts]

theorem Expr.depth_part (hc : c ∈ e.parts) : c.depth h < e.depth h := by
  have hrank : 1 ≤ (e.kind.rank h).1 := by
    obtain ⟨pos, kind⟩ := e
    cases kind with
    | name => cases hc
    | _ => simp [ExprKind.rank]
  have hle : c.depth h ≤ Expr.depthList h e.parts := Expr.depthList_le_iff.mp (Nat.le_refl _) c hc
  rw [Expr.depth_eq_parts e]
  omega

theorem Expr.depth_child (hc : c ∈ e.children) : c.depth h < e.depth h :=
  Expr.depth_part (Expr.mem_parts_of_child hc)

theorem Expr.induction_children {motive : Expr → Prop} (step : ∀ e : Expr, (∀ c ∈ e.children, motive c) → motive e)
    (e : Expr) : motive e :=
  Expr.induction_parts (fun e ih => step e fun c hc => ih c (Expr.mem_parts_of_child hc)) e

theorem Expr.one_le_depth (hh : 1 ≤ h) (e : Expr) : 1 ≤ e.depth h := by
  obtain ⟨pos, kind⟩ := e
  cases kind with
  | const => exact Nat.le_refl 1
  | name => exact hh
  | _ =>
    simp only [Expr.depth, ExprKind.depth]
    omega

/-! ### Parts of statements -/

theorem WithItem.depthList_eq_parts (items : List WithItem) :
    WithItem.depthList h items = Expr.depthList h (items.flatMap fun item => item.context :: item.target.toList) := by
  induction items with
  | nil => rfl
  | cons item items ih =>
    rw [WithItem.depthList, WithItem.depth, ih, Expr.depthOption_eq_parts, flatMap_cons, Expr.depthList_append,
      Expr.depthList]

theorem Handler.depthList_eq_parts (hs : List Handler) :
    Handler.depthList h hs = max (Expr.depthList h (hs.flatMap fun handler => handler.type.toList))
      (Stmt.depthList h (hs.map Handler.body).flatten) := by
  induction hs with
  | nil => rfl
  | cons handler hs ih =>
    obtain ⟨pos, type, name, body⟩ := handler
    simp only [Handler.depthList, ih, Expr.depthOption_eq_parts, flatMap_cons, map_cons, flatten_cons,
      Expr.depthList_append, Stmt.depthList_append]
    omega

def Stmt.surplus (h : Nat) (t : Stmt) : Nat :=
  match t.kind with
  | .functionDef _ => h + 5
  | .forLoop target _ _ _ _ => 1 + max h (target.depth h)
  | .cond test _ orelse => if orelse.isEmpty then 0 else 1 + max h (test.depth h)
  | _ => 0

theorem Stmt.depth_eq_parts (t : Stmt) :
    t.depth h = 1 + max (t.surplus h) (max (Expr.depthList h t.exprs) (Stmt.depthList h t.bodies.flatten)) := by
  obtain ⟨pos, kind⟩ := t
  cases kind with
  | functionDef fn =>
    obtain ⟨name, params, body, decorators, isAsync⟩ := fn
    simp [Stmt.depth, StmtKind.depth, FunctionDef.depth, surplus, exprs, bodies, Expr.depthList_append,
      Params.depth_eq_parts]
  | classDef cls =>
    obtain ⟨name, bases, keywords, body, decorators⟩ := cls
    simp [Stmt.depth, StmtKind.depth, ClassDef.depth, surplus, exprs, bodies, Expr.depthList_append,
      Keyword.depthList_eq_parts, Nat.max_assoc]
  | cond test body orelse =>
    simp only [Stmt.depth, StmtKind.depth, surplus, exprs, bodies, blocks, Expr.depthList, flatten_cons,
      flatten_nil, append_nil, Stmt.depthList_append]
    split <;> omega
  | _ =>
    simp only [Stmt.depth, StmtKind.depth, surplus, exprs, bodies, blocks, Expr.depthList, Expr.depthList_append,
      Expr.depthOption_eq_parts, WithItem.depthList_eq_parts, Handler.depthList_eq_parts, cons_append,
      flatten_cons, flatten_nil, flatten_append, append_nil, Stmt.depthList, Stmt.depthList_append]
    omega

theorem Stmt.one_le_depth (s : Stmt) : 1 ≤ s.depth h := by
  rw [Stmt.depth_eq_parts]
  omega

theorem Stmt.depth_expr (he : e ∈ t.exprs) : e.depth h < t.depth h := by
  have hle : e.depth h ≤ Expr.depthList h t.exprs := Expr.depthList_le_iff.mp (Nat.le_refl _) e he
  rw [Stmt.depth_eq_parts]
  omega

theorem Stmt.depthList_body {body} (hbody : body ∈ t.bodies) : Stmt.depthList h body < t.depth h := by
  have hle : Stmt.depthList h body ≤ Stmt.depthList h t.bodies.flatten := Stmt.depthList_le_iff.mpr fun s hs =>
    Stmt.depthList_le_iff.mp (Nat.le_refl _) s (mem_flatten.mpr ⟨body, hbody, hs⟩)
  rw [Stmt.depth_eq_parts]
  omega

/-! ### Literals -/

theorem Value.one_le_size (v : Value) : 1 ≤ v.size := by
  cases v <;> simp only [Value.size] <;> (try split) <;> omega

theorem Value.depth_displays (pos : Position) : Value.DisplayRules pos fun v e => e.depth h ≤ v.size := by
  have hitems : ∀ {vs es}, Forall₂ (fun v e => e.depth h ≤ v.size) vs es →
      Expr.depthList h es ≤ Value.sizeItems vs := by
    intro vs es hes
    induction hes with
    | nil => exact Nat.le_refl _
    | cons =>
      simp only [Expr.depthList, Value.sizeItems]
      omega
  refine ⟨fun {v} _ => ?_, fun hes => ?_, fun _ hes => ?frozenSet, fun hes => ?list, fun hes => ?set,
    fun hkeys hvalues => ?_⟩
  case frozenSet | list | set =>
    have := hitems hes
    simp only [Expr.depth, ExprKind.depth, Value.size]
    omega
  · simpa [Expr.depth, ExprKind.depth] using v.one_le_size
  · have := hitems hes
    simp only [Expr.depth, ExprKind.depth, Value.size]
    split <;> omega
  · have hpairs : ∀ {ps keys values}, Forall₂ (fun (p : Value × Value) e => Expr.depth h e ≤ p.1.size) ps keys →
        Forall₂ (fun p e => Expr.depth h e ≤ p.2.size) ps values →
        max (Expr.depthList h keys) (Expr.depthList h values) ≤ Value.sizePairs ps := by
      intro ps keys values hkeys hvalues
      induction hkeys generalizing values with
      | nil =>
        cases hvalues
        exact Nat.le_refl _
      | cons hk _ ih =>
        cases hvalues with
        | cons hv hrest =>
          have := ih hrest
          simp only [Expr.depthList, Value.sizePairs]
          omega
    have := hpairs hkeys hvalues
    simp only [Expr.depth, ExprKind.depth, Value.size]
    omega

theorem Value.depth_toExpr (pos : Position) (v : Value) : (v.toExpr pos).depth h ≤ v.size :=
  (Value.depth_displays pos).holds v

def Limits.literalDepth (l : Limits) : Nat := l.maxConstantSize + 1

/-- A literal is no deeper than the limits admit. -/
theorem Limits.depth_of_literal? {l : Limits} {v : Value} {pos : Position} (hl : l.literal? v pos = some e) :
    e.depth h ≤ l.literalDepth := by
  unfold Limits.literal? at hl
  split at hl
  · rename_i hadmits
    cases hl
    have hsize : v.size ≤ l.maxConstantSize ∨ (v.toExpr pos).depth h = 1 := by
      cases v with
      | int | str | bytes => exact .inr rfl
      | _ =>
        left
        simp only [Limits.admits, Bool.and_eq_true, decide_eq_true_eq] at hadmits
        exact hadmits.2
    have hdepth := Value.depth_toExpr (h := h) pos v
    unfold Limits.literalDepth
    omega
  · cases hl

/-! ### Substitution -/

theorem Expr.depthList_le_of_forall₂ {news} (hes : Forall₂ (fun a b => b.depth h ≤ a.depth h) es news) :
    Expr.depthList h news ≤ Expr.depthList h es := by
  induction hes with
  | nil => exact Nat.le_refl _
  | cons hfirst _ ih =>
    simp only [Expr.depthList]
    omega

theorem Expr.Rebuilds.rank (hnew : e.Rebuilds R new) :
    new.kind.rank h = e.kind.rank h := by cases hnew <;> rfl

theorem Expr.Rebuilds.depth_le (hnew : e.Rebuilds (fun a b => b.depth h ≤ a.depth h) new) :
    new.depth h ≤ e.depth h := by
  have hparts := Expr.depthList_le_of_forall₂ hnew.parts
  rw [Expr.depth_eq_parts, hnew.rank, Expr.depth_eq_parts e]
  omega

theorem Stmt.depthList_flatten_le {bodies news}
    (hnews : Forall₂ (fun ts us => Stmt.depthList h us ≤ Stmt.depthList h ts) bodies news) :
    Stmt.depthList h news.flatten ≤ Stmt.depthList h bodies.flatten := by
  induction hnews with
  | nil => exact Nat.le_refl _
  | cons hfirst _ ih =>
    rw [flatten_cons, flatten_cons, Stmt.depthList_append, Stmt.depthList_append]
    omega

theorem Stmt.Rebuilds.depth_le {T : Expr → Expr → Prop} {B : List Stmt → List Stmt → Prop} {new}
    (hR : ∀ {e e'}, R e e' → e'.depth h ≤ e.depth h) (hT : ∀ {e e'}, T e e' → e'.depth h ≤ e.depth h)
    (hB : ∀ {ts us}, B ts us → Stmt.depthList h us ≤ Stmt.depthList h ts ∧ (ts = [] → us = []))
    (hnew : t.Rebuilds R T B new) : new.depth h ≤ t.depth h := by
  have hexprs := Expr.depthList_le_of_forall₂ (hnew.exprs (fun _ => Nat.le_refl _) hR hT)
  have hbodies := Stmt.depthList_flatten_le (hnew.bodies (fun _ => Nat.le_refl _) fun h => (hB h).1)
  have hsurplus : new.surplus h ≤ t.surplus h := by
    cases hnew with
    | header h => cases h <;> exact Nat.le_refl _
    | forLoop htarget =>
      have := hT htarget
      simp only [Stmt.surplus]
      omega
    | @cond _ _ _ _ _ orelse orelse' htest _ horelse =>
      have := hR htest
      simp only [Stmt.surplus]
      cases orelse with
      | nil => simp [(hB horelse).2 rfl]
      | cons =>
        simp only [isEmpty_cons, Bool.false_eq_true, if_false]
        split <;> omega
    | _ => exact Nat.le_refl _
  rw [Stmt.depth_eq_parts, Stmt.depth_eq_parts t]
  omega

section Substitution

variable {table : List (Ident × Expr)} (ht : ∀ p ∈ table, p.2.depth h ≤ h)

include ht

theorem depth_replacement (id : Ident) : (replacement table id).depth h ≤ h := by
  unfold replacement
  split
  · rename_i e he
    obtain ⟨pos, kind⟩ := e
    have hmem : (id, (⟨pos, kind⟩ : Expr)) ∈ table := by
      obtain ⟨l1, l2, rfl, _⟩ := lookup_eq_some_iff.mp he
      simp
    exact ht _ hmem
  · exact Nat.le_refl h

/-- Replacing names makes no expression deeper. -/
theorem Expr.depth_substitute (e : Expr) : (e.substitute table).depth h ≤ e.depth h := by
  induction e using Expr.induction_parts with
  | _ e ih =>
    cases hname : e.name? with
    | none =>
      have hparts : e.Rebuilds (fun a b => b.depth h ≤ a.depth h) (e.substitute table) :=
        Expr.rebuilds_substitute hname fun c hc => ⟨fun _ => Nat.le_refl _, ih c hc⟩
      exact hparts.depth_le
    | some id =>
      rw [Expr.eq_of_name hname]
      exact depth_replacement ht id

theorem Expr.depth_substituteTarget (e : Expr) : (e.substituteTarget table).depth h ≤ e.depth h :=
  (Expr.TargetRules.of_rebuilds (R := fun a b => b.depth h ≤ a.depth h) (fun _ => Nat.le_refl _)
    Expr.Rebuilds.depth_le).substituted (Expr.depth_substitute ht) e

theorem Stmt.depth_substitute (t : Stmt) : (t.substitute table).depth h ≤ t.depth h := by
  induction t using Stmt.induction_bodies with
  | _ t ih =>
    refine Stmt.Rebuilds.depth_le (fun h => h) (fun h => h) (fun h => h)
      (Stmt.rebuilds_substitute (Expr.depth_substitute ht) (Expr.depth_substituteTarget ht) fun ts hts => ?_)
    rw [Stmt.substituteList_eq_map]
    refine ⟨Stmt.depthList_le_iff.mpr (forall_mem_map.mpr fun s hs => ?_), fun hnil => by rw [hnil, map_nil]⟩
    exact Nat.le_trans (ih ts hts s hs) (Stmt.depthList_le_iff.mp (Nat.le_refl _) s hs)

theorem Stmt.depthList_substitute (ts : List Stmt) :
    Stmt.depthList h (Stmt.substituteList table ts) ≤ Stmt.depthList h ts := by
  rw [Stmt.substituteList_eq_map]
  refine Stmt.depthList_le_iff.mpr (forall_mem_map.mpr fun s hs => ?_)
  exact Nat.le_trans (Stmt.depth_substitute ht s) (Stmt.depthList_le_iff.mp (Nat.le_refl _) s hs)

end Substitution

/-! ### The bound of a module -/

section Bound

theorem Expr.depthList_le_of_forall (hes : ∀ e ∈ es, e.depth h ≤ h + 10 * (e.nodes Node.everywhere).length) :
    Expr.depthList h es ≤ h + 10 * (es.flatMap (Expr.nodes Node.everywhere)).length := by
  induction es with
  | nil => simp
  | cons e es ih =>
    rw [forall_mem_cons] at hes
    have := ih hes.2
    simp only [Expr.depthList, flatMap_cons, length_append]
    omega

theorem Stmt.depthList_le_of_forall {ts} (hts : ∀ t ∈ ts, t.depth h ≤ h + 10 * (t.nodes Node.everywhere).length) :
    Stmt.depthList h ts ≤ h + 10 * (Stmt.nodesList Node.everywhere ts).length := by
  induction ts with
  | nil => simp
  | cons t ts ih =>
    rw [forall_mem_cons] at hts
    have := ih hts.2
    simp only [Stmt.depthList, Stmt.nodesList, length_append]
    omega

theorem Expr.depth_le_nodes (e : Expr) : e.depth h ≤ h + 10 * (e.nodes Node.everywhere).length := by
  induction e using Expr.induction_parts with
  | _ e ih =>
    have hparts := Expr.depthList_le_of_forall ih
    have hrank : (e.kind.rank h).1 ≤ 2 ∧ (e.kind.rank h).2 ≤ h := by
      unfold ExprKind.rank
      split <;> simp
    rw [Expr.nodes_eq_parts, Expr.depth_eq_parts, length_cons]
    omega

theorem Stmt.depth_le_nodes (t : Stmt) : t.depth h ≤ h + 10 * (t.nodes Node.everywhere).length := by
  induction t using Stmt.induction_bodies with
  | _ t ih =>
    have hbelow := (t.nodes_perm Node.everywhere_handler).length_eq
    have hexprs := Expr.depthList_le_of_forall fun e (_ : e ∈ t.exprs) => e.depth_le_nodes (h := h)
    have hbodies := Stmt.depthList_le_of_forall fun s hs =>
      (mem_flatten.mp hs).elim fun body hbody => ih body hbody.1 s hbody.2
    have hsurplus : t.surplus h ≤ 5 + max h (Expr.depthList h t.exprs) := by
      obtain ⟨pos, kind⟩ := t
      cases kind with
      | cond =>
        simp only [surplus, exprs, Expr.depthList]
        split <;> omega
      | _ =>
        simp only [surplus, exprs, Expr.depthList]
        omega
    have hflatten :
    Stmt.nodesList Node.everywhere t.bodies.flatten = t.bodies.flatMap (Stmt.nodesList Node.everywhere) := by
      simp only [funext Stmt.nodesList_eq_flatMap, ← flatMap_id, flatMap_assoc, id_eq]
    rw [hflatten] at hbodies
    simp only [length_append] at hbelow
    rw [Stmt.nodes_everywhere, length_cons, Stmt.depth_eq_parts]
    omega

theorem length_le_weight (nodes : List Node) (start : Nat) :
    start + nodes.length ≤ nodes.foldl (fun total node => total + node.weight) start := by
  induction nodes generalizing start with
  | nil => simp
  | cons node nodes ih =>
    have hweight : 1 ≤ node.weight := by
      unfold Node.weight
      split <;> omega
    have := ih (start + node.weight)
    simp only [length_cons, foldl_cons]
    omega

/-- The measure of a module is within the bound of its visits. -/
theorem Module.depth_le_bound (m : Module) (limits : Limits) :
    Stmt.depthList limits.literalDepth m.body ≤ m.depthBound limits := by
  have hnodes := Stmt.depthList_le_of_forall fun t (_ : t ∈ m.body) => t.depth_le_nodes (h := limits.literalDepth)
  have hweight := length_le_weight (Stmt.nodesList Node.everywhere m.body) 0
  unfold Module.depthBound Stmt.weight
  unfold Limits.literalDepth at hnodes ⊢
  omega

end Bound

end Speculator
