import Speculator.Proofs.InlinedCalls
import Speculator.Proofs.Redefinition

/-!
# Generator functions

A function with a `yield` in its own scope is a generator function.  What the visits make of a body is compared with
the body: a `yield` is only lost if it stands in a place that may be dropped without a look at it, which is the target
of a loop or a value of a dictionary without keys, and it is only gained if it stands in the item of a comprehension
that becomes a display (`Node.Keeps`).  So a generator function stays one, and no other function becomes one, if there
is no `yield` in these places (`visitor_generators`).
-/

namespace Speculator

open List Visit Node DeadCode

variable {p : Places} {e new : Expr} {t : Stmt}

/-! ### Places -/

/-- The places of a function that count, besides those that always do. -/
structure Places where
  /-- The parts of nested definitions, lambdas and comprehensions that are evaluated around them. -/
  headers : Bool
  /-- The targets of `for` loops, and the values of dictionaries without keys. -/
  dropped : Bool
  /-- The items of comprehensions that may become displays. -/
  items : Bool

def Expr.counted (p : Places) (e : Expr) : List Expr :=
  match e.kind with
  | .lambda params _ => if p.headers then params.parts else []
  | .generatorExp _ gens => if p.headers then (gens.take 1).map Generator.iter else []
  | .listComp item gens | .setComp item gens =>
    (if p.headers then (gens.take 1).map Generator.iter else []) ++ if p.items then [item] else []
  | .dictComp key value gens =>
    (if p.headers then (gens.take 1).map Generator.iter else []) ++ if p.items then [key, value] else []
  | .dict [] values => if p.dropped then values else []
  | _ => e.children

def Stmt.counted (p : Places) (t : Stmt) : List Node :=
  match t.kind with
  | .functionDef fn => if p.headers then fn.decorators.map .expr ++ fn.params.parts.map .expr else []
  | .classDef cls =>
    if p.headers then cls.decorators.map .expr ++ cls.bases.map .expr ++ (cls.keywords.map Keyword.value).map .expr
    else []
  | .ret value => value.toList.map .expr
  | .delete targets => targets.map .expr
  | .assign targets value => targets.map .expr ++ [.expr value]
  | .augAssign target _ value => [.expr target] ++ [.expr value]
  | .forLoop target iter body orelse _ =>
    (if p.dropped then [.expr target] else []) ++ [.expr iter] ++ body.map .stmt ++ orelse.map .stmt
  | .whileLoop test body orelse | .cond test body orelse => [.expr test] ++ body.map .stmt ++ orelse.map .stmt
  | .withBlock items body _ =>
    (items.flatMap fun item => [.expr item.context] ++ item.target.toList.map .expr) ++ body.map .stmt
  | .raise exc cause => exc.toList.map .expr ++ cause.toList.map .expr
  | .tryBlock body handlers orelse final =>
    body.map .stmt ++ handlers.map .handler ++ orelse.map .stmt ++ final.map .stmt
  | .expr value => [.expr value]
  | .importModules _ | .importFrom .. | .globals _ | .nonlocals _ | .pass | .brk | .cont => []

attribute [local simp] Stmt.counted

namespace Node

def counted (p : Places) : Node → List Node
  | expr e => (e.counted p).map expr
  | stmt t => t.counted p
  | handler h => h.type.toList.map expr ++ h.body.map stmt

def isYield : Node → Bool
  | expr ⟨_, .yield _⟩ | expr ⟨_, .yieldFrom _⟩ => true
  | _ => false

/-- There is a `yield` at the node or below it, in a place that counts. -/
inductive HasYield (p : Places) : Node → Prop
  | here {node} (h : node.isYield = true) : HasYield p node
  | inside {node child} (hchild : child ∈ node.counted p) (h : child.HasYield p) : HasYield p node

def AnyYield (p : Places) (nodes : List Node) : Prop := ∃ node ∈ nodes, node.HasYield p

section Lists

variable {node : Node} {nodes nodes' : List Node}

theorem hasYield_iff : node.HasYield p ↔ node.isYield = true ∨ AnyYield p (node.counted p) := by
  constructor
  · intro h
    cases h with
    | here h => exact .inl h
    | inside hchild h => exact .inr ⟨_, hchild, h⟩
  · rintro (h | ⟨child, hchild, h⟩)
    · exact .here h
    · exact .inside hchild h

@[simp] theorem anyYield_nil : ¬ AnyYield p [] := fun ⟨_, h, _⟩ => by cases h

@[simp] theorem anyYield_cons : AnyYield p (node :: nodes) ↔ node.HasYield p ∨ AnyYield p nodes := by
  simp [AnyYield]

@[simp] theorem anyYield_append : AnyYield p (nodes ++ nodes') ↔ AnyYield p nodes ∨ AnyYield p nodes' := by
  simp only [AnyYield, mem_append, or_and_right, exists_or]

theorem anyYield_stmt {t} : AnyYield p [.stmt t] ↔ AnyYield p (t.counted p) := by
  rw [anyYield_cons, hasYield_iff]
  simp [isYield, counted]

theorem anyYield_expr {e} :
    AnyYield p [.expr e] ↔ (expr e).isYield = true ∨ AnyYield p ((e.counted p).map .expr) := by
  rw [anyYield_cons, hasYield_iff, or_iff_left anyYield_nil]
  rfl

theorem anyYield_of_not_isYield {e} (h : (expr e).isYield = false) :
    AnyYield p [.expr e] ↔ AnyYield p ((e.counted p).map .expr) := by
  rw [anyYield_expr, h, or_iff_right Bool.false_ne_true]

theorem anyYield_unaryOp {pos op operand} :
    AnyYield p [.expr ⟨pos, .unaryOp op operand⟩] ↔ AnyYield p [.expr operand] :=
  anyYield_of_not_isYield rfl

theorem anyYield_handler {h} :
    AnyYield p [.handler h] ↔ AnyYield p (h.type.toList.map .expr ++ h.body.map .stmt) := by
  rw [anyYield_cons, hasYield_iff]
  simp [isYield, counted]

end Lists

end Node

def Stmt.AnyYield (p : Places) (body : List Stmt) : Prop := Node.AnyYield p (body.map .stmt)

/-! ### More places -/

/-- The places of one choice are among those of another one. -/
structure Places.Sub (p q : Places) : Prop where
  headers : p.headers = q.headers
  dropped : p.dropped = true → q.dropped = true
  items : p.items = true → q.items = true

variable {q : Places}

theorem Expr.counted_subset (h : p.Sub q) (e : Expr) : e.counted p ⊆ e.counted q := by
  have hif : ∀ {b c : Bool} {es : List Expr}, (b = true → c = true) →
      (if b then es else []) ⊆ (if c then es else []) := by
    intro b c es hbc
    cases b with
    | false => exact nil_subset _
    | true => rw [hbc rfl]; exact Subset.refl _
  have happend : ∀ {es fs gs : List Expr}, fs ⊆ gs → es ++ fs ⊆ es ++ gs := fun hsub =>
    append_subset.mpr ⟨subset_append_left _ _, subset_append_of_subset_right _ hsub⟩
  unfold Expr.counted
  rw [h.headers]
  split
  case h_3 | h_4 | h_5 => exact happend (hif h.items)
  case h_6 => exact hif h.dropped
  all_goals exact Subset.refl _

theorem Node.counted_subset (h : p.Sub q) (node : Node) : node.counted p ⊆ node.counted q := by
  cases node with
  | expr e => exact map_subset _ (e.counted_subset h)
  | handler => exact Subset.refl _
  | stmt t =>
    obtain ⟨pos, kind⟩ := t
    cases kind with
    | forLoop target iter body orelse isAsync =>
      cases hp : p.dropped with
      | false => simp [counted, hp]
      | true => simp [counted, hp, h.dropped hp]
    | functionDef | classDef =>
      unfold counted Stmt.counted
      rw [h.headers]
      exact Subset.refl _
    | _ => exact Subset.refl _

theorem Node.HasYield.mono (hsub : p.Sub q) {node : Node} (h : node.HasYield p) : node.HasYield q := by
  induction h with
  | here h => exact .here h
  | inside hchild _ ih => exact .inside (counted_subset hsub _ hchild) ih

theorem Stmt.AnyYield.mono (hsub : p.Sub q) {body} (h : Stmt.AnyYield p body) : Stmt.AnyYield q body := by
  obtain ⟨node, hnode, h⟩ := h
  exact ⟨node, hnode, h.mono hsub⟩

/-! ### Expressions without `yield` -/

/-- The condition of expressions in which there is no `yield`, also not in a scope of its own. -/
def Shape.silent : Shape where
  check kind :=
    match kind with
    | .yield _ | .yieldFrom _ => false
    | _ => true
  rebuilt h := by cases h <;> rfl
  negated _ := rfl
  const _ := rfl
  tuple _ := rfl
  list _ := rfl
  set _ := rfl
  dict _ := rfl

theorem Expr.counted_subset_parts (p : Places) (e : Expr) : e.counted p ⊆ e.parts := by
  have hif : ∀ {b : Bool} {es fs : List Expr}, es ⊆ fs → (if b then es else []) ⊆ fs := by
    intro b es fs hsub
    split
    · exact hsub
    · exact nil_subset _
  have hiter : ∀ gens : List Generator, (gens.take 1).map Generator.iter ⊆ gens.flatMap Generator.parts := by
    rintro (_ | ⟨g, gens⟩)
    · exact nil_subset _
    · simp [Generator.parts]
  obtain ⟨pos, kind⟩ := e
  cases kind with
  | lambda => exact hif (subset_append_left _ _)
  | generatorExp _ gens => exact hif (subset_append_of_subset_left _ (hiter gens))
  | listComp _ gens | setComp _ gens | dictComp _ _ gens =>
    refine append_subset.mpr ⟨hif (subset_append_of_subset_left _ (hiter gens)), hif ?_⟩
    exact subset_append_right _ _
  | dict keys values =>
    cases keys with
    | nil => exact hif (Subset.refl _)
    | cons => exact Subset.refl _
  | _ => exact Subset.refl _

theorem Expr.All.not_hasYield (h : e.All .silent) : ¬ (expr e).HasYield p := by
  induction e using Expr.induction_parts with
  | _ e ih =>
    rw [Expr.all_iff] at h
    rw [hasYield_iff]
    rintro (hyield | ⟨child, hchild, hyield⟩)
    · obtain ⟨pos, kind⟩ := e
      cases kind with
      | yield | yieldFrom => cases h.1
      | _ => cases hyield
    · obtain ⟨c, hc, rfl⟩ := mem_map.mp hchild
      have hpart := Expr.counted_subset_parts p e hc
      exact ih c hpart (h.2 c hpart) hyield

theorem Expr.silent_literals : Expr.LiteralRules fun e _ => e.All .silent where
  const _ _ := Expr.all_iff.mpr ⟨rfl, fun c hc => by cases hc⟩
  minus _ _ := by
    refine Expr.all_iff.mpr ⟨rfl, fun c hc => ?_⟩
    rw [mem_singleton.mp hc]
    exact Expr.all_iff.mpr ⟨rfl, fun c hc => by cases hc⟩
  tuple hitems := Expr.all_iff.mpr ⟨rfl, forall_mem_of_forall₂ hitems⟩
  list hitems := Expr.all_iff.mpr ⟨rfl, forall_mem_of_forall₂ hitems⟩
  set hitems _ := Expr.all_iff.mpr ⟨rfl, forall_mem_of_forall₂ hitems⟩
  dict hkeys hvalues _ :=
    Expr.all_iff.mpr ⟨rfl, forall_mem_append.mpr ⟨forall_mem_of_forall₂ hkeys, forall_mem_of_forall₂ hvalues⟩⟩

variable {v : Value} {limits : Limits}

theorem Expr.silent_of_literal? (h : e.literal? = some v) : e.All .silent :=
  Expr.silent_literals.holds e h

theorem Expr.silent_of_constant? (h : e.constant? = some v) : e.All .silent :=
  Expr.silent_of_literal? (Expr.literal?_of_constant? e h)

theorem Expr.silent_name (pos : Position) (id : Ident) : Expr.All .silent ⟨pos, .name id⟩ :=
  Expr.all_iff.mpr ⟨rfl, fun c hc => by cases hc⟩

theorem Expr.silent_of_name? {id} (h : e.name? = some id) : e.All .silent := by
  obtain ⟨pos, kind⟩ := e
  cases kind with
  | name id => exact Expr.silent_name pos id
  | _ => cases h

theorem Inlining.silent_of_isSimple {arg} (h : isSimple arg = true) : arg.All .silent := by
  unfold isSimple at h
  split at h
  · rename_i id hkind
    obtain ⟨pos, kind⟩ := arg
    cases hkind
    exact Expr.silent_name pos id
  · cases h
  · obtain ⟨v, hv⟩ := Option.isSome_iff_exists.mp h
    exact Expr.silent_of_constant? hv

theorem Inlining.silent_of_result? {fn result} (h : result? fn = some result) : result.All .silent := by
  have hmovable := (result?_eq_some h).2
  simp only [movable, Bool.and_eq_true, Bool.not_eq_true', any_eq_false] at hmovable
  intro c hc
  have hnot := hmovable.1.1 _ hc
  obtain ⟨pos, kind⟩ := c
  cases kind with
  | yield | yieldFrom => exact absurd rfl hnot
  | _ => rfl

/-! ### What is kept -/

/-- No `yield` is lost, unless it may be dropped, and none is gained, unless items of comprehensions count. -/
structure Node.Keeps (p : Places) (olds news : List Node) : Prop where
  lost : p.dropped = false → AnyYield p olds → AnyYield p news
  gained : p.items = true → AnyYield p news → AnyYield p olds

namespace Node.Keeps

variable {olds olds' mids news news' : List Node}

theorem of_iff (h : AnyYield p olds ↔ AnyYield p news) : Keeps p olds news := ⟨fun _ => h.mp, fun _ => h.mpr⟩

theorem refl (nodes : List Node) : Keeps p nodes nodes := .of_iff Iff.rfl

theorem of_not (h : ¬ AnyYield p olds) (h' : ¬ AnyYield p news) : Keeps p olds news := .of_iff (iff_of_false h h')

theorem trans (h : Keeps p olds mids) (h' : Keeps p mids news) : Keeps p olds news :=
  ⟨fun hp hold => h'.lost hp (h.lost hp hold), fun hp hnew => h.gained hp (h'.gained hp hnew)⟩

theorem append (h : Keeps p olds news) (h' : Keeps p olds' news') : Keeps p (olds ++ olds') (news ++ news') := by
  constructor
  · intro hp
    rw [anyYield_append, anyYield_append]
    exact Or.imp (h.lost hp) (h'.lost hp)
  · intro hp
    rw [anyYield_append, anyYield_append]
    exact Or.imp (h.gained hp) (h'.gained hp)

theorem ite (b : Bool) (h : Keeps p olds news) : Keeps p (if b then olds else []) (if b then news else []) := by
  split
  · exact h
  · exact .refl []

theorem stmt {t new} (h : Keeps p (t.counted p) (new.counted p)) : Keeps p [.stmt t] [.stmt new] :=
  (of_iff anyYield_stmt).trans (h.trans (.of_iff anyYield_stmt.symm))

theorem expr (hyield : (expr new).isYield = (expr e).isYield)
    (h : Keeps p ((e.counted p).map .expr) ((new.counted p).map .expr)) : Keeps p [.expr e] [.expr new] := by
  constructor
  · intro hp
    rw [anyYield_expr, anyYield_expr, hyield]
    exact Or.imp_right (h.lost hp)
  · intro hp
    rw [anyYield_expr, anyYield_expr, hyield]
    exact Or.imp_right (h.gained hp)

theorem map {α β : Type} {f : α → Node} {g : β → Node} {as : List α} {bs : List β}
    (h : Forall₂ (fun a b => Keeps p [f a] [g b]) as bs) : Keeps p (as.map f) (bs.map g) := by
  induction h with
  | nil => exact .refl []
  | cons h _ ih => exact append h ih

end Node.Keeps

/-! ### Expressions -/

def Expr.KeepsYields (e new : Expr) : Prop := ∀ p, Node.Keeps p [.expr e] [.expr new]

namespace Expr.KeepsYields

theorem refl (e : Expr) : e.KeepsYields e := fun _ => .refl _

theorem of_silent (he : e.All .silent) (hnew : new.All .silent) : e.KeepsYields new := fun p =>
  .of_not (by simpa using he.not_hasYield) (by simpa using hnew.not_hasYield)

theorem exprs {es news} (h : Forall₂ KeepsYields es news) : Node.Keeps p (es.map .expr) (news.map .expr) :=
  .map (h.imp fun _ _ h => h p)

end Expr.KeepsYields

theorem Expr.Rebuilds.counted {R : Expr → Expr → Prop} (h : e.Rebuilds R new) (p : Places) :
    Forall₂ R (e.counted p) (new.counted p) := by
  have hif : ∀ {b : Bool} {es fs}, Forall₂ R es fs →
      Forall₂ R (if b then es else []) (if b then fs else []) := by
    intro b es fs h
    split
    · exact h
    · exact .nil
  have hiter : ∀ {gs gs'}, Forall₂ (Generator.Rebuilds R) gs gs' →
      Forall₂ R ((gs.take 1).map Generator.iter) ((gs'.take 1).map Generator.iter) := by
    intro gs gs' h
    cases h with
    | nil => exact .nil
    | cons h _ => exact .cons h.iter .nil
  have hparts := h.parts
  cases h with
  | lambda hparams => exact hif hparams.parts
  | generatorExp _ hgens => exact hif (hiter hgens)
  | listComp hitem hgens | setComp hitem hgens => exact rel_append (hif (hiter hgens)) (hif (.cons hitem .nil))
  | dictComp hkey hvalue hgens =>
    exact rel_append (hif (hiter hgens)) (hif (.cons hkey (.cons hvalue .nil)))
  | dict hkeys hvalues =>
    cases hkeys with
    | nil => exact hif hvalues
    | cons => exact hparts
  | _ => exact hparts

theorem Expr.Rebuilds.keepsYields (h : e.Rebuilds Expr.KeepsYields new) : e.KeepsYields new := by
  intro p
  refine .expr ?_ (Expr.KeepsYields.exprs (h.counted p))
  cases h <;> rfl

theorem Expr.keepsYields_substitute {table} (htable : ∀ p ∈ table, p.2.All .silent) (e : Expr) :
    e.KeepsYields (e.substitute table) := by
  induction e using Expr.induction_parts with
  | _ e ih =>
    cases hname : e.name? with
    | none => exact (Expr.rebuilds_substitute hname fun c hc => ⟨fun _ => .refl c, ih c hc⟩).keepsYields
    | some id =>
      have he := Expr.silent_of_name? hname
      exact .of_silent he (he.substitute htable)

theorem Folding.silent_of_sliceBound? {o} {b : Option Int} (h : sliceBound? o = some b) :
    ∀ c ∈ o.toList, c.All .silent := by
  cases o with
  | none => exact fun c hc => by cases hc
  | some e =>
    intro c hc
    rw [mem_singleton.mp hc]
    unfold sliceBound? at h
    dsimp only at h
    split at h
    · exact Expr.silent_of_constant? ‹_›
    · exact Expr.silent_of_constant? ‹_›
    · cases h

theorem Folding.silent_of_identity? {op left right} {b : Bool}
    (h : identity? op left right = some b) : left.All .silent ∧ right.All .silent := by
  have hnone : ∀ {e : Expr}, e.kind = .const .none → e.All .silent := by
    rintro ⟨pos, kind⟩ hkind
    cases hkind
    exact Expr.all_const rfl
  unfold identity? at h
  split at h
  · exact ⟨hnone ‹_›, hnone ‹_›⟩
  · exact ⟨hnone ‹_›, hnone ‹_›⟩
  · cases h

theorem Folding.Folded.keepsYields (h : Folded limits e new) : e.KeepsYields new := by
  have hunary : ∀ {pos op operand}, Expr.All .silent operand → Expr.All .silent ⟨pos, .unaryOp op operand⟩ := by
    intro pos op operand h
    refine Expr.all_iff.mpr ⟨rfl, fun c hc => ?_⟩
    rwa [mem_singleton.mp hc]
  have hbinary : ∀ {kind left right pos}, Expr.parts ⟨pos, kind⟩ = [left, right] →
      Shape.silent.check kind = true → left.All .silent → right.All .silent → Expr.All .silent ⟨pos, kind⟩ := by
    intro kind left right pos hparts hkind hleft hright
    refine Expr.all_iff.mpr ⟨hkind, fun c hc => ?_⟩
    simp only [hparts, mem_cons, not_mem_nil, or_false] at hc
    rcases hc with rfl | rfl
    · exact hleft
    · exact hright
  cases h with
  | binary hleft hright _ hnew =>
    refine .of_silent (hbinary rfl rfl ?_ ?_) (Limits.all_literal? hnew)
    · exact Expr.silent_of_constant? hleft
    · exact Expr.silent_of_constant? hright
  | unary hoperand _ hnew => exact .of_silent (hunary (Expr.silent_of_constant? hoperand)) (Limits.all_literal? hnew)
  | negated =>
    rename_i pos inner left op opposite comparators _
    intro p
    refine .of_iff ?_
    rw [anyYield_unaryOp, anyYield_of_not_isYield rfl, anyYield_of_not_isYield rfl]
    rfl
  | item hvalue hindex _ hnew =>
    refine .of_silent (hbinary rfl rfl ?_ ?_) (Limits.all_literal? hnew)
    · exact Expr.silent_of_literal? hvalue
    · exact Expr.silent_of_constant? hindex
  | slice hvalue hlower hupper hstep _ hnew =>
    refine .of_silent (hbinary rfl rfl (Expr.silent_of_literal? hvalue) (Expr.all_iff.mpr ⟨rfl, ?_⟩))
      (Limits.all_literal? hnew)
    simp only [Expr.parts, Expr.children, forall_mem_append]
    exact ⟨silent_of_sliceBound? hlower, silent_of_sliceBound? hupper, silent_of_sliceBound? hstep⟩
  | compared hleft hright _ hnew =>
    refine .of_silent (hbinary rfl rfl ?_ ?_) (Limits.all_literal? hnew)
    · exact Expr.silent_of_literal? hleft
    · exact Expr.silent_of_literal? hright
  | identical hsame hnew =>
    obtain ⟨hleft, hright⟩ := silent_of_identity? hsame
    exact .of_silent (hbinary rfl rfl hleft hright) (Limits.all_literal? hnew)
  | searched hright hnew =>
    obtain ⟨w, hw⟩ := literal?_of_searched? hright
    refine Expr.Rebuilds.keepsYields (.compare (.refl _) (.cons ?_ .nil))
    exact .of_silent (Expr.silent_of_literal? hw) (Limits.all_literal? hnew)

theorem Unrolling.Literals.keeps_instances {literals} (h : Literals limits literals) (item : Expr)
    (id : Ident) (p : Places) :
    (p.dropped = false → (expr item).HasYield p → Node.AnyYield p ((instances item id literals).map .expr)) ∧
      (p.items = true → Node.AnyYield p ((instances item id literals).map .expr) → (expr item).HasYield p) := by
  have hinstance : ∀ l ∈ literals, item.KeepsYields (item.substitute [(id, l)]) := by
    intro l hl
    refine Expr.keepsYields_substitute (fun q hq => ?_) item
    rw [mem_singleton.mp hq]
    exact h.all l hl
  constructor
  · intro hp hitem
    obtain ⟨l, rest, rfl⟩ := exists_cons_of_ne_nil h.1
    have hfirst := (hinstance l mem_cons_self p).lost hp (anyYield_cons.mpr (.inl hitem))
    rw [instances, map_cons, map_cons, anyYield_cons]
    simpa using Or.inl hfirst
  · rintro hp ⟨node, hnode, hyield⟩
    obtain ⟨new, hnew, rfl⟩ := mem_map.mp hnode
    obtain ⟨l, hl, rfl⟩ := mem_map.mp hnew
    simpa using (hinstance l hl p).gained hp (anyYield_cons.mpr (.inl hyield))

theorem Unrolling.Unrolled.keepsYields (h : Unrolled limits e new) :
    e.KeepsYields new := by
  intro p
  -- the iterable is a constant, so that only the items count
  have hitems : ∀ {e target iter v items}, iter.constant? = some v →
      (expr e).isYield = false →
      e.counted p = (if p.headers then ([⟨target, iter, [], false⟩].take 1).map Generator.iter else []) ++
        (if p.items then items else []) →
      (Node.AnyYield p [.expr e] ↔ p.items = true ∧ Node.AnyYield p (items.map .expr)) := by
    intro e target iter v items hiter hyield hcounted
    have hsilent : ¬ (expr iter).HasYield p := (Expr.silent_of_constant? hiter).not_hasYield
    rw [anyYield_of_not_isYield hyield, hcounted]
    cases p.headers <;> cases p.items <;> simp [hsilent]
  cases h with
  | @list pos target iter item id v literals _ hiter _ hliterals
  | @set pos target iter item id v literals _ hiter _ hliterals =>
    obtain ⟨hlost, hgained⟩ := hliterals.keeps_instances item id p
    constructor
    · intro hp hyield
      rw [hitems hiter rfl rfl] at hyield
      exact (anyYield_of_not_isYield rfl).mpr (hlost hp (by simpa using hyield.2))
    · intro hp hyield
      rw [hitems hiter rfl rfl]
      exact ⟨hp, by simpa using hgained hp ((anyYield_of_not_isYield rfl).mp hyield)⟩
  | @dict pos target iter key value id v literals _ hiter _ _ hliterals =>
    obtain ⟨hlostKey, hgainedKey⟩ := hliterals.keeps_instances key id p
    obtain ⟨hlostValue, hgainedValue⟩ := hliterals.keeps_instances value id p
    have hdisplay : Node.AnyYield p [.expr ⟨pos, .dict (instances key id literals) (instances value id literals)⟩] ↔
        Node.AnyYield p ((instances key id literals).map .expr) ∨
          Node.AnyYield p ((instances value id literals).map .expr) := by
      obtain ⟨l, rest, rfl⟩ := exists_cons_of_ne_nil hliterals.1
      rw [anyYield_of_not_isYield rfl, ← anyYield_append, ← map_append]
      rfl
    constructor
    · intro hp hyield
      rw [hitems hiter rfl rfl] at hyield
      have hparts : (expr key).HasYield p ∨ (expr value).HasYield p := by simpa using hyield.2
      exact hdisplay.mpr (hparts.imp (hlostKey hp) (hlostValue hp))
    · intro hp hyield
      rw [hitems hiter rfl rfl]
      have hparts := (hdisplay.mp hyield).imp (hgainedKey hp) (hgainedValue hp)
      exact ⟨hp, by simpa using hparts⟩

theorem Expr.congruence_keepsYields : Congruence Expr.KeepsYields fun _ _ => True where
  refl := .refl
  trans h h' := fun p => (h p).trans (h' p)
  rebuilt := Expr.Rebuilds.keepsYields
  replaced h := by
    have hliterals : ∀ {args values}, Expr.literals? args = some values →
        ∀ c ∈ args, c.All .silent :=
      fun hargs => forall_mem_of_forall₂ (Expr.silent_literals.holds_items _ hargs)
    have hcall : ∀ {pos func args}, func.All .silent → (∀ c ∈ args, c.All .silent) →
        Expr.All .silent ⟨pos, .call func args []⟩ := by
      intro pos func args hfunc hargs
      refine Expr.all_iff.mpr ⟨rfl, fun c hc => ?_⟩
      simp only [Expr.parts, Expr.children, map_nil, append_nil, mem_cons] at hc
      rcases hc with rfl | hc
      · exact hfunc
      · exact hargs c hc
    cases h with
    | debug => exact .of_silent (Expr.silent_name _ _) (Expr.all_const rfl)
    | known _ _ hnew => exact .of_silent (Expr.silent_name _ _) (Limits.all_literal? hnew)
    | folded hnew => exact hnew.keepsYields
    | method hargs hnew =>
      refine .of_silent (hcall (Expr.all_iff.mpr ⟨rfl, fun c hc => ?_⟩) (hliterals hargs)) (Limits.all_literal? hnew)
      rw [mem_singleton.mp hc]
      exact Expr.all_iff.mpr ⟨rfl, fun c hc => by cases hc⟩
    | builtin _ hargs _ hnew =>
      exact .of_silent (hcall (Expr.silent_name _ _) (hliterals hargs)) (Limits.all_literal? hnew)
  revisited _ h := by
    cases h with
    | inlined _ hnew =>
      obtain ⟨callee, result, table, hinlines, htable, _, rfl⟩ := Inlining.inlined?_eq_some hnew
      have hsimple : ∀ q ∈ table, q.2.All .silent := fun q hq =>
        Inlining.silent_of_isSimple (Inlining.mem_of_bindArguments? htable hq).2
      refine .of_silent (Expr.all_iff.mpr ⟨rfl, fun c hc => ?_⟩)
        (((Inlining.silent_of_result? hinlines.returns).substitute hsimple).at _)
      -- all the operands of the call are in the table
      rcases mem_cons.mp hc with rfl | hc
      · exact Expr.silent_name _ _
      · obtain ⟨q, hq, rfl⟩ := mem_map.mp ((Inlining.perm_of_bindArguments? htable).mem_iff.mpr hc)
        exact hsimple q hq
  unrolled := Unrolling.Unrolled.keepsYields
  frame _ _ := trivial
  inside _ _ _ _ _ := trivial

/-! ### Removed statements -/

namespace Node

def tree : Node → List Node
  | expr e => e.nodes everywhere
  | stmt t => t.nodes everywhere
  | handler h => Handler.nodesList everywhere [h]

def Covers (all nodes : List Node) : Prop := ∀ node ∈ nodes, node.tree ⊆ all

namespace Covers

variable {all all' nodes nodes' : List Node}

theorem append (h : Covers all nodes) (h' : Covers all' nodes') : Covers (all ++ all') (nodes ++ nodes') := by
  intro node hnode
  rcases mem_append.mp hnode with hnode | hnode
  · exact subset_append_of_subset_left _ (h node hnode)
  · exact subset_append_of_subset_right _ (h' node hnode)

theorem stmts (ts : List Stmt) : Covers (Stmt.nodesList everywhere ts) (ts.map .stmt) := by
  induction ts with
  | nil => exact fun node hnode => by cases hnode
  | cons t ts ih =>
    have hfirst : Covers (t.nodes everywhere) [.stmt t] := fun node hnode => by
      rw [mem_singleton.mp hnode]
      exact Subset.refl _
    exact hfirst.append ih

theorem handlers (hs : List Handler) : Covers (Handler.nodesList everywhere hs) (hs.map .handler) := by
  induction hs with
  | nil => exact fun node hnode => by cases hnode
  | cons h hs ih =>
    obtain ⟨pos, type, name, body⟩ := h
    have hfirst : Covers (Handler.nodesList everywhere [⟨pos, type, name, body⟩])
        [.handler ⟨pos, type, name, body⟩] :=
      fun node hnode => by
        rw [mem_singleton.mp hnode]
        exact Subset.refl _
    have hall := hfirst.append ih
    rw [Handler.nodesList, Handler.nodesList, append_nil] at hall
    rw [Handler.nodesList]
    exact hall

end Covers

variable {node : Node}

variable {h : Handler}

theorem mem_tree_handler : node ∈ (handler h).tree ↔ node = .handler h ∨
    (∃ e ∈ h.type.toList, node ∈ e.nodes everywhere) ∨ ∃ s ∈ h.body, node ∈ s.nodes everywhere := by
  rw [tree, (Handler.nodesList_perm everywhere_handler [h]).mem_iff]
  simp [Stmt.nodesList_eq_flatMap]

theorem mem_parts_of_handler (hh : h ∈ t.handlers) :
    h.type.toList ⊆ t.exprs ∧ h.body ∈ t.bodies := by
  obtain ⟨pos, kind⟩ := t
  cases kind with
  | tryBlock body handlers orelse final =>
    have hbody : h.body ∈ handlers.map Handler.body := mem_map_of_mem hh
    exact ⟨fun e he => mem_flatMap.mpr ⟨h, hh, he⟩, by simp [Stmt.bodies, Stmt.blocks, hbody]⟩
  | _ => cases hh

theorem mem_parts_of_counted (hnode : node ∈ t.counted p) :
    (∃ e ∈ t.exprs, node = .expr e) ∨ (∃ h ∈ t.handlers, node = .handler h) ∨
      ∃ body ∈ t.bodies, ∃ s ∈ body, node = .stmt s := by
  obtain ⟨pos, kind⟩ := t
  cases kind <;> grind [Stmt.counted, Stmt.exprs, Stmt.handlers, Stmt.bodies, Stmt.blocks]

theorem covers_counted (p : Places) (node : Node) : Covers node.tree (node.counted p) := by
  intro child hchild found hfound
  cases node with
  | expr e =>
    obtain ⟨c, hc, rfl⟩ := mem_map.mp hchild
    exact Expr.mem_nodes_iff.mpr (.inr ⟨c, Expr.counted_subset_parts p e hc, hfound⟩)
  | handler h =>
    rcases mem_append.mp hchild with hchild | hchild
    · obtain ⟨e, he, rfl⟩ := mem_map.mp hchild
      exact mem_tree_handler.mpr (.inr (.inl ⟨e, he, hfound⟩))
    · obtain ⟨s, hs, rfl⟩ := mem_map.mp hchild
      exact mem_tree_handler.mpr (.inr (.inr ⟨s, hs, hfound⟩))
  | stmt t =>
    refine (Stmt.mem_nodes_iff everywhere_handler).mpr (.inr ⟨rfl, ?_⟩)
    rcases mem_parts_of_counted hchild with ⟨e, he, rfl⟩ | ⟨h, hh, rfl⟩ | ⟨body, hbody, s, hs, rfl⟩
    · exact .inr (.inl ⟨e, he, hfound⟩)
    · obtain ⟨htype, hbody⟩ := mem_parts_of_handler hh
      rcases mem_tree_handler.mp hfound with rfl | ⟨e, he, hfound⟩ | hfound
      · exact .inl ⟨h, hh, rfl⟩
      · exact .inr (.inl ⟨e, htype he, hfound⟩)
      · exact .inr (.inr ⟨h.body, hbody, hfound⟩)
    · exact .inr (.inr ⟨body, hbody, s, hs, hfound⟩)

theorem mem_tree_self (node : Node) : node ∈ node.tree := by
  cases node with
  | expr e => exact Expr.mem_nodes_self e
  | stmt t =>
    obtain ⟨pos, kind⟩ := t
    exact mem_cons_self
  | handler h =>
    obtain ⟨pos, type, name, body⟩ := h
    exact mem_cons_self

theorem HasYield.exists_mem_tree (h : node.HasYield p) : ∃ found ∈ node.tree, found.isYield = true := by
  induction h with
  | here h => exact ⟨_, mem_tree_self _, h⟩
  | inside hchild _ ih =>
    obtain ⟨found, hfound, hyield⟩ := ih
    exact ⟨found, covers_counted p _ _ hchild hfound, hyield⟩

theorem mustStay_of_isYield (h : node.isYield = true) : node.mustStay = true := by
  unfold isYield at h
  split at h
  · rfl
  · rfl
  · cases h

theorem Covers.not_anyYield {all nodes} (h : Covers all nodes) (hall : all.any mustStay = false)
    (p : Places) : ¬ AnyYield p nodes := by
  rintro ⟨node, hnode, hyield⟩
  obtain ⟨found, hfound, hyield⟩ := hyield.exists_mem_tree
  have hstay := any_eq_false.mp hall found (h node hnode hfound)
  exact hstay (mustStay_of_isYield hyield)

end Node

namespace DeadCode

variable {ts : List Stmt}

theorem not_anyYield_of_removable (h : removable ts = true) (p : Places) :
    ¬ Node.AnyYield p (ts.map .stmt) :=
  (Node.Covers.stmts ts).not_anyYield (by simpa [removable] using h) p

theorem not_anyYield_of_removableHandlers {hs} (h : removableHandlers hs = true) (p : Places) :
    ¬ Node.AnyYield p (hs.map .handler) :=
  (Node.Covers.handlers hs).not_anyYield (by simpa [removableHandlers] using h) p

theorem not_anyYield_of_doesNothing (h : doesNothing ts = true) (p : Places) :
    ¬ Node.AnyYield p (ts.map .stmt) := by
  rintro ⟨node, hnode, hyield⟩
  obtain ⟨t, ht, rfl⟩ := mem_map.mp hnode
  have hpass := all_eq_true.mp h t ht
  obtain ⟨pos, kind⟩ := t
  cases kind with
  | pass => exact anyYield_nil (anyYield_stmt.mp (anyYield_cons.mpr (.inl hyield)))
  | _ => cases hpass

end DeadCode

/-! ### Statements -/

namespace Generators

def correspondence : Correspondence where
  expr _ e new _ := e.KeepsYields new
  target _ e new _ := e.KeepsYields new
  stmts _ ts news _ := ∀ p, Node.Keeps p (ts.map .stmt) (news.map .stmt)

variable {s s' : State}

theorem keeps_header {new} (h : t.RebuildsHeader Expr.KeepsYields new) : Node.Keeps p [.stmt t] [.stmt new] := by
  refine .stmt ?_
  cases h with
  | function hdecorators hparams =>
    exact ((Expr.KeepsYields.exprs hdecorators).append (Expr.KeepsYields.exprs hparams.parts)).ite _
  | classDef hdecorators hbases hkeywords =>
    have hvalues := Keyword.forall₂_values hkeywords
    exact (((Expr.KeepsYields.exprs hdecorators).append (Expr.KeepsYields.exprs hbases)).append
      (Expr.KeepsYields.exprs hvalues)).ite _

theorem keeps_rebuilt {new} {B : List Stmt → List Stmt → Prop}
    (hB : ∀ {ts us}, B ts us → Node.Keeps p (ts.map .stmt) (us.map .stmt))
    (h : t.Rebuilds Expr.KeepsYields Expr.KeepsYields B new) : Node.Keeps p [.stmt t] [.stmt new] := by
  have hoption : ∀ {o new}, Option.Rel Expr.KeepsYields o new → Node.Keeps p (o.toList.map .expr)
      (new.toList.map .expr) :=
    fun h => Expr.KeepsYields.exprs (forall₂_toList h)
  cases h with
  | same => exact .refl _
  | header h => exact keeps_header h
  | ret h => exact .stmt (hoption h)
  | delete h => exact .stmt (Expr.KeepsYields.exprs h)
  | assign h h' => exact .stmt ((Expr.KeepsYields.exprs h).append (h' p))
  | augAssign h h' => exact .stmt ((h p).append (h' p))
  | forLoop htarget hiter h h' => exact .stmt (((((htarget p).ite _).append (hiter p)).append (hB h)).append (hB h'))
  | whileLoop htest h h' | cond htest h h' => exact .stmt (((htest p).append (hB h)).append (hB h'))
  | withBlock hitems h =>
    refine .stmt (.append ?_ (hB h))
    induction hitems with
    | nil => exact .refl []
    | cons hitem _ ih =>
      exact ((hitem.context p).append (Expr.KeepsYields.exprs (forall₂_toList hitem.target))).append ih
  | raise h h' => exact .stmt ((hoption h).append (hoption h'))
  | tryBlock h hhandlers h' hfinal =>
    refine .stmt (((((hB h).append ?_)).append (hB h')).append (hB hfinal))
    induction hhandlers with
    | nil => exact .refl []
    | @cons old new _ _ hhandler _ ih =>
      have hparts := (hoption hhandler.type).append (hB hhandler.body)
      have hfirst : Node.Keeps p [.handler old] [.handler new] :=
        (Node.Keeps.of_iff anyYield_handler).trans (hparts.trans (.of_iff anyYield_handler.symm))
      exact hfirst.append ih
  | expr h => exact .stmt (h p)

theorem rebuilding : correspondence.Rebuilding (fun (_ : Unit) _ => True) (fun _ => True) Expr.KeepsYields
    Expr.KeepsYields fun ts us => ∀ p, Node.Keeps p (ts.map .stmt) (us.map .stmt) := by
  refine .of_plain rfl (fun _ _ => .refl _) (fun h h' p => (h p).trans (h' p)) (fun h h' p => ?_)
    (fun h p => keeps_rebuilt (fun h => h p) h) (fun h p => ?_) fun h p => ?_
  · rw [map_append, map_append]
    exact (h p).append (h' p)
  · cases h with
    | none => exact .refl _
    | rest before dropped _ hremovable =>
      refine .of_iff ?_
      have hdropped := not_anyYield_of_removable hremovable p
      simp [hdropped]
  · refine (h p).trans (.of_iff ?_)
    rw [map_cons, map_nil, anyYield_stmt]
    rfl

theorem lawful_correspondence : correspondence.Bodies := rebuilding.bodies

/-! ### The passes -/

theorem step_inPlaceOf {body} (h : ∀ p, Node.Keeps p [.stmt t] (body.map .stmt)) :
    correspondence.step s t (inPlaceOf t body) s' := by
  unfold inPlaceOf
  split
  · rename_i hempty
    rw [isEmpty_iff.mp hempty] at h
    intro p
    refine (h p).trans (.of_iff ?_)
    rw [map_cons, map_nil, anyYield_stmt]
    rfl
  · exact h

variable {step : StmtStep}

/-- Only the target of a loop over nothing is dropped without a look at it. -/
theorem step_discards {removed} (h : DeadCode.Discards t removed step) : correspondence.step s t step s' := by
  have htest : ∀ {test v}, test.constant? = some v → ∀ p, ¬ (expr test).HasYield p :=
    fun h _ => (Expr.silent_of_constant? h).not_hasYield
  cases h with
  | always hconstant _ hremovable | never hconstant _ hremovable | idleWhile hconstant _ hremovable =>
    refine step_inPlaceOf fun p => .of_iff ?_
    rw [anyYield_stmt]
    simp [htest hconstant p, not_anyYield_of_removable hremovable p]
  | idleFor hconstant hremovable =>
    refine step_inPlaceOf fun p => ⟨fun hp => ?_, fun _ horelse => ?_⟩
    · rw [anyYield_stmt]
      simp [hp, htest hconstant p, not_anyYield_of_removable hremovable p]
    · rw [anyYield_stmt]
      simp [horelse]
  | negated hbody =>
    rename_i pos test body orelse _
    intro p
    have htest : Node.Keeps p [.expr test] [.expr (test.withKind (.unaryOp .not test))] :=
      .of_iff anyYield_unaryOp.symm
    have hblocks : Node.Keeps p (body.map .stmt ++ orelse.map .stmt) (orelse.map .stmt ++ List.map .stmt []) :=
      .of_iff (by simp [not_anyYield_of_doesNothing hbody p])
    have hall := htest.append hblocks
    rw [← append_assoc, ← append_assoc] at hall
    exact .stmt hall
  | condElse horelse | whileElse horelse | forElse horelse | tryWithoutElse horelse =>
    refine fun p => .of_iff ?_
    rw [map_cons, map_cons, map_nil, anyYield_stmt, anyYield_stmt]
    simp [not_anyYield_of_doesNothing horelse p]
  | tryFinal hbody hother hremovable | tryElse hbody hother hremovable =>
    refine step_inPlaceOf fun p => .of_iff ?_
    rw [anyYield_stmt]
    simp [not_anyYield_of_doesNothing hbody p, not_anyYield_of_doesNothing hother p,
      not_anyYield_of_removableHandlers hremovable p]
  | tryMoved hbody hremovable =>
    refine fun p => .of_iff ?_
    rw [map_cons, map_cons, map_nil, anyYield_stmt, anyYield_stmt]
    simp [not_anyYield_of_doesNothing hbody p, not_anyYield_of_removableHandlers hremovable p]

theorem anyYield_iterations (t : Stmt) {target} (htarget : target.All .silent) (body : List Stmt)
    {literals} (hliterals : ∀ l ∈ literals, l.All .silent) :
    Node.AnyYield p ((Unrolling.iterations t target body literals).map .stmt) ↔
      literals ≠ [] ∧ Node.AnyYield p (body.map .stmt) := by
  induction literals with
  | nil => simp [Unrolling.iterations]
  | cons l literals ih =>
    have hassign : ¬ (stmt (t.withKind (.assign [target] l))).HasYield p := by
      intro hyield
      have hparts := anyYield_stmt.mp (anyYield_cons.mpr (.inl hyield))
      simp [Stmt.withKind, htarget.not_hasYield, (hliterals l mem_cons_self).not_hasYield] at hparts
    have hcons : Unrolling.iterations t target body (l :: literals) =
        t.withKind (.assign [target] l) :: body ++ Unrolling.iterations t target body literals := rfl
    rw [hcons, map_append, map_cons, anyYield_append, anyYield_cons,
      ih fun l' hl' => hliterals l' (mem_cons_of_mem _ hl')]
    simp only [hassign, false_or, ne_eq, reduceCtorEq, not_false_iff, true_and]
    exact or_iff_left_of_imp And.right

theorem step_unrolls (h : Unrolling.Unrolls limits t step) :
    correspondence.step s t step s' := by
  cases h with
  | keep => exact fun p => .refl _
  | unroll htarget hiter hitems hliterals =>
    rename_i pos target iter id body orelse items literals _
    have hname := Expr.silent_of_name? htarget
    have hsilent : ∀ l ∈ literals, l.All .silent := by
      intro l hl
      obtain ⟨item, _, hitem⟩ := mem_of_mapM hliterals hl
      exact Limits.all_literal? hitem
    have hne := ne_nil_of_mapM hliterals hitems
    refine fun p => .of_iff ?_
    rw [map_cons, map_nil, anyYield_stmt, map_append, anyYield_append,
      anyYield_iterations _ hname body hsilent]
    have hconstant := (Expr.silent_of_constant? hiter).not_hasYield (p := p)
    cases hp : p.dropped <;> simp [hp, hname.not_hasYield, hconstant, hne]

/-- The values of a dictionary without keys are dropped without a look at them. -/
theorem keepsYields_constant {iter} (h : Iterable.Constant limits iter new) : iter.KeepsYields new := by
  cases h with
  | display hnew hiter =>
    have hsilent := fun p => (Limits.all_literal? hnew).not_hasYield (p := p)
    rcases hiter with ⟨values, hkind⟩ | ⟨w, hw⟩
    · obtain ⟨pos, kind⟩ := iter
      cases hkind
      refine fun p => ⟨fun hp => ?_, fun _ hyield => ?_⟩
      · rw [anyYield_of_not_isYield rfl]
        simp [Expr.counted, hp]
      · exact absurd (by simpa using hyield) (hsilent p)
    · exact .of_silent (Expr.silent_of_literal? hw) (Limits.all_literal? hnew)
  | range hargs hnew =>
    refine .of_silent (Expr.all_iff.mpr ⟨rfl, fun c hc => ?_⟩) (Limits.all_literal? hnew)
    simp only [Expr.parts, Expr.children, map_nil, append_nil, mem_cons] at hc
    rcases hc with rfl | hc
    · exact Expr.silent_name _ _
    · obtain ⟨bound, _, hbound⟩ := exists_of_forall₂ (forall₂_of_mapM hargs).flip hc
      obtain ⟨v, hv, _⟩ := Option.bind_eq_some_iff.mp hbound
      exact Expr.silent_of_constant? hv

theorem passes_correspondence (ctx : Context) : correspondence.Passes (fun _ => True) ctx := by
  intro p hp t _
  refine (ctx.stage.changes_leaveStmt hp).imp fun step s' h => ?_
  cases h.1 with
  | keep => exact fun p => .refl _
  | iterable h =>
    cases h with
    | keep => exact fun p => .refl _
    | iter hnew =>
      refine fun p => .stmt ?_
      exact (((Node.Keeps.refl _).append (keepsYields_constant hnew p)).append (.refl _)).append (.refl _)
  | unrolled h => exact step_unrolls h
  | discarded h => exact step_discards h

theorem exprs_correspondence (n : Nat) (ctx : Context) : correspondence.Exprs (visitor n) (fun _ => True) ctx where
  expr e _ := (Expr.congruence_keepsYields.visitor n ctx _ e trivial).imp fun _ _ h => h.1
  target e _ :=
    (Expr.congruence_keepsYields.target (Expr.congruence_keepsYields.visitor n) trivial e).imp fun _ _ h => h.1

/-! ### Definitions -/

theorem Shape.admitsCalls_silent : Shape.silent.AdmitsCalls := ⟨fun _ => rfl, fun _ _ => rfl, fun _ _ _ => rfl⟩

theorem not_hasYield_auxiliary (h : Specialize.Auxiliary .silent t) : ¬ (stmt t).HasYield p := by
  intro hyield
  have hparts := anyYield_stmt.mp (anyYield_cons.mpr (.inl hyield))
  cases h with
  | assign htarget hvalue => simp [htarget.not_hasYield, hvalue.not_hasYield] at hparts
  | delete htarget => simp [htarget.not_hasYield] at hparts
  | expr hvalue => simp [hvalue.not_hasYield] at hparts

theorem keeps_redefines {P : List Stmt → List Stmt → Prop} {news} (h : t.Redefines P news) :
    Node.Keeps p [.stmt t] (news.map .stmt) := by
  cases h with
  | function h =>
    obtain ⟨body, _, rfl⟩ := h
    exact .stmt (.refl _)
  | classDef => exact .stmt (.refl _)
  | pair hslow hfast =>
    rename_i pos fn slow fast guards copied kept
    obtain ⟨body, _, rfl⟩ := hslow
    obtain ⟨body', _, rfl⟩ := hfast
    have hheader : Node.AnyYield p [.stmt ⟨pos, .functionDef fn⟩] ↔
        Node.AnyYield p [.stmt ⟨pos, .functionDef { fn with body := body }⟩] := by
      rw [anyYield_stmt, anyYield_stmt]
      rfl
    refine .of_iff (hheader.trans ⟨?_, ?_⟩)
    · intro hyield
      exact anyYield_cons.mpr (.inl (by simpa using hyield))
    · rintro ⟨node, hnode, hyield⟩
      obtain ⟨t, ht, rfl⟩ := mem_map.mp hnode
      rcases Specialize.cases_definitions Shape.admitsCalls_silent ht with rfl | rfl | haux
      · exact anyYield_cons.mpr (.inl hyield)
      · -- the fast version has the same defaults
        have hparts := anyYield_stmt.mp (anyYield_cons.mpr (.inl hyield))
        rw [anyYield_stmt]
        cases hp : p.headers with
        | false => simp [hp] at hparts
        | true =>
          simp only [Stmt.counted, hp, if_true, map_nil, nil_append] at hparts ⊢
          exact anyYield_append.mpr (.inr hparts)
      · exact absurd hyield (not_hasYield_auxiliary haux)

theorem ensures_redefined {n : Nat} {ctx}
    (hbody : ∀ ctx s ts, Ensures ((visitor n).body true ts) (fun _ => True) (correspondence.stmts s ts) ctx s)
    (ht : t.isScope = true) : Ensures ((visitor n).visitStmt t) (fun _ => True) (fun news _ =>
      ∃ new, t.RebuildsHeader Expr.KeepsYields new ∧
        new.Redefines (fun ts us => ∀ p, Node.Keeps p (ts.map .stmt) (us.map .stmt)) news) ctx s := by
  have hvisitor := Expr.congruence_keepsYields.visitor n
  refine (Expr.congruence_keepsYields.visitDefinition hvisitor trivial (fun ts p => .refl _)
    (fun h h' p => (h p).trans (h' p)) (fun ctx s ts _ => hbody ctx s ts) ht fun _ _ _ => trivial).imp ?_
  exact fun news s' h => h.1

end Generators

open Generators

theorem visitor_keeps (n : Nat) (ctx : Context) (t : Stmt) (s : State) :
    Ensures ((visitor n).stmt t) (fun _ => True) (correspondence.stmts s [t]) ctx s := by
  induction n generalizing t s ctx with
  | zero => exact trivial
  | succ n ih =>
    cases ht : t.isScope with
    | false =>
      exact rebuilding.visitStmt (exprs_correspondence n ctx) (ih ctx) (passes_correspondence ctx)
        (fun _ _ _ _ => trivial) ht
    | true =>
      have hbody := fun ctx s ts => Correspondence.ensures_body lawful_correspondence (ih ctx) true ts (s := s)
      refine (ensures_redefined hbody ht).imp fun news s' h p => ?_
      obtain ⟨new, hheader, hnews⟩ := h
      exact (keeps_header hheader).trans (keeps_redefines hnews)

/-- The places of the scope of a function itself; `headers` tells whether those of nested scopes that are evaluated
around them belong to it. -/
def Places.own (headers : Bool) : Places := ⟨headers, true, false⟩

/-- Whatever becomes of a function, the first definition in its place is a version of it without guards.  If the
function has a `yield` in its own scope, so has this version, unless all of them are in the targets of loops or among
the values of dictionaries without keys.  If this version has one, so has the function, in its own scope or in the
item of a comprehension. -/
theorem visitor_generators (n : Nat) (pos : Position) (fn : FunctionDef)
    (headers : Bool) (ctx : Context) (s : State) :
    Ensures ((visitor n).stmt ⟨pos, .functionDef fn⟩) (fun _ => True) (fun ts _ =>
      ∃ version rest, ts = ⟨pos, .functionDef version⟩ :: rest ∧ version.name = fn.name ∧
        (Stmt.AnyYield ⟨headers, false, false⟩ fn.body → Stmt.AnyYield (.own headers) version.body) ∧
        (Stmt.AnyYield (.own headers) version.body → Stmt.AnyYield ⟨headers, true, true⟩ fn.body)) ctx s := by
  cases n with
  | zero => exact trivial
  | succ n =>
    have hbody := fun ctx s ts =>
      Correspondence.ensures_body lawful_correspondence (visitor_keeps n ctx) true ts (s := s)
    have hfew : Places.Sub ⟨headers, false, false⟩ (.own headers) := ⟨rfl, fun _ => rfl, fun hp => hp⟩
    have hall : (Places.own headers).Sub ⟨headers, true, true⟩ := ⟨rfl, fun hp => hp, fun _ => rfl⟩
    have hkept : ∀ {old new : List Stmt}, (∀ p, Node.Keeps p (old.map .stmt) (new.map .stmt)) →
        (Stmt.AnyYield ⟨headers, false, false⟩ old → Stmt.AnyYield (.own headers) new) ∧
        (Stmt.AnyYield (.own headers) new → Stmt.AnyYield ⟨headers, true, true⟩ old) := by
      intro old new h
      constructor
      · intro hold
        have hnew : Stmt.AnyYield ⟨headers, false, false⟩ new := (h _).lost rfl hold
        exact hnew.mono hfew
      · intro hnew
        exact (h _).gained rfl (hnew.mono hall)
    refine (ensures_redefined hbody rfl).imp fun news s' h => ?_
    obtain ⟨new, hheader, hnews⟩ := h
    cases hheader with
    | function =>
      cases hnews with
      | function hversion =>
        obtain ⟨body, hold, rfl⟩ := hversion
        exact ⟨_, [], rfl, rfl, hkept hold⟩
      | pair hslow =>
        obtain ⟨body, hold, rfl⟩ := hslow
        exact ⟨_, _, rfl, rfl, hkept hold⟩

set_option maxRecDepth 100000 in
/-- The loop of `def f(): for x[yield] in (): pass` is dropped, and with it the only `yield` of the function. -/
theorem optimize_generator_lost :
    let target : Expr := ⟨{}, .subscript ⟨{}, .name "x"⟩ ⟨{}, .yield none⟩⟩
    let f : FunctionDef := ⟨"f", ⟨[], none, [], [], none, []⟩,
      [⟨{}, .forLoop target ⟨{}, .tuple []⟩ [⟨{}, .pass⟩] [] false⟩], [], false⟩
    Stmt.AnyYield (.own true) f.body ∧ ∃ version, (optimize {} "m.py" none ⟨[⟨{}, .functionDef f⟩]⟩).result =
      .ok ⟨[⟨{}, .functionDef version⟩]⟩ ∧ ¬ Stmt.AnyYield (.own true) version.body := by
  intro target f
  constructor
  · have hyield : (expr ⟨{}, .yield none⟩).HasYield (.own true) := .here rfl
    have htarget : (expr target).HasYield (.own true) := .inside (.tail _ (.head _)) hyield
    exact ⟨_, .head _, .inside (.head _) htarget⟩
  · refine ⟨{ f with body := [⟨{}, .pass⟩] }, by rfl, ?_⟩
    simp [Stmt.AnyYield, hasYield_iff, isYield, counted]

set_option maxRecDepth 100000 in
/-- The comprehension of `def f(): return [(yield i) for i in (1,)]` becomes `[(yield 1)]`, which is in the scope of
the function. -/
theorem optimize_generator_gained :
    let item : Expr := ⟨{}, .yield (some ⟨{}, .name "i"⟩)⟩
    let one : Expr := ⟨{}, .const (.int 1)⟩
    let f : FunctionDef := ⟨"f", ⟨[], none, [], [], none, []⟩,
      [⟨{}, .ret (some ⟨{}, .listComp item [⟨⟨{}, .name "i"⟩, ⟨{}, .tuple [one]⟩, [], false⟩]⟩)⟩], [], false⟩
    ¬ Stmt.AnyYield (.own true) f.body ∧ ∃ version, (optimize {} "m.py" none ⟨[⟨{}, .functionDef f⟩]⟩).result =
      .ok ⟨[⟨{}, .functionDef version⟩]⟩ ∧ Stmt.AnyYield (.own true) version.body := by
  intro item one f
  constructor
  · simp [f, one, Places.own, Stmt.AnyYield, hasYield_iff, isYield, counted, Expr.counted, Expr.children]
  · let display : Expr := ⟨{}, .list [⟨{}, .yield (some one)⟩]⟩
    have hyield : (expr ⟨{}, .yield (some one)⟩).HasYield (.own true) := .here rfl
    have hdisplay : (expr display).HasYield (.own true) := .inside (.head _) hyield
    exact ⟨{ f with body := [⟨{}, .ret (some display)⟩] }, by rfl, _, .head _, .inside (.head _) hdisplay⟩

end Speculator
