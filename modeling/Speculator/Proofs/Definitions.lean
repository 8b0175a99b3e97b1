import Mathlib.Data.List.ReduceOption
import Speculator.Optimize
import Speculator.Proofs.Statements

/-!
# Defaults of specialized functions

The defaults of a function are evaluated when its definition is executed.  A specialized function is defined twice, by
definitions that share one header: the statements that define it evaluate all its defaults, and then all of them again
(`visitor_defaults`).
-/

namespace Speculator

open List Visit

variable {v : Visitor} {ctx : Context} {s : State}

def Params.evaluated (p : Params) : List Expr := p.defaults ++ p.kwDefaults.reduceOption

def Stmt.defaults (t : Stmt) : List Expr :=
  match t.kind with
  | .functionDef fn => fn.params.evaluated
  | _ => []

def Visitor.Yields (v : Visitor) (ctx : Context) (e new : Expr) : Prop := ∃ s s', v.expr e ctx s = .ok new s'

theorem forall₂_reduceOption {α β : Type} {R : α → β → Prop} {as : List (Option α)} {bs : List (Option β)}
    (h : Forall₂ (Option.Rel R) as bs) : Forall₂ R as.reduceOption bs.reduceOption := by
  induction h with
  | nil => exact .nil
  | cons h _ ih =>
    cases h with
    | none => exact ih
    | some h => exact .cons h ih

namespace Visitor

theorem ensures_yields (e : Expr) : Ensures (v.expr e) (fun _ => True) (fun new _ => v.Yields ctx e new) ctx s := by
  unfold Ensures
  cases hrun : v.expr e ctx s with
  | ok new s' => exact ⟨s, s', hrun⟩
  | error failure s' => trivial

theorem ensures_params (p : Params) : Ensures (v.params p) (fun _ => True)
    (fun new _ => Forall₂ (v.Yields ctx) p.evaluated new.evaluated) ctx s := by
  have hoption : ∀ (e : Option Expr) s, Ensures (v.option e) (fun _ => True)
      (fun new _ => Option.Rel (v.Yields ctx) e new) ctx s := by
    intro e s
    cases e with
    | none => exact .pure .none
    | some e =>
      change Ensures (some <$> v.expr e) _ _ ctx s
      rw [map_eq_pure_bind]
      exact (ensures_yields e).bind fun new s' h => .pure (.some h)
  have hdefaults : Ensures (p.defaults.mapM v.expr) (fun _ => True)
      (fun news _ => Forall₂ (v.Yields ctx) p.defaults news ∧ True) ctx s :=
    ensures_mapM trivial fun e _ s' _ => (ensures_yields e).imp fun _ _ h => ⟨h, trivial⟩
  have hkwDefaults : ∀ s, Ensures (p.kwDefaults.mapM v.option) (fun _ => True)
      (fun news _ => Forall₂ (Option.Rel (v.Yields ctx)) p.kwDefaults news ∧ True) ctx s :=
    fun s => ensures_mapM trivial fun e _ s' _ => (hoption e s').imp fun _ _ h => ⟨h, trivial⟩
  refine hdefaults.bind fun defaults s1 h1 => (hkwDefaults s1).bind fun kwDefaults s2 h2 => .pure ?_
  exact rel_append h1.1 (forall₂_reduceOption h2.1)

theorem ensures_functionStage {stage} {allowGuards : Bool} {scope fn} :
    Ensures (v.functionStage stage allowGuards scope fn) (fun _ => True)
      (fun r _ => r.1.params = fn.params) ctx s := by
  unfold functionStage
  refine ensures_any.bind fun vars s1 _ => ensures_any.bind fun r s2 _ => ?_
  exact .pure rfl

end Visitor

def Specialize.IsPair (ts : List Stmt) : Prop :=
  ∃ slow fast guards copied kept, ts = Specialize.definitions slow fast guards copied kept

/-- What the definition of a function becomes: one with the same defaults, or the statements of a specialized
function, which evaluate them twice. -/
def Specialize.Defines (defaults : List Expr) : Stmt ⊕ List Stmt → Prop
  | .inl new => new.isInert = true ∧ new.defaults = defaults
  | .inr ts => Specialize.IsPair ts ∧ ts.flatMap Stmt.defaults = defaults ++ defaults

theorem Specialize.defaults_definitions (slow : Stmt) (fast : FunctionDef) (guards : GuardSet)
    (copied : List (Ident × String)) (kept : Ident) :
    (Specialize.definitions slow fast guards copied kept).flatMap Stmt.defaults =
      slow.defaults ++ fast.params.evaluated := by
  unfold Specialize.definitions
  extract_lets pos name code body patched
  have hpatched : patched.flatMap Stmt.defaults = [] := by
    simp only [patched]
    split <;> rfl
  simp only [flatMap_append, flatMap_cons, flatMap_nil, hpatched]
  simp [Stmt.defaults, Specialize.assign]

namespace Visitor

variable {fn : FunctionDef}

theorem ensures_function_defaults {pos : Position} : Ensures (v.function ⟨pos, .functionDef fn⟩ fn) (fun _ => True)
    (fun r _ => Specialize.Defines fn.params.evaluated r) ctx s := by
  -- no stage touches the header, so that both versions have the defaults of the function
  refine ensures_function_of_stages (I := fun version _ _ => version.params = fn.params) (fun _ _ => ⟨rfl, rfl⟩)
    (fun _ _ => rfl) (fun _ _ h => ensures_functionStage.imp fun _ _ hr => hr.trans h)
    (fun h _ => ⟨rfl, congrArg Params.evaluated h⟩) fun hslow hfast => ?_
  unfold Specialize.specialize
  refine ensures_any.bind fun _ s1 _ => ensures_any.bind fun _ s2 _ => ensures_any.bind fun kept s3 _ => ?_
  refine .pure ⟨⟨_, _, _, _, _, rfl⟩, ?_⟩
  rw [Specialize.defaults_definitions, hfast, ← hslow]
  rfl

end Visitor

/-- The visit of a function definition gives one definition, which evaluates each default once, or the statements of a
specialized function.  These evaluate each default in the order of the header, and then each of them once more; so
they evaluate the defaults once only if there are none. -/
theorem visitor_defaults (depth : Nat) (pos : Position) (fn : FunctionDef) (ctx : Context) (s : State) :
    Ensures ((visitor (depth + 1)).stmt ⟨pos, .functionDef fn⟩) (fun _ => True) (fun ts _ =>
      ∃ defaults, List.Forall₂ ((visitor depth).Yields ctx) fn.params.evaluated defaults ∧
        ((∃ new, ts = [new] ∧ new.defaults = defaults) ∨
          (Specialize.IsPair ts ∧ ts.flatMap Stmt.defaults = defaults ++ defaults ∧
            (ts.flatMap Stmt.defaults = defaults ↔ fn.params.evaluated = [])))) ctx s := by
  refine Ensures.atStmt ?_ fun _ _ _ _ => trivial
  rw [ensures_read_bind]
  have hheader : Ensures ((visitor depth).stmtHeader ⟨pos, .functionDef fn⟩) (fun _ => True) (fun t _ => ∃ fn',
      t = ⟨pos, .functionDef fn'⟩ ∧
        List.Forall₂ ((visitor depth).Yields ctx) fn.params.evaluated fn'.params.evaluated)
      ctx s :=
    Visitor.ensures_any.bind fun decorators s₁ _ => (Visitor.ensures_params fn.params).bind fun params s₂ h =>
      .pure ⟨_, rfl, h⟩
  refine hheader.bind fun t s₁ h₁ => Visitor.ensures_any.bind fun _ s₂ _ => ?_
  obtain ⟨fn', rfl, hyields⟩ := h₁
  have hinside : Ensures ((visitor depth).stmtInside ⟨pos, .functionDef fn'⟩) (fun _ => True)
      (fun r _ => Specialize.Defines fn'.params.evaluated r) ctx s₂ := by
    refine Visitor.ensures_stmtInside rfl ⟨rfl, rfl⟩ (fun _ heq => ?_) fun _ heq => ?_
    · cases heq
      exact Visitor.ensures_function_defaults
    · cases heq
  refine hinside.bind fun r s₃ h₃ => ?_
  cases r with
  | inl new => exact Visitor.ensures_leaveStmt_of_inert h₃.1 ⟨_, hyields, .inl ⟨new, rfl, h₃.2⟩⟩
  | inr ts =>
    -- a list is its own double only if it is empty
    refine .pure ⟨_, hyields, .inr ⟨h₃.1, h₃.2, ?_⟩⟩
    rw [h₃.2, List.append_right_eq_self, ← List.length_eq_zero_iff, ← List.length_eq_zero_iff, hyields.length_eq]

set_option maxRecDepth 100000 in
/-- The default of `def f(a=g()): return len("abc")` is evaluated twice. -/
example :
    let g : Expr := ⟨{}, .call ⟨{}, .name "g"⟩ [] []⟩
    let len : Expr := ⟨{}, .call ⟨{}, .name "len"⟩ [⟨{}, .const (.str "abc")⟩] []⟩
    let f : FunctionDef := ⟨"f", ⟨["a"], none, [], [], none, [g]⟩, [⟨{}, .ret (some len)⟩], [], false⟩
    ((optimize {} "m.py" none ⟨[⟨{}, .functionDef f⟩]⟩).result.toOption.map
      fun new => (new.body.flatMap Stmt.defaults).length) = some 2 := by
  decide +kernel

end Speculator
