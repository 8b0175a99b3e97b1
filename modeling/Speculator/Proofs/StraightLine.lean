import Speculator.Proofs.ClosedExpressions
import Speculator.Proofs.Exceptions
import Speculator.Proofs.Specialization

/-!
# Straight-line arithmetic

Modules that are sequences of assignments of arithmetic to names.  What optimizing such a module gives is described
without the traversal: each read is replaced by the value that is known there, each operation on constants is folded
(`Expr.simplified`), and the value of each assignment is known afterwards (`Assignment.simplify`).

A simplified expression is a fixed point: a literal has nothing to replace, and an operation that was not folded has
the same operands the next time.  So the two runs know the same values after each assignment, provided that they agree
on the variables of the module.
-/

namespace Speculator

open List Visit Propagation Folding

variable {v : Value} {config : Config} {e new : Expr} {ctx : Context} {s : State} {scope : Scope}
  {enclosing : List Scope} {known : Namespace} {as : List Assignment}

/-! ### Numbers -/

namespace Value

theorem isNumber_toValue (number : Numeric) : number.toValue.isNumber = true := by
  cases number <;> rfl

theorem isNumber_unary {op operand} (h : unary op operand = .ok v) : v.isNumber = true := by
  unfold unary at h
  split at h <;> cases h
  · rfl
  · rfl
  · rfl
  · rfl
  · rfl
  · exact isNumber_toValue _

theorem isNumber_binary {op left right} (hleft : left.isNumber = true)
    (hright : right.isNumber = true) (h : binary op left right = .ok v) : v.isNumber = true := by
  have hnumeric : ∀ {w : Value}, w.isNumber = true → ∃ number, w.asNumeric? = some number := by
    intro w hw
    cases w with
    | bool | int | float | complex => exact ⟨_, rfl⟩
    | _ => cases hw
  obtain ⟨a, ha⟩ := hnumeric hleft
  obtain ⟨b, hb⟩ := hnumeric hright
  unfold binary at h
  extract_lets bools at h
  rw [ha, hb] at h
  cases hbools : bools with
  | some b =>
    rw [hbools] at h
    cases h
    rfl
  | none =>
    rw [hbools] at h
    change (Numeric.binary op a b).map Numeric.toValue = .ok v at h
    cases hresult : Numeric.binary op a b with
    | ok number =>
      rw [hresult] at h
      cases h
      exact isNumber_toValue number
    | error fault =>
      rw [hresult] at h
      cases h

theorem toExpr_of_isNumber (hv : v.isNumber = true) (pos : Position) : v.toExpr pos = ⟨pos, .const v⟩ := by
  cases v with
  | bool | int | float | complex => rfl
  | _ => cases hv

end Value

/-! ### Arithmetic -/

/-- The expressions that are made of numbers and names by operators. -/
inductive Expr.Arithmetic : Expr → Prop
  | const {pos v} (hv : v.isNumber = true) : Arithmetic ⟨pos, .const v⟩
  | name {pos id} : Arithmetic ⟨pos, .name id⟩
  | binOp {pos left right op} (hleft : left.Arithmetic) (hright : right.Arithmetic) :
    Arithmetic ⟨pos, .binOp left op right⟩
  | unaryOp {pos op operand} (hoperand : operand.Arithmetic) : Arithmetic ⟨pos, .unaryOp op operand⟩

namespace Folding

def fold? (limits : Limits) (e : Expr) : Option Expr :=
  match e.kind with
  | .binOp left op right => do
    let l ← left.constant?
    let r ← right.constant?
    let result ← binary? limits op l r
    limits.literal? result e.pos
  | .unaryOp op operand => foldUnary? limits e op operand
  | _ => none

def folded (config : Config) (e : Expr) : Expr := if config.constantFolding then (fold? config.limits e).getD e else e

end Folding

/-- The expression with its known reads replaced and its operations on constants folded. -/
def Expr.simplified (config : Config) (read : Ident → Option Value) : Expr → Expr
  | ⟨pos, .name id⟩ => (read id).elim ⟨pos, .name id⟩ (Value.toExpr pos)
  | ⟨pos, .binOp left op right⟩ =>
    Folding.folded config ⟨pos, .binOp (left.simplified config read) op (right.simplified config read)⟩
  | ⟨pos, .unaryOp op operand⟩ => Folding.folded config ⟨pos, .unaryOp op (operand.simplified config read)⟩
  | e => e

def ReadsNumbers (read : Ident → Option Value) : Prop := ∀ id v, read id = some v → v.isNumber = true

namespace Expr.Arithmetic

variable {limits : Limits} {read : Ident → Option Value}

theorem names_binOp (pos : Position) (left right : Expr) (op : BinaryOp) :
    Expr.names ⟨pos, .binOp left op right⟩ = left.names ++ right.names := by
  unfold Expr.names
  rw [Expr.nodes_everywhere, filterMap_cons_none rfl, ExprKind.nodes, filterMap_append]

theorem names_unaryOp (pos : Position) (op : UnaryOp) (operand : Expr) :
    Expr.names ⟨pos, .unaryOp op operand⟩ = operand.names := by
  unfold Expr.names
  rw [Expr.nodes_everywhere, filterMap_cons_none rfl, ExprKind.nodes]

theorem of_constant (he : e.Arithmetic) (hv : e.constant? = some v) : v.isNumber = true ∧ e.names = [] := by
  cases he with
  | const hnumber =>
    cases hv
    exact ⟨hnumber, rfl⟩
  | name | binOp => cases hv
  | unaryOp =>
    change ExprKind.scalar? _ = some v at hv
    unfold ExprKind.scalar? at hv
    split at hv
    · rename_i hkind
      cases hkind
    · rename_i hkind
      cases hkind
      split at hv
      · exact ⟨Value.isNumber_unary (toOption_eq_some hv), rfl⟩
      · cases hv
    · cases hv

theorem fold_eq_const (he : e.Arithmetic) (h : fold? limits e = some new) :
    ∃ w : Value, w.isNumber = true ∧ e.names = [] ∧ new = ⟨e.pos, .const w⟩ := by
  have hliteral : ∀ {w}, w.isNumber = true → e.names = [] → limits.literal? w e.pos = some new →
      ∃ w : Value, w.isNumber = true ∧ e.names = [] ∧ new = ⟨e.pos, .const w⟩ := by
    intro w hw hnames hnew
    rw [Limits.eq_toExpr_of_literal? hnew]
    exact ⟨w, hw, hnames, Value.toExpr_of_isNumber hw e.pos⟩
  cases he with
  | const | name => cases h
  | binOp hleft hright =>
    simp only [fold?, Option.bind_eq_bind, Option.bind_eq_some_iff] at h
    obtain ⟨l, hl, r, hr, result, hresult, hnew⟩ := h
    obtain ⟨hl, hleft⟩ := hleft.of_constant hl
    obtain ⟨hr, hright⟩ := hright.of_constant hr
    refine hliteral ?_ (by rw [names_binOp, hleft, hright]; rfl) hnew
    unfold binary? at hresult
    split at hresult
    · cases hresult
    · exact Value.isNumber_binary hl hr (toOption_eq_some hresult)
  | unaryOp hoperand =>
    change foldUnary? limits _ _ _ = some new at h
    unfold foldUnary? at h
    split at h
    · rename_i result hresult
      obtain ⟨w, hw, hresult⟩ := Option.bind_eq_some_iff.mp hresult
      refine hliteral ?_ ((names_unaryOp ..).trans (hoperand.of_constant hw).2) h
      unfold unary? at hresult
      split at hresult
      · exact Value.isNumber_unary (toOption_eq_some hresult)
      · cases hresult
    -- a negated comparison is not arithmetic
    · rename_i pos op operand _ _
      have hnone : negatedComparison? operand = none := by cases hoperand <;> rfl
      rw [hnone, ite_self] at h
      cases h

theorem folded_cases (he : e.Arithmetic) (config : Config) :
    (∃ w : Value, w.isNumber = true ∧ e.names = [] ∧ folded config e = ⟨e.pos, .const w⟩) ∨
      folded config e = e := by
  unfold folded
  split
  · cases hnew : fold? config.limits e with
    | some new =>
      obtain ⟨w, hw, hnames, rfl⟩ := he.fold_eq_const hnew
      exact .inl ⟨w, hw, hnames, rfl⟩
    | none => exact .inr rfl
  · exact .inr rfl

theorem simplified (he : e.Arithmetic) (config : Config) (hread : ReadsNumbers read) :
    (e.simplified config read).Arithmetic := by
  have hfolded : ∀ {e}, e.Arithmetic → (folded config e).Arithmetic := by
    intro e he
    rcases he.folded_cases config with ⟨w, hw, _, hnew⟩ | hkept
    · rw [hnew]
      exact .const hw
    · rw [hkept]
      exact he
  induction he with
  | const hv => exact .const hv
  | name =>
    rename_i pos id
    rw [Expr.simplified]
    cases hvalue : read id with
    | none => exact .name
    | some v =>
      have hv := hread id v hvalue
      rw [Option.elim_some, Value.toExpr_of_isNumber hv]
      exact .const hv
  | binOp _ _ ihleft ihright => exact hfolded (.binOp ihleft ihright)
  | unaryOp _ ih => exact hfolded (.unaryOp ih)

theorem simplified_folded (he : e.Arithmetic) (h : e.simplified config read = folded config e) :
    (folded config e).simplified config read = folded config e := by
  rcases he.folded_cases config with ⟨w, _, _, hnew⟩ | hkept
  · rw [hnew]
    rfl
  · rw [hkept, h, hkept]

theorem simplified_simplified (he : e.Arithmetic) (config : Config) (hread : ReadsNumbers read) :
    (e.simplified config read).simplified config read = e.simplified config read := by
  induction he with
  | const => rfl
  | name =>
    rename_i pos id
    simp only [Expr.simplified]
    cases hvalue : read id with
    | none =>
      rw [Option.elim_none, Expr.simplified, hvalue]
      rfl
    | some v =>
      rw [Option.elim_some, Value.toExpr_of_isNumber (hread id v hvalue)]
      rfl
  | binOp hleft hright ihleft ihright =>
    refine simplified_folded (.binOp (hleft.simplified config hread) (hright.simplified config hread)) ?_
    rw [Expr.simplified, ihleft, ihright]
  | unaryOp hoperand ih =>
    refine simplified_folded (.unaryOp (hoperand.simplified config hread)) ?_
    rw [Expr.simplified, ih]

end Expr.Arithmetic

/-! ### Visits of arithmetic -/

def Expr.isOperation (e : Expr) : Bool :=
  match e.kind with
  | .binOp .. | .unaryOp .. => true
  | _ => false

namespace Folding

def noted (overruns : Bool) (log : List Note) : List Note := if overruns then .overrun :: log else log

def overruns (limits : Limits) (e : Expr) : Bool :=
  match e.kind with
  | .binOp left op right => (left.constant?.bind fun l => right.constant?.map (binaryOverruns limits op l)).getD false
  | _ => false

theorem run_foldBinary (pos : Position) (left right : Expr) (op : BinaryOp) : ∃ texts : List String,
    foldBinary ⟨pos, .binOp left op right⟩ left op right ctx s =
      .ok (.ofOption (fold? ctx.config.limits ⟨pos, .binOp left op right⟩))
        { s with
          log := texts.map .decision ++ noted (overruns ctx.config.limits ⟨pos, .binOp left op right⟩) s.log } := by
  simp only [foldBinary, run_bind, run_config, fold?, overruns, Option.bind_eq_bind]
  cases left.constant? with
  | none => exact ⟨[], rfl⟩
  | some l =>
    cases right.constant? with
    | none => exact ⟨[], rfl⟩
    | some r =>
      simp only [Option.bind_some, Option.map_some, Option.getD_some]
      cases binary? ctx.config.limits op l r with
      | none => exact ⟨[], rfl⟩
      | some result =>
        simp only [Option.bind_some]
        cases ctx.config.limits.literal? result pos with
        | none => exact ⟨[], rfl⟩
        | some new => exact ⟨[_], rfl⟩

theorem run_leaveExpr_operation (he : e.isOperation = true) : ∃ texts : List String,
    leaveExpr e ctx s = .ok (.ofOption (if ctx.config.constantFolding then fold? ctx.config.limits e else none))
      { s with
        log := texts.map .decision ++ noted (ctx.config.constantFolding && overruns ctx.config.limits e) s.log } := by
  unfold leaveExpr
  rw [run_bind, run_config]
  dsimp only
  cases ctx.config.constantFolding with
  | false => exact ⟨[], rfl⟩
  | true =>
    obtain ⟨pos, kind⟩ := e
    cases kind with
    | binOp left op right => exact run_foldBinary pos left right op
    | unaryOp => exact ⟨[], rfl⟩
    | _ => cases he

end Folding

theorem Expr.Arithmetic.overruns_eq_false {limits} (he : e.Arithmetic) : overruns limits e = false := by
  have hnumber : ∀ {v : Value} (count : Int), v.isNumber = true → v.repetitionOverruns count = false := by
    intro v count hv
    cases v with
    | tuple | list => cases hv
    | _ => rfl
  cases he with
  | binOp hleft hright =>
    dsimp only [overruns]
    cases hl : Expr.constant? _ with
    | none => rfl
    | some l =>
      cases hr : Expr.constant? _ with
      | none => rfl
      | some r =>
        simp only [Option.bind_some, Option.map_some, Option.getD_some, binaryOverruns, Bool.and_eq_false_iff]
        right
        unfold Value.binaryOverruns
        split
        · exact hnumber _ (hleft.of_constant hl).1
        · exact hnumber _ (hright.of_constant hr).1
        · rfl
  | _ => rfl

theorem Visitor.ensures_leave_operation {v : Visitor} (hstage : ctx.stage ≠ .specialize) (harith : e.Arithmetic)
    (he : e.isOperation = true) :
    Ensures (v.leaveExpr ctx.stage.passes e) (fun _ => False)
      (fun new s' => s.Logs s' ∧ new = folded ctx.config e) ctx s := by
  have hkind : (∀ func args keywords, e.kind ≠ .call func args keywords) ∧
      (∀ w, Expr.sameKind ⟨e.pos, .const w⟩ e = false) ∧ Pass.debugConstant.leaveExpr e ctx s = .ok .keep s ∧
      Pass.propagation.leaveExpr e ctx s = .ok .keep s := by
    obtain ⟨pos, kind⟩ := e
    cases kind with
    | binOp | unaryOp => exact ⟨by simp, fun _ => rfl, rfl, rfl⟩
    | _ => cases he
  obtain ⟨hcall, hconst, hdebug, hpropagation⟩ := hkind
  obtain ⟨texts, hfolding⟩ : ∃ texts : List String, Pass.folding.leaveExpr e ctx s = .ok _ { s with log := _ } :=
    run_leaveExpr_operation he
  rw [harith.overruns_eq_false, Bool.and_false] at hfolding
  unfold Ensures
  rw [Stage.passes_of_ne hstage, run_leaveExpr_of_keep rfl, run_leaveExpr_of_keep hdebug,
    run_leaveExpr_of_keep hpropagation, Visitor.leaveExpr, run_bind, hfolding]
  have hfolded : folded ctx.config e =
      (if ctx.config.constantFolding then fold? ctx.config.limits e else none).getD e := by
    unfold folded
    split <;> rfl
  rw [hfolded]
  cases hnew : if ctx.config.constantFolding then fold? ctx.config.limits e else none with
  | none =>
    dsimp only [ExprStep.ofOption]
    rw [run_leaveExpr_late hcall]
    exact ⟨⟨texts, rfl⟩, rfl⟩
  | some new =>
    obtain ⟨w, _, _, rfl⟩ := harith.fold_eq_const (Option.ite_none_right_eq_some.mp hnew).2
    dsimp only [ExprStep.ofOption]
    rw [hconst]
    exact ⟨⟨texts, rfl⟩, rfl⟩

/-- What replaces the reads of a scope, in a context and a state. -/
def State.reading (ctx : Context) (s : State) : Ident → Option Value :=
  Propagation.reading? ctx.config s.scope ctx.enclosing s.known

theorem State.Logs.reading {s'} (h : s.Logs s') : s'.reading ctx = s.reading ctx := by
  obtain ⟨texts, rfl⟩ := h
  rfl

theorem Expr.Arithmetic.ensures_visit (hstage : ctx.stage ≠ .specialize) {h : Nat} (hh : 0 < h) (he : e.Arithmetic)
    {n : Nat} (hd : e.depth h ≤ n) (hs : ReadsNumbers (s.reading ctx)) :
    Ensures ((visitor n).expr e) (fun _ => False)
      (fun new s' => s.Logs s' ∧ new = e.simplified ctx.config (s.reading ctx)) ctx s := by
  induction he generalizing n s with
  | const =>
    rename_i pos v hv
    change 1 ≤ n at hd
    obtain ⟨n, rfl⟩ := Nat.exists_eq_add_one_of_ne_zero (show n ≠ 0 by omega)
    refine Visitor.ensures_visitExpr rfl (fun _ _ _ h => h) ?_
    exact .of_eq (Visitor.run_leave_const hstage pos v) ⟨.refl s, rfl⟩
  | name =>
    rename_i pos id
    change h ≤ n at hd
    obtain ⟨n, rfl⟩ := Nat.exists_eq_add_one_of_ne_zero (show n ≠ 0 by omega)
    exact Visitor.ensures_read n hstage s pos id
  | binOp hleft hright ihleft ihright =>
    rename_i pos left right op
    simp only [Expr.depth, ExprKind.depth] at hd
    obtain ⟨n, rfl⟩ := Nat.exists_eq_add_one_of_ne_zero (show n ≠ 0 by omega)
    refine Visitor.ensures_visitExpr rfl (fun _ _ _ h => h) ?_
    refine ensures_bind_iff.mpr ((ihleft (by omega) hs).bind fun left' s1 h1 => ?_)
    obtain ⟨hs1, rfl⟩ := h1
    refine (ihright (by omega) (by rwa [hs1.reading])).bind fun right' s2 h2 => .pure ?_
    rw [hs1.reading] at h2
    obtain ⟨hs2, rfl⟩ := h2
    refine (Visitor.ensures_leave_operation hstage ?_ rfl).imp fun new s3 h3 => ⟨(hs1.trans hs2).trans h3.1, h3.2⟩
    exact .binOp (hleft.simplified ctx.config hs) (hright.simplified ctx.config hs)
  | unaryOp hoperand ih =>
    rename_i pos op operand
    simp only [Expr.depth, ExprKind.depth] at hd
    obtain ⟨n, rfl⟩ := Nat.exists_eq_add_one_of_ne_zero (show n ≠ 0 by omega)
    refine Visitor.ensures_visitExpr rfl (fun _ _ _ h => h) ?_
    refine ensures_bind_iff.mpr ((ih (by omega) hs).bind fun operand' s1 h1 => .pure ?_)
    obtain ⟨hs1, rfl⟩ := h1
    refine (Visitor.ensures_leave_operation hstage ?_ rfl).imp fun new s2 h2 => ⟨hs1.trans h2.1, h2.2⟩
    exact .unaryOp (hoperand.simplified ctx.config hs)

/-! ### Assignments -/

/-- The assignment of an expression to a name. -/
structure Assignment where
  pos : Position
  /-- Where the name stands. -/
  at' : Position
  name : Ident
  value : Expr

namespace Assignment

def stmt (a : Assignment) : Stmt := ⟨a.pos, .assign [⟨a.at', .name a.name⟩] a.value⟩

def Arithmetic (a : Assignment) : Prop := a.value.Arithmetic

def simplified (config : Config) (read : Ident → Option Value) (a : Assignment) : Assignment :=
  { a with value := a.value.simplified config read }

/-- Simplifies assignments one after the other, with the values that are known before the first one. -/
def simplify (config : Config) (read : Namespace → Ident → Option Value) :
    Namespace → List Assignment → List Assignment
  | _, [] => []
  | known, a :: as =>
    let new := a.simplified config (read known)
    new :: simplify config read (known.set a.name new.value.constant?) as

def vars (as : List Assignment) : Variables :=
  { Variables.ofBindings (as.map name) [] [] with
    dynamic := as.any fun a => (a.name :: a.value.names).any fun id => Variables.accessors.contains id }

def program (as : List Assignment) : Module := ⟨as.map stmt⟩

def reads (config : Config) (as : List Assignment) : Namespace → Ident → Option Value :=
  Propagation.reading? config { kind := .module, vars := vars as } []

def optimized (config : Config) (as : List Assignment) : List Assignment :=
  if config.enabled then simplify config (reads config as) {} as else as

end Assignment

def Namespace.Numeric (ns : Namespace) : Prop := ∀ p ∈ ns.values, p.2.isNumber = true

theorem Namespace.Numeric.set {ns : Namespace} (h : ns.Numeric) (name : Ident) {value : Option Value}
    (hvalue : ∀ v, value = some v → v.isNumber = true) : (ns.set name value).Numeric := by
  intro p hp
  rcases Namespace.mem_of_mem_set hp with hp | ⟨v, hv, rfl⟩
  · exact h p hp
  · exact hvalue v hv

theorem Namespace.Numeric.readsNumbers {ns} (h : ns.Numeric) (config : Config) (scope : Scope)
    (enclosing : List Scope) : ReadsNumbers (reading? config scope enclosing ns) := by
  intro id v hv
  unfold reading? at hv
  split at hv
  · cases hv
    rfl
  · exact h (id, v) (Namespace.mem_of_get? (get?_of_value? hv)).2

namespace Assignment

theorem numeric_step {a : Assignment} (ha : a.Arithmetic) (hknown : known.Numeric) :
    let new := a.simplified config (reading? config scope enclosing known)
    new.Arithmetic ∧ (known.set a.name new.value.constant?).Numeric := by
  have hnew := Expr.Arithmetic.simplified ha config (hknown.readsNumbers config scope enclosing)
  exact ⟨hnew, hknown.set a.name fun v hv => (hnew.of_constant hv).1⟩

theorem simplify_simplify (has : ∀ a ∈ as, a.Arithmetic) (hknown : known.Numeric) :
    simplify config (reading? config scope enclosing) known
      (simplify config (reading? config scope enclosing) known as) =
        simplify config (reading? config scope enclosing) known as := by
  induction as generalizing known with
  | nil => rfl
  | cons a as ih =>
    have ha : a.Arithmetic := has a (by simp)
    have hfixed := Expr.Arithmetic.simplified_simplified ha config (hknown.readsNumbers config scope enclosing)
    simp only [simplify, simplified, hfixed]
    exact congrArg _ (ih (fun b hb => has b (by simp [hb])) (numeric_step ha hknown).2)

theorem arithmetic_simplify (has : ∀ a ∈ as, a.Arithmetic) (hknown : known.Numeric) :
    ∀ a ∈ simplify config (reading? config scope enclosing) known as, a.Arithmetic := by
  induction as generalizing known with
  | nil => exact fun a ha => by cases ha
  | cons a as ih =>
    obtain ⟨hnew, hnext⟩ := numeric_step (has a (by simp)) hknown
    intro b hb
    rcases mem_cons.mp hb with rfl | hb
    · exact hnew
    · exact ih (fun c hc => has c (by simp [hc])) hnext b hb

end Assignment

/-! ### Names -/

namespace Expr.Arithmetic

variable {read : Ident → Option Value}

theorem names_folded (he : e.Arithmetic) (config : Config) : (folded config e).names = e.names := by
  rcases he.folded_cases config with ⟨w, _, hnames, hnew⟩ | hkept
  · rw [hnew, hnames]
    rfl
  · rw [hkept]

theorem names_simplified (he : e.Arithmetic) (config : Config) (hread : ReadsNumbers read) :
    (e.simplified config read).names = e.names.filter fun id => (read id).isNone := by
  induction he with
  | const => rfl
  | name =>
    rename_i pos id
    have hnames : Expr.names ⟨pos, .name id⟩ = [id] := rfl
    rw [hnames, Expr.simplified]
    cases hvalue : read id with
    | none => simp [hvalue, hnames]
    | some v =>
      rw [Option.elim_some, Value.toExpr_of_isNumber (hread id v hvalue)]
      simp [hvalue, Expr.names, Expr.nodes, ExprKind.nodes, Node.everywhere, Node.name?, Expr.name?]
  | binOp hleft hright ihleft ihright =>
    rw [Expr.simplified, names_folded (.binOp (hleft.simplified config hread) (hright.simplified config hread)),
      names_binOp, names_binOp, filter_append, ihleft, ihright]
  | unaryOp hoperand ih =>
    rw [Expr.simplified, names_folded (.unaryOp (hoperand.simplified config hread)), names_unaryOp, names_unaryOp, ih]

end Expr.Arithmetic

/-! ### Variables -/

namespace Assignment

section Simplified

theorem map_name_simplify (read : Namespace → Ident → Option Value) :
    (simplify config read known as).map name = as.map name := by
  induction as generalizing known with
  | nil => rfl
  | cons a as ih => simp only [simplify, simplified, map_cons, ih]

theorem any_names_simplify {p : Ident → Bool} (has : ∀ a ∈ as, a.Arithmetic) (hknown : known.Numeric)
    (hread : ∀ a ∈ as, ∀ id ∈ a.value.names, p id = true → ∀ known,
      reading? config scope enclosing known id = none) :
    (simplify config (reading? config scope enclosing) known as).any
        (fun a => (a.name :: a.value.names).any p) = as.any fun a => (a.name :: a.value.names).any p := by
  induction as generalizing known with
  | nil => rfl
  | cons a as ih =>
    have ha : a.value.Arithmetic := has a (by simp)
    have hnames : (a.value.simplified config (reading? config scope enclosing known)).names.any p =
        a.value.names.any p := by
      rw [ha.names_simplified config (hknown.readsNumbers config scope enclosing), any_filter, Bool.eq_iff_iff,
        any_eq_true, any_eq_true]
      constructor
      · rintro ⟨id, hid, hp⟩
        exact ⟨id, hid, (Bool.and_eq_true_iff.mp hp).2⟩
      · rintro ⟨id, hid, hp⟩
        refine ⟨id, hid, ?_⟩
        rw [hread a (by simp) id hid hp known, hp]
        rfl
    simp only [simplify, simplified, any_cons, hnames]
    exact congrArg _ (ih (fun b hb => has b (by simp [hb])) (numeric_step ha hknown).2 fun b hb =>
      hread b (by simp [hb]))

end Simplified

theorem reading_accessor {a id} (ha : a ∈ as) (hid : id ∈ a.value.names)
    (haccessor : Variables.accessors.contains id = true) (known : Namespace) : reads config as known id = none := by
  have hdebug : id ≠ "__debug__" := by
    rintro rfl
    revert haccessor
    decide
  have hread : reads config as known id = value? config { kind := .module, vars := vars as } known id :=
    reading?_of_not_debug (fun h => absurd h hdebug) known
  have hdynamic : (vars as).dynamic = true := by
    refine any_eq_true.mpr ⟨a, ha, any_eq_true.mpr ⟨id, by simp [hid], haccessor⟩⟩
  have hpropagates : Scope.propagates { kind := .module, vars := vars as } = false := by
    unfold Scope.propagates
    rw [hdynamic]
    rfl
  rw [hread, value?, applies, hpropagates, Bool.false_and, Bool.false_and, Bool.and_false]
  rfl

/-- A name that a read loses is still stored somewhere. -/
theorem vars_simplify (has : ∀ a ∈ as, a.Arithmetic) : vars (simplify config (reads config as) {} as) = vars as := by
  have hnames : (simplify config (reads config as) {} as).map name = as.map name := map_name_simplify _
  have hdynamic : (vars (simplify config (reads config as) {} as)).dynamic = (vars as).dynamic :=
    any_names_simplify has (fun p hp => by cases hp) fun a ha id hid haccessor => reading_accessor ha hid haccessor
  unfold vars at hdynamic ⊢
  dsimp only at hdynamic
  rw [hnames, hdynamic]

theorem nodes_stmt {enters : Node → Bool} (a : Assignment) (h : enters (.stmt a.stmt) = true) :
    a.stmt.nodes enters = .stmt a.stmt :: .expr ⟨a.at', .name a.name⟩ :: a.value.nodes enters := by
  have htarget : Expr.nodes enters ⟨a.at', .name a.name⟩ = [.expr ⟨a.at', .name a.name⟩] := by
    rw [Expr.nodes, ExprKind.nodes, ite_self]
  unfold stmt at h ⊢
  rw [Stmt.nodes, if_pos h, StmtKind.nodes, Expr.nodesList, Expr.nodesList, htarget]
  rfl

theorem nodes_program {enters : Node → Bool} (henters : ∀ a : Assignment, enters (.stmt a.stmt) = true) :
    ∀ node ∈ Stmt.nodesList enters (as.map stmt), (∃ a : Assignment, node = .stmt a.stmt) ∨ node.isExpr = true := by
  induction as with
  | nil => exact fun node hnode => by cases hnode
  | cons a as ih =>
    intro node hnode
    rw [map_cons, Stmt.nodesList, nodes_stmt a (henters a)] at hnode
    rcases mem_append.mp hnode with hnode | hnode
    · rcases mem_cons.mp hnode with rfl | hnode
      · exact .inl ⟨a, rfl⟩
      · rcases mem_cons.mp hnode with rfl | hnode
        · exact .inr rfl
        · exact .inr (a.value.isExpr_nodes node hnode)
    · exact ih node hnode

theorem bindings_program (as : List Assignment) : ∃ sites : List (List Ident),
    (Stmt.nodesList Node.inScope (as.map stmt)).mapM Node.bindings = .ok sites ∧ sites.flatten = as.map name := by
  induction as with
  | nil => exact ⟨[], rfl, rfl⟩
  | cons a as ih =>
    obtain ⟨sites, hsites, hflatten⟩ := ih
    have hvalue : (a.value.nodes Node.inScope).mapM Node.bindings = .ok _ :=
      Node.mapM_bindings_eq_nil fun node hnode => Node.bindings_of_isExpr (a.value.isExpr_nodes node hnode)
    have hstmt : (Node.stmt a.stmt).bindings = .ok [a.name] := rfl
    have htarget : (Node.expr ⟨a.at', .name a.name⟩).bindings = .ok [] := rfl
    refine ⟨[a.name] :: [] :: ((a.value.nodes Node.inScope).map fun _ => []) ++ sites, ?_, ?_⟩
    · rw [map_cons, Stmt.nodesList, nodes_stmt a rfl, mapM_append, mapM_cons, mapM_cons, hstmt, htarget,
        hvalue, hsites]
      rfl
    · simp [hflatten]

theorem isAccessor_program (as : List Assignment) :
    (Stmt.nodesList Node.everywhere (as.map stmt)).any Node.isAccessor = (vars as).dynamic := by
  induction as with
  | nil => rfl
  | cons a as ih =>
    have hvalue : (a.value.nodes Node.everywhere).any Node.isAccessor =
        a.value.names.any fun id => Variables.accessors.contains id := by
      rw [Expr.names, any_filterMap]
      refine congrArg (List.any _) (funext fun node => ?_)
      unfold Node.isAccessor
      cases node.name? <;> rfl
    have hrest : (vars (a :: as)).dynamic =
        (((a.name :: a.value.names).any fun id => Variables.accessors.contains id) || (vars as).dynamic) := rfl
    rw [map_cons, Stmt.nodesList, nodes_stmt a rfl, any_append, ih, any_cons, any_cons, hvalue, hrest, any_cons]
    rfl

theorem ofBody_program (as : List Assignment) : Variables.ofBody (program as).body [] = .ok (vars as) := by
  have hnodes : ∀ node ∈ Stmt.nodesList Node.inScope (as.map stmt), node.globals = [] ∧ node.nonlocals = [] ∧
      node.nestedDeclarations = [] ∧ node.importsAll = false := by
    intro node hnode
    rcases nodes_program (fun _ => rfl) node hnode with ⟨a, rfl⟩ | hexpr
    · exact ⟨rfl, rfl, rfl, rfl⟩
    · cases node with
      | expr e => exact ⟨rfl, rfl, rfl, rfl⟩
      | _ => cases hexpr
  obtain ⟨sites, hsites, hflatten⟩ := bindings_program as
  have hglobals := flatMap_eq_nil_iff.mpr fun node hnode => (hnodes node hnode).1
  have hnonlocals := flatMap_eq_nil_iff.mpr fun node hnode => (hnodes node hnode).2.1
  have hnested := flatMap_eq_nil_iff.mpr fun node hnode => (hnodes node hnode).2.2.1
  have himports : (Stmt.nodesList Node.inScope (as.map stmt)).any Node.importsAll = false :=
    any_eq_false.mpr fun node hnode => by simp [(hnodes node hnode).2.2.2]
  simp only [Variables.ofBody, program, hsites, hglobals, hnonlocals, hnested, himports, isAccessor_program]
  change Except.ok _ = Except.ok _
  rw [nil_append, hflatten, Bool.false_or]
  rfl

end Assignment

/-! ### Visits of assignments -/

namespace Assignment

variable {n : Nat}

variable (hstage : ctx.stage ≠ .specialize)
include hstage

theorem ensures_stmt {a : Assignment} (ha : a.Arithmetic) (hs : s.known.Numeric)
    (hd : a.stmt.depth ctx.config.limits.literalDepth ≤ n + 1) :
    Ensures ((visitor (n + 1)).stmt a.stmt) (fun _ => False)
      (fun new s' => new = [(a.simplified ctx.config (s.reading ctx)).stmt] ∧
        State.Logs { s with
          known := s.known.set a.name (a.simplified ctx.config (s.reading ctx)).value.constant? } s') ctx s := by
  have hname : ∀ target ∈ [(⟨a.at', .name a.name⟩ : Expr)], target.name?.isSome := by simp [Expr.name?]
  have hdepth : a.value.depth ctx.config.limits.literalDepth ≤ n := by
    simp only [stmt, Stmt.depth, StmtKind.depth] at hd
    omega
  have hchildren : (visitor n).stmtChildren a.stmt =
      (visitor n).expr a.value >>= fun value => pure ⟨a.pos, .assign [⟨a.at', .name a.name⟩] value⟩ := by
    change ((visitor n).expr a.value >>= fun e' => (visitor n).targets [⟨a.at', .name a.name⟩] >>= _) = _
    rw [Visitor.targets_of_names hname]
    rfl
  refine Visitor.ensures_visitStmt rfl (fun _ _ _ h => h) ?_
  rw [hchildren, bind_assoc]
  have hreads : ReadsNumbers (s.reading ctx) := hs.readsNumbers ctx.config s.scope ctx.enclosing
  refine (Expr.Arithmetic.ensures_visit hstage (Nat.succ_pos _) ha hdepth hreads).bind fun value s1 h1 => ?_
  obtain ⟨⟨texts, rfl⟩, rfl⟩ := h1
  rw [pure_bind]
  have hrecord : ∀ (value : Expr) s', Tracking.leaveStmt ⟨a.pos, .assign [⟨a.at', .name a.name⟩] value⟩ ctx s' =
      .ok () { s' with known := s'.known.set a.name value.constant? } := fun value s' => rfl
  exact .of_eq (Visitor.run_leave_line hstage rfl (hrecord _ _)) ⟨rfl, texts, rfl⟩

variable (has : ∀ a ∈ as, a.Arithmetic) (hs : s.known.Numeric)
  (hd : ∀ a ∈ as, a.stmt.depth ctx.config.limits.literalDepth ≤ n + 1)
include has hs hd

theorem ensures_stmts : Ensures ((as.map stmt).flatMapM (visitor (n + 1)).stmt) (fun _ => False) (fun new s' =>
      new = (simplify ctx.config (reading? ctx.config s.scope ctx.enclosing) s.known as).map stmt ∧
        ∃ known, State.Logs { s with known := known } s') ctx s := by
  induction as generalizing s with
  | nil => exact .pure ⟨rfl, s.known, .refl s⟩
  | cons a as ih =>
    rw [map_cons, flatMapM_cons]
    have ha := has a (by simp)
    refine (ensures_stmt hstage ha hs (hd a (by simp))).bind fun new s1 h1 => ?_
    obtain ⟨rfl, texts, rfl⟩ := h1
    refine (ih (fun b hb => has b (by simp [hb])) (numeric_step ha hs).2 fun b hb => hd b (by simp [hb])).bind
      fun rest s2 h2 => ?_
    obtain ⟨rfl, known, texts', rfl⟩ := h2
    exact .pure ⟨rfl, known, texts' ++ texts, by simp⟩

theorem ensures_body : Ensures ((visitor (n + 1)).body false (program as).body) (fun _ => False) (fun new s' =>
      new = (simplify ctx.config (reading? ctx.config s.scope ctx.enclosing) s.known as).map stmt ∧
        s'.needsSupport = s.needsSupport ∧ (.overrun ∈ s'.log → .overrun ∈ s.log)) ctx s := by
  refine Visitor.ensures_body_of_kept ((ensures_stmts hstage has hs hd).imp fun new s' h => ?_)
  obtain ⟨rfl, known, texts, rfl⟩ := h
  refine ⟨fun t ht => ?_, rfl, rfl, fun h => by simpa using h⟩
  obtain ⟨a, _, rfl⟩ := mem_map.mp (mem_of_mem_dropLast ht)
  rfl

omit hstage hs hd

theorem overriddenBy_program (config : Config) : config.overriddenBy (program as) = config := by
  have hoverrides : ∀ t ∈ (program as).body, t.overrides = [] := by
    intro t ht
    obtain ⟨a, ha, rfl⟩ := mem_map.mp ht
    have hliteral : ∀ {e : Expr}, e.Arithmetic → e.literal? = e.constant? := fun he => by cases he <;> rfl
    unfold Stmt.overrides stmt
    dsimp only
    split
    · split
      · rename_i hdict
        rw [hliteral (has a ha)] at hdict
        have hnumber := (Expr.Arithmetic.of_constant (has a ha) hdict).1
        cases hnumber
      · rfl
    · rfl
  rw [Config.overriddenBy, flatMap_eq_nil_iff.mpr hoverrides]
  rfl

theorem ensures_program {config} (hctx : ctx.Initial config) (hs : s.Initial) :
    Ensures ((program as).visit (visitor ((program as).depthBound config.limits))) (fun _ => False)
      (fun new s' => new = program (optimized config as) ∧ .overrun ∉ s'.log) ctx s := by
  unfold Module.visit optimized
  rw [ensures_config_bind, hctx.config]
  cases config.enabled with
  | false => exact ensures_log_bind.mpr (.pure ⟨rfl, by simp [hs.log]⟩)
  | true =>
    rw [Bool.not_true, if_neg Bool.false_ne_true, if_pos rfl, ofBody_program]
    change Ensures (do
      Visit.modifyScope fun scope => { scope with vars := vars as }
      let body ← (visitor ((program as).depthBound config.limits)).body false (program as).body
      return ⟨if (← get).needsSupport then importSupport body else body⟩ : Visit Module) _ _ ctx s
    rw [ensures_modifyScope_bind, ← hctx.config]
    have hbound := (program as).depth_le_bound ctx.config.limits
    rw [Stmt.depthList_le_iff] at hbound
    obtain ⟨n, hn⟩ : ∃ n, (program as).depthBound ctx.config.limits = n + 1 :=
      Nat.exists_eq_add_one_of_ne_zero (by unfold Module.depthBound; omega)
    rw [hn] at hbound ⊢
    have hstage : ctx.stage ≠ .specialize := by
      rw [hctx.stage]
      decide
    have hknown : s.known.Numeric := by
      rw [hs.known]
      exact fun p hp => by cases hp
    have hread : reading? ctx.config { s.scope with vars := vars as } ctx.enclosing = reads ctx.config as := by
      rw [hctx.enclosing, hs.scope]
      rfl
    have hbody := ensures_body (s := { s with scope := { s.scope with vars := vars as } }) hstage has hknown
      fun a ha => hbound a.stmt (mem_map_of_mem ha)
    refine hbody.bind fun body s' h => ?_
    obtain ⟨rfl, hsupport, hlog⟩ := h
    rw [ensures_get_bind, hsupport]
    dsimp only
    rw [hs.support, hread, hs.known]
    refine .pure ⟨rfl, fun h => ?_⟩
    have hoverrun := hlog h
    rw [hs.log] at hoverrun
    cases hoverrun

end Assignment

open Assignment in
/-- Optimizing a module of assignments of arithmetic simplifies it, and optimizing the result again, with the same
options, returns it unchanged. -/
theorem optimize_idempotent (config : Config) (filename filename' : String) (source source' : Option String)
    (as : List Assignment) (has : ∀ a ∈ as, a.Arithmetic) :
    let once := optimize config filename source (program as)
    let twice := optimize config filename' source' (program (optimized config as))
    once.result = .ok (program (optimized config as)) ∧ once.overrun = false ∧
      twice.result = .ok (program (optimized config as)) ∧ twice.overrun = false := by
  have hrun : ∀ filename source (as : List Assignment), (∀ a ∈ as, a.Arithmetic) →
      (optimize config filename source (program as)).result = .ok (program (optimized config as)) ∧
        (optimize config filename source (program as)).overrun = false := by
    intro filename source as has
    have hsame := overriddenBy_program has config
    have hreport := Report.of_ensures (rfl : _ = optimize config filename source (program as)) fun ctx s hctx hs =>
      ensures_program has hctx hs
    cases hrun : (optimize config filename source (program as)).result with
    | ok new =>
      rw [hrun] at hreport
      obtain ⟨s, ⟨rfl, hlog⟩, hoverrun⟩ := hreport
      rw [hsame]
      exact ⟨rfl, by simpa [hlog] using hoverrun⟩
    | error failure =>
      rw [hrun] at hreport
      exact hreport.elim
  have hempty : Namespace.Numeric {} := fun p hp => by cases hp
  have hagain : optimized config (optimized config as) = optimized config as := by
    unfold optimized
    split
    · have hread : reads config (simplify config (reads config as) {} as) = reads config as :=
        congrArg (fun vars => Propagation.reading? config { kind := .module, vars := vars } []) (vars_simplify has)
      rw [hread]
      exact simplify_simplify has hempty
    · rfl
  have harithmetic : ∀ a ∈ optimized config as, a.Arithmetic := by
    unfold optimized
    split
    · exact arithmetic_simplify has hempty
    · exact has
  have honce := hrun filename source as has
  have htwice := hrun filename' source' (optimized config as) harithmetic
  rw [hagain] at htwice
  exact ⟨honce.1, honce.2, htwice.1, htwice.2⟩

open Assignment in
/-- After `x = 6`, the second value of `y = w - (x << 2); z = ~x << 300` is too large to be folded. -/
theorem optimize_idempotent_shift :
    let int (n : Int) : Expr := ⟨{}, .const (.int n)⟩
    let name (id : Ident) : Expr := ⟨{}, .name id⟩
    let as : List Assignment := [⟨{}, {}, "x", int 6⟩,
      ⟨{}, {}, "y", ⟨{}, .binOp (name "w") .sub ⟨{}, .binOp (name "x") .lShift (int 2)⟩⟩⟩,
      ⟨{}, {}, "z", ⟨{}, .binOp ⟨{}, .unaryOp .invert (name "x")⟩ .lShift (int 300)⟩⟩]
    let new : List Assignment := [⟨{}, {}, "x", int 6⟩, ⟨{}, {}, "y", ⟨{}, .binOp (name "w") .sub (int 24)⟩⟩,
      ⟨{}, {}, "z", ⟨{}, .binOp (int (-7)) .lShift (int 300)⟩⟩]
    (∀ a ∈ as, a.Arithmetic) ∧ (optimize {} "m.py" none (program as)).result = .ok (program new) ∧
      (optimize {} "m.py" none (program new)).result = .ok (program new) := by
  intro int name as new
  have has : ∀ a ∈ as, a.Arithmetic := by
    simp only [as, List.forall_mem_cons, List.not_mem_nil, false_implies, implies_true, and_true]
    exact ⟨.const rfl, .binOp .name (.binOp .name (.const rfl)), .binOp (.unaryOp .name) (.const rfl)⟩
  have hnew : optimized {} as = new := by rfl
  have hoptimize := optimize_idempotent {} "m.py" "m.py" none none as has
  rw [hnew] at hoptimize
  exact ⟨has, hoptimize.1, hoptimize.2.2.1⟩

end Speculator
