import Mathlib.Logic.Function.Basic
import Speculator.Proofs.Fragment

/-!
# Execution of statements

What the statements of a module do: assignments to names, deletions of names, expression statements, branches and
loops.  An execution shows the values of the expression statements that were executed, the variables at its end, and
how it ends.  Expressions are evaluated as in `Expr.eval`.

A loop with a test runs at most as many iterations as the fuel says; an execution that needs more ends in a timeout.
A body finishes if some fuel is enough for it (`Stmt.Finishes`), and otherwise it diverges.
-/

namespace Speculator

variable {ε : Type} {test : Env → Except ε Value}

inductive Signal (ε : Type) where
  | done
  | brk
  | cont
  | raised (exception : ε)
  /-- A loop has used up its fuel. -/
  | timeout

structure Execution (ε : Type) where
  /-- The values of the expression statements, in the order of their execution. -/
  values : List Value
  env : Env
  signal : Signal ε

namespace Execution

def given {α : Type} (env : Env) (r : Except ε α) (f : α → Execution ε) : Execution ε :=
  match r with
  | .ok a => f a
  | .error exception => ⟨[], env, .raised exception⟩

def after (vs : List Value) (x : Execution ε) : Execution ε := { x with values := vs ++ x.values }

def next (x : Execution ε) (f : Env → Execution ε) : Execution ε :=
  match x.signal with
  | .done => (f x.env).after x.values
  | _ => x

def turn (x : Execution ε) (again : Env → Execution ε) : Execution ε :=
  match x.signal with
  | .done | .cont => (again x.env).after x.values
  | .brk => { x with signal := .done }
  | _ => x

end Execution

def forItems (id : Ident) (body orelse : Env → Execution ε) : List Value → Env → Execution ε
  | [], env => orelse env
  | v :: vs, env => (body (Function.update env id (some v))).turn (forItems id body orelse vs)

def whileTrue (test : Env → Except ε Value) (body orelse : Env → Execution ε) : Nat → Env → Execution ε
  | 0, env => .given env (test env) fun v => if v.truthy then ⟨[], env, .timeout⟩ else orelse env
  | fuel + 1, env => .given env (test env) fun v =>
    if v.truthy then (body env).turn (whileTrue test body orelse fuel) else orelse env

def Meaning.variable (m : Meaning ε) (env : Env) (id : Ident) : Except ε Value :=
  match env id with
  | some v => .ok v
  | none => .error (m.unbound id)

def Meaning.items (m : Meaning ε) (v : Value) : Except ε (List Value) :=
  match v.items? false with
  | some items => .ok items
  | none => .error (m.fault .typeError)

mutual

/-- The execution of a statement.  Statements that are not covered raise a type error. -/
def Stmt.run (m : Meaning ε) (fuel : Nat) : Stmt → Env → Execution ε
  | ⟨_, .expr e⟩ => fun env => .given env (e.eval m env) fun v => ⟨[v], env, .done⟩
  | ⟨_, .assign [⟨_, .name id⟩] e⟩ => fun env =>
    .given env (e.eval m env) fun v => ⟨[], Function.update env id (some v), .done⟩
  | ⟨_, .augAssign ⟨_, .name id⟩ op e⟩ => fun env =>
    .given env (m.variable env id) fun old => .given env (e.eval m env) fun v =>
      .given env (m.result (Value.binary op old v)) fun new => ⟨[], Function.update env id (some new), .done⟩
  | ⟨_, .delete [⟨_, .name id⟩]⟩ => fun env =>
    .given env (m.variable env id) fun _ => ⟨[], Function.update env id none, .done⟩
  | ⟨_, .cond test body orelse⟩ => fun env =>
    .given env (test.eval m env) fun v =>
      if v.truthy then Stmt.runList m fuel body env else Stmt.runList m fuel orelse env
  | ⟨_, .whileLoop test body orelse⟩ =>
    whileTrue (test.eval m) (Stmt.runList m fuel body) (Stmt.runList m fuel orelse) fuel
  | ⟨_, .forLoop ⟨_, .name id⟩ iter body orelse _⟩ => fun env =>
    .given env (iter.eval m env >>= m.items) fun items =>
      forItems id (Stmt.runList m fuel body) (Stmt.runList m fuel orelse) items env
  | ⟨_, .pass⟩ => fun env => ⟨[], env, .done⟩
  | ⟨_, .brk⟩ => fun env => ⟨[], env, .brk⟩
  | ⟨_, .cont⟩ => fun env => ⟨[], env, .cont⟩
  | _ => fun env => ⟨[], env, .raised (m.fault .typeError)⟩

def Stmt.runList (m : Meaning ε) (fuel : Nat) : List Stmt → Env → Execution ε
  | [] => fun env => ⟨[], env, .done⟩
  | t :: ts => fun env => (t.run m fuel env).next (Stmt.runList m fuel ts)

end

/-- The expressions of the covered statements: they call nothing, and have no sets and dictionaries. -/
def Fragment.simple : Fragment := { reads := fun id => id ≠ "__debug__", calls := fun _ => False, sets := false }

/-- The statements that are covered. -/
inductive Stmt.Simple : Stmt → Prop
  | expr {pos e} (he : e.Plain .simple) : Simple ⟨pos, .expr e⟩
  | assign {pos at' id e} (he : e.Plain .simple) : Simple ⟨pos, .assign [⟨at', .name id⟩] e⟩
  | augAssign {pos at' id op e} (he : e.Plain .simple) : Simple ⟨pos, .augAssign ⟨at', .name id⟩ op e⟩
  | delete {pos at' id} : Simple ⟨pos, .delete [⟨at', .name id⟩]⟩
  | cond {pos test body orelse} (htest : test.Plain .simple)
    (hbody : ∀ t ∈ body, Simple t) (horelse : ∀ t ∈ orelse, Simple t) : Simple ⟨pos, .cond test body orelse⟩
  | whileLoop {pos test body orelse} (htest : test.Plain .simple)
    (hbody : ∀ t ∈ body, Simple t) (horelse : ∀ t ∈ orelse, Simple t) : Simple ⟨pos, .whileLoop test body orelse⟩
  | forLoop {pos at' id iter body orelse} (hiter : iter.Plain .simple)
    (hbody : ∀ t ∈ body, Simple t) (horelse : ∀ t ∈ orelse, Simple t) :
    Simple ⟨pos, .forLoop ⟨at', .name id⟩ iter body orelse false⟩
  | pass {pos} : Simple ⟨pos, .pass⟩
  | brk {pos} : Simple ⟨pos, .brk⟩
  | cont {pos} : Simple ⟨pos, .cont⟩

/-! ### Sequences -/

namespace Execution

@[simp] theorem given_ok {α : Type} (env : Env) (a : α) (f : α → Execution ε) : given env (.ok a) f = f a := rfl

@[simp] theorem after_nil (x : Execution ε) : x.after [] = x := rfl

theorem after_after (vs ws : List Value) (x : Execution ε) : (x.after ws).after vs = x.after (vs ++ ws) := by
  simp only [after, List.append_assoc]

variable {x : Execution ε}

theorem next_of_done (h : x.signal = .done) (f : Env → Execution ε) : x.next f = (f x.env).after x.values := by
  unfold next
  rw [h]

theorem next_of_not_done (h : x.signal ≠ .done) (f : Env → Execution ε) : x.next f = x := by
  unfold next
  split
  · rename_i hdone
    exact (h hdone).elim
  · rfl

theorem after_next (vs : List Value) (x : Execution ε) (f : Env → Execution ε) :
    (x.after vs).next f = (x.next f).after vs := by
  by_cases h : x.signal = .done
  · have h' : (x.after vs).signal = .done := h
    rw [next_of_done h, next_of_done h', after_after]
    rfl
  · have h' : (x.after vs).signal ≠ .done := h
    rw [next_of_not_done h, next_of_not_done h']

theorem next_assoc (x : Execution ε) (f g : Env → Execution ε) :
    (x.next f).next g = x.next fun env => (f env).next g := by
  by_cases h : x.signal = .done
  · rw [next_of_done h, next_of_done h, after_next]
  · rw [next_of_not_done h, next_of_not_done h, next_of_not_done h]

theorem next_congr {f g : Env → Execution ε} (h : x.signal = .done → f x.env = g x.env) : x.next f = x.next g := by
  by_cases hdone : x.signal = .done
  · rw [next_of_done hdone, next_of_done hdone, h hdone]
  · rw [next_of_not_done hdone, next_of_not_done hdone]

theorem next_nothing (x : Execution ε) : x.next (fun env => ⟨[], env, .done⟩) = x := by
  by_cases h : x.signal = .done
  · rw [next_of_done h]
    simp only [after, List.append_nil, ← h]
  · exact next_of_not_done h _

end Execution

namespace Stmt

section Run

-- Computes the equations once, before the lemmas that all rewrite with them.
attribute [local simp] run runList

variable (m : Meaning ε) (fuel : Nat) (pos at' : Position) (id : Ident) (e : Expr)
  (body orelse : List Stmt) (env : Env)

theorem run_expr : run m fuel ⟨pos, .expr e⟩ env = .given env (e.eval m env) fun v => ⟨[v], env, .done⟩ := by
  rw [run]

theorem run_assign : run m fuel ⟨pos, .assign [⟨at', .name id⟩] e⟩ env =
    .given env (e.eval m env) fun v => ⟨[], Function.update env id (some v), .done⟩ := by
  rw [run]

theorem run_augAssign (op : BinaryOp) : run m fuel ⟨pos, .augAssign ⟨at', .name id⟩ op e⟩ env =
    .given env (m.variable env id) fun old => .given env (e.eval m env) fun v =>
      .given env (m.result (Value.binary op old v)) fun new => ⟨[], Function.update env id (some new), .done⟩ := by
  rw [run]

theorem run_cond : run m fuel ⟨pos, .cond e body orelse⟩ env = .given env (e.eval m env) fun v =>
    if v.truthy then runList m fuel body env else runList m fuel orelse env := by
  rw [run]

theorem run_forLoop (isAsync : Bool) : run m fuel ⟨pos, .forLoop ⟨at', .name id⟩ e body orelse isAsync⟩ env =
    .given env (e.eval m env >>= m.items) fun items =>
      forItems id (runList m fuel body) (runList m fuel orelse) items env := by
  rw [run]

end Run

variable {m : Meaning ε} {fuel : Nat}

theorem runList_nil (m : Meaning ε) (fuel : Nat) : runList m fuel [] = fun env => ⟨[], env, .done⟩ := by
  rw [runList]

theorem runList_cons (m : Meaning ε) (fuel : Nat) (t : Stmt) (ts : List Stmt) (env : Env) :
    runList m fuel (t :: ts) env = (t.run m fuel env).next (runList m fuel ts) := by
  rw [runList]

theorem runList_singleton (m : Meaning ε) (fuel : Nat) (t : Stmt) : runList m fuel [t] = t.run m fuel := by
  funext env
  rw [runList_cons, runList_nil, Execution.next_nothing]

theorem runList_append (m : Meaning ε) (fuel : Nat) (ts us : List Stmt) (env : Env) :
    runList m fuel (ts ++ us) env = (runList m fuel ts env).next (runList m fuel us) := by
  induction ts generalizing env with
  | nil =>
    rw [List.nil_append, runList_nil]
    rfl
  | cons t ts ih =>
    rw [List.cons_append, runList_cons, runList_cons, Execution.next_assoc]
    exact Execution.next_congr fun _ => ih _

end Stmt

/-! ### Variables that are left alone -/

def Keeps (id : Ident) (f : Env → Execution ε) : Prop := ∀ env, (f env).env id = env id

namespace Keeps

variable {id : Ident} {f g body orelse : Env → Execution ε}

theorem given {α : Type} {r : Env → Except ε α} {f : α → Env → Execution ε} (h : ∀ a, Keeps id (f a)) :
    Keeps id fun env => .given env (r env) fun a => f a env := by
  intro env
  dsimp only
  cases r env with
  | ok a => exact h a env
  | error => rfl

theorem next (hf : Keeps id f) (hg : Keeps id g) : Keeps id fun env => (f env).next g := by
  intro env
  dsimp only [Execution.next]
  split
  · exact (hg _).trans (hf env)
  · exact hf env

theorem turn (hf : Keeps id f) (hg : Keeps id g) : Keeps id fun env => (f env).turn g := by
  intro env
  dsimp only [Execution.turn]
  split
  · exact (hg _).trans (hf env)
  · exact (hg _).trans (hf env)
  · exact hf env
  · exact hf env

theorem forItems {target} (hid : id ≠ target) (hbody : Keeps id body) (horelse : Keeps id orelse)
    (vs : List Value) : Keeps id (forItems target body orelse vs) := by
  induction vs with
  | nil => exact horelse
  | cons v vs ih =>
    have hfirst : Keeps id fun env => body (Function.update env target (some v)) := by
      intro env
      rw [hbody, Function.update_of_ne hid]
    exact hfirst.turn ih

theorem whileTrue (hbody : Keeps id body) (horelse : Keeps id orelse) (fuel : Nat) :
    Keeps id (whileTrue test body orelse fuel) := by
  induction fuel with
  | zero =>
    refine Keeps.given fun v env => ?_
    split
    · rfl
    · exact horelse env
  | succ fuel ih =>
    refine Keeps.given fun v env => ?_
    split
    · exact hbody.turn ih env
    · exact horelse env

end Keeps

/-! ### Executions that stay in their loop -/

def Signal.leavesIteration : Signal ε → Bool
  | .brk | .cont => true
  | _ => false

def Stays (f : Env → Execution ε) : Prop := ∀ env, (f env).signal.leavesIteration = false

namespace Stays

variable {f g body orelse : Env → Execution ε}

theorem given {α : Type} {r : Env → Except ε α} {f : α → Env → Execution ε} (h : ∀ a, Stays (f a)) :
    Stays fun env => .given env (r env) fun a => f a env := by
  intro env
  dsimp only
  cases r env with
  | ok a => exact h a env
  | error => rfl

theorem next (hf : Stays f) (hg : Stays g) : Stays fun env => (f env).next g := by
  intro env
  dsimp only [Execution.next]
  split
  · exact hg _
  · exact hf env

theorem turn (hg : Stays g) : Stays fun env => (f env).turn g := by
  intro env
  dsimp only [Execution.turn]
  split
  · exact hg _
  · exact hg _
  · rfl
  · rename_i hdone hcont hbrk
    cases hsignal : (f env).signal with
    | done => exact (hdone hsignal).elim
    | brk => exact (hbrk hsignal).elim
    | cont => exact (hcont hsignal).elim
    | raised | timeout => rfl

theorem forItems {target} (horelse : Stays orelse) (vs : List Value) : Stays (forItems target body orelse vs) := by
  induction vs with
  | nil => exact horelse
  | cons v vs ih => exact turn ih

theorem whileTrue (horelse : Stays orelse) (fuel : Nat) : Stays (whileTrue test body orelse fuel) := by
  induction fuel with
  | zero =>
    refine Stays.given fun v env => ?_
    split
    · rfl
    · exact horelse env
  | succ fuel ih =>
    refine Stays.given fun v env => ?_
    split
    · exact turn ih env
    · exact horelse env

end Stays

namespace Stmt

def Finishes (m : Meaning ε) (body : List Stmt) (env : Env) (x : Execution ε) : Prop :=
  x.signal ≠ .timeout ∧ ∃ fuel, runList m fuel body env = x

def Diverges (m : Meaning ε) (body : List Stmt) (env : Env) : Prop :=
  ∀ fuel, (runList m fuel body env).signal = .timeout

end Stmt

end Speculator
