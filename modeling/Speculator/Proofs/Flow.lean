import Speculator.Tree.Literal
import Speculator.Tree.Nodes

/-!
# Control flow

What the statements of a function do if nothing is known about their parts.  Simple statements, tests, iterated
expressions, context managers and the types of handlers are opaque: to evaluate one is an event, and an oracle decides
from all the events so far whether it raises an exception, whether it is true and how many items it has.  Only
constant tests and loops over the empty tuple are evaluated without an event.

A loop with a test runs at most as many iterations as the fuel says; a body that needs more is unfinished.  It
completes if some fuel is enough for it (`Flow.Oracle.Completes`), and otherwise it diverges.
-/

namespace Speculator.Flow

/-- What an execution does that can be observed. -/
inductive Event where
  /-- A simple statement is executed, or the header of a definition. -/
  | simple (t : Stmt)
  | test (e : Expr)
  | iterated (e : Expr)
  /-- The next item of a loop is stored. -/
  | item (target : Expr)
  | enters (item : WithItem)
  | leaves (item : WithItem)
  /-- An exception is compared with the type of a handler. -/
  | compared (type : Expr)
  | value (e : Expr)
  | raising (exc cause : Option Expr)

inductive Completion where
  | done
  | returned (value : Option Expr)
  | broke
  | continued
  | raised
  /-- A loop has used up its fuel. -/
  | unfinished

/-- What is decided about the last one of the events so far, which come last first. -/
structure Oracle where
  raises : List Event → Bool
  truth : List Event → Bool
  count : List Event → Nat

/-- An execution: how it ends, and the events up to its end, given those up to its start. -/
abbrev Action := List Event → Completion × List Event

namespace Action

def stop (c : Completion) : Action := fun h => (c, h)

def bind (a : Action) (next : Completion → Action) : Action := fun h => next (a h).1 (a h).2

def andThen (a b : Action) : Action :=
  a.bind fun
    | .done => b
    | c => stop c

def turn (body rest : Action) : Action :=
  body.bind fun
    | .done | .continued => rest
    | .broke => stop .done
    | c => stop c

/-- The execution of a block with handlers for its exceptions and with an `else` block. -/
def guarded (body handlers orelse : Action) : Action :=
  body.bind fun
    | .done => orelse
    | .raised => handlers
    | c => stop c

/-- The execution of a block and of the `finally` block after it, which may complete in another way. -/
def finishing (body final : Action) : Action :=
  body.bind fun
    | .unfinished => stop .unfinished
    | c => final.andThen (stop c)

end Action

namespace Oracle

variable (o : Oracle)

def perform (e : Event) : Action := fun h => (if o.raises (e :: h) then .raised else .done, e :: h)

def ask (e : Event) (next : Bool → Action) : Action := (o.perform e).andThen fun h => next (o.truth h) h

def branch : Expr → (Bool → Action) → Action
  | ⟨_, .unaryOp .not operand⟩, next => branch operand fun b => next !b
  | e, next =>
    match e.constant? with
    | some v => next v.truthy
    | none => o.ask (.test e) next

def items (iter : Expr) (next : Nat → Action) : Action :=
  match iter.constant? with
  | some (.tuple []) => next 0
  | _ => (o.perform (.iterated iter)).andThen fun h => next (o.count h) h

def forItems (target : Expr) (body orelse : Action) : Nat → Action
  | 0 => orelse
  | n + 1 => (o.perform (.item target)).andThen (body.turn (forItems target body orelse n))

def whileTrue (test : Expr) (body orelse : Action) : Nat → Action
  | 0 => o.branch test fun b => if b then .stop .unfinished else orelse
  | fuel + 1 => o.branch test fun b => if b then body.turn (whileTrue test body orelse fuel) else orelse

/-- The end of a context manager, which may swallow an exception. -/
def leaving (item : WithItem) (body : Action) : Action :=
  body.bind fun
    | .unfinished => .stop .unfinished
    | .raised => o.ask (.leaves item) fun b => .stop (if b then .done else .raised)
    | c => (o.perform (.leaves item)).andThen (.stop c)

def managed (body : Action) : List WithItem → Action
  | [] => body
  | item :: items => (o.perform (.enters item)).andThen (o.leaving item (managed body items))

end Oracle

end Speculator.Flow

namespace Speculator

open Speculator.Flow

mutual

/-- The definition of a function evaluates its header, and that of a class also executes its body. -/
def Stmt.act (o : Oracle) (fuel : Nat) : Stmt → Action
  | ⟨_, .pass⟩ => .stop .done
  | ⟨_, .brk⟩ => .stop .broke
  | ⟨_, .cont⟩ => .stop .continued
  | ⟨_, .ret none⟩ => .stop (.returned none)
  | ⟨_, .ret (some value)⟩ => (o.perform (.value value)).andThen (.stop (.returned (some value)))
  | ⟨_, .raise exc cause⟩ => (o.perform (.raising exc cause)).andThen (.stop .raised)
  | ⟨_, .cond test body orelse⟩ =>
    o.branch test fun b => if b then Stmt.actList o fuel body else Stmt.actList o fuel orelse
  | ⟨_, .whileLoop test body orelse⟩ => o.whileTrue test (Stmt.actList o fuel body) (Stmt.actList o fuel orelse) fuel
  | ⟨_, .forLoop target iter body orelse _⟩ =>
    o.items iter (o.forItems target (Stmt.actList o fuel body) (Stmt.actList o fuel orelse))
  | ⟨_, .withBlock items body _⟩ => o.managed (Stmt.actList o fuel body) items
  | ⟨_, .tryBlock body handlers orelse final⟩ =>
    ((Stmt.actList o fuel body).guarded (Handler.actList o fuel handlers) (Stmt.actList o fuel orelse)).finishing
      (Stmt.actList o fuel final)
  | ⟨pos, .functionDef fn⟩ => o.perform (.simple ⟨pos, .functionDef { fn with body := [] }⟩)
  | ⟨pos, .classDef ⟨name, bases, keywords, body, decorators⟩⟩ =>
    (o.perform (.simple ⟨pos, .classDef ⟨name, bases, keywords, [], decorators⟩⟩)).andThen (Stmt.actList o fuel body)
  | t => o.perform (.simple t)

def Stmt.actList (o : Oracle) (fuel : Nat) : List Stmt → Action
  | [] => .stop .done
  | t :: ts => (t.act o fuel).andThen (Stmt.actList o fuel ts)

/-- The execution of the first handler for an exception, which goes on if there is none. -/
def Handler.actList (o : Oracle) (fuel : Nat) : List Handler → Action
  | [] => .stop .raised
  | ⟨_, none, _, body⟩ :: _ => Stmt.actList o fuel body
  | ⟨_, some type, _, body⟩ :: hs =>
    o.ask (.compared type) fun b => if b then Stmt.actList o fuel body else Handler.actList o fuel hs

end

/-! ### Sequences -/

namespace Flow.Action

theorem done_andThen (a : Action) : (stop .done).andThen a = a := rfl

theorem andThen_done (a : Action) : a.andThen (stop .done) = a := by
  have hnext : (fun c => match c with
      | .done => stop .done
      | c => stop c) = stop := by
    funext c
    cases c <;> rfl
  unfold andThen
  rw [hnext]
  rfl

theorem bind_assoc (a : Action) (next next' : Completion → Action) :
    (a.bind next).bind next' = a.bind fun c => (next c).bind next' := rfl

theorem andThen_assoc (a b c : Action) : (a.andThen b).andThen c = a.andThen (b.andThen c) := by
  unfold andThen
  rw [bind_assoc]
  congr
  funext completion
  cases completion <;> rfl

theorem andThen_stop_andThen (a b : Action) {c} (hc : c ≠ .done) :
    (a.andThen (stop c)).andThen b = a.andThen (stop c) := by
  have hstop : (stop c).andThen b = stop c := by
    cases c with
    | done => exact (hc rfl).elim
    | _ => rfl
  rw [andThen_assoc, hstop]

theorem done_guarded (handlers orelse : Action) : (stop .done).guarded handlers orelse = orelse := rfl

theorem guarded_raised_done (body : Action) : body.guarded (stop .raised) (stop .done) = body := by
  have hnext : (fun c => match c with
      | .done => stop .done
      | .raised => stop .raised
      | c => stop c) = stop := by
    funext c
    cases c <;> rfl
  unfold guarded
  rw [hnext]
  rfl

theorem finishing_done (body : Action) : body.finishing (stop .done) = body := by
  have hnext : (fun c => match c with
      | .unfinished => stop .unfinished
      | c => (stop .done).andThen (stop c)) = stop := by
    funext c
    cases c <;> rfl
  unfold finishing
  rw [hnext]
  rfl

theorem done_finishing (final : Action) : (stop .done).finishing final = final := andThen_done final

end Flow.Action

namespace Flow.Oracle

variable {o : Oracle} {test : Expr} {next : Bool → Action}

theorem branch_of_constant {v} (h : test.constant? = some v) : o.branch test next = next v.truthy := by
  unfold branch
  split
  · simp [Expr.constant?, ExprKind.scalar?] at h
  · rw [h]

theorem branch_not (pos : Position) : o.branch ⟨pos, .unaryOp .not test⟩ next = o.branch test fun b => next !b := by
  rw [branch]

end Flow.Oracle

namespace Stmt

variable (o : Oracle) (fuel : Nat)

theorem actList_nil : actList o fuel [] = .stop .done := by rw [actList]

theorem actList_cons (t : Stmt) (ts : List Stmt) :
    actList o fuel (t :: ts) = (t.act o fuel).andThen (actList o fuel ts) := by
  rw [actList]

theorem actList_singleton (t : Stmt) : actList o fuel [t] = t.act o fuel := by
  rw [actList_cons, actList_nil, Action.andThen_done]

theorem actList_append (ts us : List Stmt) :
    actList o fuel (ts ++ us) = (actList o fuel ts).andThen (actList o fuel us) := by
  induction ts with
  | nil => rw [List.nil_append, actList_nil, Action.done_andThen]
  | cons t ts ih => rw [List.cons_append, actList_cons, actList_cons, ih, Action.andThen_assoc]

end Stmt

namespace Flow.Oracle

def Completes (o : Oracle) (body : List Stmt) (c : Completion) (events : List Event) : Prop :=
  c ≠ .unfinished ∧ ∃ fuel, Stmt.actList o fuel body [] = (c, events)

def Diverges (o : Oracle) (body : List Stmt) : Prop := ∀ fuel, (Stmt.actList o fuel body []).1 = .unfinished

end Flow.Oracle

end Speculator
