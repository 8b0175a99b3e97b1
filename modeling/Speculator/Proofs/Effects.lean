import Speculator.Proofs.Depth

/-!
# Evaluation step by step

The order in which an expression reads variables and performs operations.  What the steps are is a parameter
(`Effects`), so that the order is written down once and serves two ends: run on a `Machine` it gives the value of an
expression together with all that happens on the way, and run on `Paths` it lists what can happen, read by read and
operation by operation.
-/

namespace Speculator

open List

variable {α β : Type} {e : Expr} {m : Type → Type}

/-- The operations that an evaluation performs on values. -/
inductive Operation where
  | unary (op : UnaryOp)
  | binary (op : BinaryOp)
  | compare (op : CompareOp)
  /-- Finds out whether a value counts as true. -/
  | truth
  | tuple
  | list
  | set
  /-- Keys and values take turns. -/
  | dict
  /-- Spreads the items of a value. -/
  | spread
  | attr (name : Ident)
  | subscript
  /-- Tells which of the bounds are given. -/
  | slice (lower upper step : Bool)
  /-- Calls a function with some positional arguments and then the named ones. -/
  | call (positional : Nat) (names : List (Option Ident))
deriving DecidableEq

/-- How the steps of an evaluation are taken, apart from the reads of variables. -/
structure Effects (m : Type → Type) (ν : Type) where
  constant : Value → ν
  perform : Operation → List ν → m ν
  truth : ν → m Bool
  /-- Evaluates what opens a scope or suspends the function. -/
  enter : ExprKind → m ν

def interleave {α : Type} : List α → List α → List α
  | a :: as, b :: bs => a :: b :: interleave as bs
  | [], bs => bs
  | as, [] => as

section

variable {m : Type → Type} [Monad m] {ν : Type}

namespace Effects

def strict (fx : Effects m ν) (op : Operation) (operands : List (m ν)) : m ν := do
  let vs ← inSequence operands
  fx.perform op vs

/-- Evaluates operands up to the first one that decides. -/
def junction (fx : Effects m ν) (op : BoolOp) : List (m ν) → m ν
  | [] => pure (fx.constant .none)
  | [x] => x
  | x :: xs => do
    let v ← x
    let isTrue ← fx.truth v
    if isTrue == (op == .and) then fx.junction op xs else pure v

/-- Compares a value with operands, each with the next one, up to the first comparison that fails. -/
def comparison (fx : Effects m ν) (left : ν) : List CompareOp → List (m ν) → m ν
  | op :: ops, x :: xs => do
    let right ← x
    let v ← fx.perform (.compare op) [left, right]
    if ops.isEmpty then pure v
    else
      let isTrue ← fx.truth v
      if isTrue then fx.comparison right ops xs else pure v
  | _, _ => pure left

def choice (fx : Effects m ν) (test body orelse : m ν) : m ν := do
  let v ← test
  let isTrue ← fx.truth v
  if isTrue then body else orelse

end Effects

mutual

def Expr.exec (fx : Effects m ν) (read : Ident → m ν) : Expr → m ν
  | ⟨_, kind⟩ => kind.exec fx read

def ExprKind.exec (fx : Effects m ν) (read : Ident → m ν) : ExprKind → m ν
  | .const v => pure (fx.constant v)
  | .name id => read id
  | .boolOp op values => fx.junction op (Expr.execs fx read values)
  | .binOp left op right => fx.strict (.binary op) [left.exec fx read, right.exec fx read]
  | .unaryOp op operand => fx.strict (.unary op) [operand.exec fx read]
  | .ifExp test body orelse => fx.choice (test.exec fx read) (body.exec fx read) (orelse.exec fx read)
  | .dict keys values => fx.strict .dict (interleave (Expr.execs fx read keys) (Expr.execs fx read values))
  | .set items => fx.strict .set (Expr.execs fx read items)
  | .list items => fx.strict .list (Expr.execs fx read items)
  | .tuple items => fx.strict .tuple (Expr.execs fx read items)
  | .starred value => fx.strict .spread [value.exec fx read]
  | .compare left ops comparators => do
    let v ← left.exec fx read
    fx.comparison v ops (Expr.execs fx read comparators)
  | .call func args keywords =>
    fx.strict (.call args.length (keywords.map Keyword.name))
      (func.exec fx read :: (Expr.execs fx read args ++ Keyword.execs fx read keywords))
  | .attr value name => fx.strict (.attr name) [value.exec fx read]
  | .subscript value slice => fx.strict .subscript [value.exec fx read, slice.exec fx read]
  | .slice lower upper step =>
    fx.strict (.slice lower.isSome upper.isSome step.isSome)
      (Expr.execOption fx read lower ++ (Expr.execOption fx read upper ++ Expr.execOption fx read step))
  | .lambda params body => fx.enter (.lambda params body)
  | .listComp item generators => fx.enter (.listComp item generators)
  | .setComp item generators => fx.enter (.setComp item generators)
  | .generatorExp item generators => fx.enter (.generatorExp item generators)
  | .dictComp key value generators => fx.enter (.dictComp key value generators)
  | .await value => fx.enter (.await value)
  | .yield value => fx.enter (.yield value)
  | .yieldFrom value => fx.enter (.yieldFrom value)

def Expr.execs (fx : Effects m ν) (read : Ident → m ν) : List Expr → List (m ν)
  | [] => []
  | e :: es => e.exec fx read :: Expr.execs fx read es

def Expr.execOption (fx : Effects m ν) (read : Ident → m ν) : Option Expr → List (m ν)
  | none => []
  | some e => [e.exec fx read]

def Keyword.execs (fx : Effects m ν) (read : Ident → m ν) : List Keyword → List (m ν)
  | [] => []
  | ⟨_, value⟩ :: ks => value.exec fx read :: Keyword.execs fx read ks

end

variable (fx : Effects m ν) (read : Ident → m ν)

theorem Expr.exec_eq_kind (e : Expr) : e.exec fx read = e.kind.exec fx read := by
  obtain ⟨pos, kind⟩ := e
  rw [Expr.exec]

theorem Expr.execs_eq_map (es : List Expr) : Expr.execs fx read es = es.map (Expr.exec fx read) := by
  induction es with
  | nil => rfl
  | cons e es ih => rw [Expr.execs, ih, map_cons]

theorem Expr.execOption_eq_map (e : Option Expr) : Expr.execOption fx read e = e.toList.map (Expr.exec fx read) := by
  cases e <;> rfl

theorem Keyword.execs_eq_map (ks : List Keyword) :
    Keyword.execs fx read ks = (ks.map Keyword.value).map (Expr.exec fx read) := by
  induction ks with
  | nil => rfl
  | cons k ks ih =>
    obtain ⟨name, value⟩ := k
    rw [Keyword.execs, ih, map_cons, map_cons]

end

theorem map_interleave (f : α → β) (as bs : List α) :
    (interleave as bs).map f = interleave (as.map f) (bs.map f) := by
  fun_induction interleave as bs with
  | case1 a as b bs ih => simp [interleave, ih]
  | case2 bs => cases bs <;> rfl
  | case3 as => cases as <;> rfl

theorem mem_interleave {a : α} {as bs : List α} (h : a ∈ interleave as bs) : a ∈ as ++ bs := by
  fun_induction interleave as bs with
  | case1 first as second bs ih =>
    simp only [mem_cons] at h
    rcases h with rfl | rfl | h
    · simp
    · simp
    · have hmem := ih h
      simp only [mem_append, mem_cons] at hmem ⊢
      tauto
  | case2 bs => exact h
  | case3 as => simpa using h

/-! ### Names replaced by expressions -/

/-- Nothing opens a scope or suspends the function: the expression is evaluated where it stands. -/
def Expr.IsDirect (e : Expr) : Prop :=
  ∀ node ∈ e.nodes Node.everywhere, node.isScope = false ∧ node.suspends = false

theorem Expr.IsDirect.child {c} (h : e.IsDirect) (hc : c ∈ e.children) : c.IsDirect :=
  fun node hnode => h node (Expr.mem_nodes_child hc hnode)

theorem Expr.Rebuilds.exec [Monad m] {ν : Type} {fx : Effects m ν} {read read' : Ident → m ν} {R : Expr → Expr → Prop}
    (hR : ∀ {a b}, R a b → b.exec fx read = a.exec fx read') {new} (h : e.Rebuilds R new)
    (hread : ∀ id, e.name? = some id → read id = read' id)
    (henter : e.isScope = false ∧ (Node.expr e).suspends = false ∨ ∀ kind kind', fx.enter kind = fx.enter kind') :
    new.exec fx read = e.exec fx read' := by
  have hlist : ∀ {as bs}, Forall₂ R as bs → Expr.execs fx read bs = Expr.execs fx read' as := by
    intro as bs hforall
    induction hforall with
    | nil => rfl
    | cons hfirst _ ih => exact congrArg₂ List.cons (hR hfirst) ih
  have hoption : ∀ {o o'}, Option.Rel R o o' →
      Expr.execOption fx read o' = Expr.execOption fx read' o ∧ o'.isSome = o.isSome := by
    intro o o' ho
    cases ho with
    | none => exact ⟨rfl, rfl⟩
    | some h => exact ⟨congrArg (fun x => [x]) (hR h), rfl⟩
  cases h with
  | const => rfl
  | name => exact hread _ rfl
  | lambda | listComp | setComp | generatorExp | dictComp =>
    rcases henter with hdirect | henter
    · cases hdirect.1
    · exact henter _ _
  | await | yield | yieldFrom =>
    rcases henter with hdirect | henter
    · cases hdirect.2
    · exact henter _ _
  | boolOp h | set h | list h | tuple h => simp only [Expr.exec, ExprKind.exec, hlist h]
  | unaryOp h | starred h | attr h => simp only [Expr.exec, ExprKind.exec, hR h]
  | binOp hleft hright => simp only [Expr.exec, ExprKind.exec, hR hleft, hR hright]
  | subscript hvalue hslice => simp only [Expr.exec, ExprKind.exec, hR hvalue, hR hslice]
  | ifExp htest hbody horelse => simp only [Expr.exec, ExprKind.exec, hR htest, hR hbody, hR horelse]
  | dict hkeys hvalues => simp only [Expr.exec, ExprKind.exec, hlist hkeys, hlist hvalues]
  | compare hleft hcomparators => simp only [Expr.exec, ExprKind.exec, hR hleft, hlist hcomparators]
  | @call _ _ _ _ _ keywords keywords' hfunc hargs hkeywords =>
    have hnames : keywords'.map Keyword.name = keywords.map Keyword.name ∧
        Keyword.execs fx read keywords' = Keyword.execs fx read' keywords := by
      clear hread henter
      simp only [Keyword.execs_eq_map]
      induction hkeywords with
      | nil => exact ⟨rfl, rfl⟩
      | cons hfirst _ ih => exact ⟨congrArg₂ List.cons hfirst.name ih.1, congrArg₂ List.cons (hR hfirst.value) ih.2⟩
    simp only [Expr.exec, ExprKind.exec, hR hfunc, hlist hargs, hargs.length_eq, hnames.1, hnames.2]
  | slice hlower hupper hstep =>
    simp only [Expr.exec, ExprKind.exec, (hoption hlower).1, (hoption hlower).2, (hoption hupper).1,
      (hoption hupper).2,
      (hoption hstep).1, (hoption hstep).2]

/-- Replacing names by expressions changes only how the names are read. -/
theorem Expr.exec_substitute [Monad m] {ν : Type} {fx : Effects m ν} {read read' : Ident → m ν}
    {table} (hdirect : e.IsDirect)
    (hread : ∀ id ∈ e.names, (replacement table id).exec fx read = read' id) :
    (e.substitute table).exec fx read = e.exec fx read' := by
  induction e using Expr.induction_parts with
  | _ e ih =>
    have hroot := hdirect _ (Expr.mem_nodes_self e)
    have hnodes : ∀ c ∈ e.parts, ∀ node ∈ c.nodes Node.everywhere, node ∈ e.nodes Node.everywhere :=
      fun c hc _ hnode => Expr.mem_nodes_iff.mpr (.inr ⟨c, hc, hnode⟩)
    cases hname : e.name? with
    | some id =>
      have hid := hread id (mem_filterMap.mpr ⟨_, Expr.mem_nodes_self e, hname⟩)
      rw [Expr.eq_of_name hname]
      exact hid
    | none =>
      have hparts : e.Rebuilds (fun a b => b.exec fx read = a.exec fx read') (e.substitute table) := by
        refine Expr.rebuilds_substitute hname fun c hc => ⟨fun hscope => ?_, ?_⟩
        · cases hroot.1.symm.trans hscope
        · refine ih c hc (fun node hnode => hdirect node (hnodes c hc node hnode)) fun id hid => hread id ?_
          obtain ⟨node, hnode, hname⟩ := mem_filterMap.mp hid
          exact mem_filterMap.mpr ⟨node, hnodes c hc node hnode, hname⟩
      exact hparts.exec (fun h => h) (fun id hid => by rw [hname] at hid; cases hid) (.inl hroot)

/-! ### Paths -/

/-- What happens on the way of an evaluation. -/
inductive Event where
  | read (name : Ident)
  | done (op : Operation)
deriving DecidableEq

/-- The ways that an evaluation can take, with the events on each of them and its result. -/
structure Paths (α : Type) where
  all : List (List Event × α)
  nonempty : all ≠ []

namespace Paths

/-- The ways that a computation and the next one can take. -/
def bind {α β : Type} (paths : Paths α) (next : α → Paths β) : Paths β where
  all := paths.all.flatMap fun p => (next p.2).all.map fun q => (p.1 ++ q.1, q.2)
  nonempty := by
    obtain ⟨p, hp⟩ := exists_mem_of_ne_nil _ paths.nonempty
    obtain ⟨q, hq⟩ := exists_mem_of_ne_nil _ (next p.2).nonempty
    have hmem : (p.1 ++ q.1, q.2) ∈ paths.all.flatMap fun p => (next p.2).all.map fun q => (p.1 ++ q.1, q.2) :=
      mem_flatMap.mpr ⟨p, hp, mem_map.mpr ⟨q, hq, rfl⟩⟩
    exact ne_nil_of_mem hmem

instance : Monad Paths where
  pure a := ⟨[([], a)], cons_ne_nil _ _⟩
  bind := Paths.bind

theorem mem_bind {paths : Paths α} {next : α → Paths β} {p : List Event × α} {q : List Event × β} (hp : p ∈ paths.all)
    (hq : q ∈ (next p.2).all) : (p.1 ++ q.1, q.2) ∈ (paths >>= next).all :=
  mem_flatMap.mpr ⟨p, hp, mem_map.mpr ⟨q, hq, rfl⟩⟩

def event (event : Event) : Paths Unit := ⟨[([event], ())], cons_ne_nil _ _⟩

/-- Operations are noted, and tests go both ways. -/
def effects : Effects Paths Unit where
  constant _ := ()
  perform op _ := event (.done op)
  truth _ := ⟨[([.done .truth], true), ([.done .truth], false)], cons_ne_nil _ _⟩
  enter _ := pure ()

end Paths

def Expr.paths (e : Expr) : Paths Unit := e.exec Paths.effects fun name => Paths.event (.read name)

/-! ### Machines -/

/-- A variable of the module, or of a scope with so many scopes around it. -/
inductive Cell where
  | global (name : Ident)
  | inner (level : Nat) (name : Ident)
deriving DecidableEq

/-- What an evaluation runs on, with states `ω`, exceptions `ε` and values `ν`.  Operations may do anything to the
state, but only those that are known to rebind a variable change what is read from it.  Constants, tuples of them and
negated numbers are values without effects. -/
structure Machine (ω ε ν : Type) extends Effects (EStateM ε ω) ν where
  /-- The value of a variable. -/
  load : Cell → ω → Except ε ν
  /-- Whether an operation may rebind a variable. -/
  rebinds : Operation → Cell → Bool
  load_perform : ∀ {op : Operation} {c : Cell} {vs : List ν} {v : ν} {w w' : ω}, rebinds op c = false →
    perform op vs w = .ok v w' → load c w' = load c w
  load_truth : ∀ {c : Cell} {v : ν} {isTrue : Bool} {w w' : ω}, rebinds .truth c = false →
    truth v w = .ok isTrue w' → load c w' = load c w
  perform_minus : ∀ {v negated : Value}, Value.unary .minus v = .ok negated →
    perform (.unary .minus) [constant v] = pure (constant negated)
  perform_tuple : ∀ vs : List Value, perform .tuple (vs.map constant) = pure (constant (.tuple vs))

section Constants

variable {m : Type → Type} [Monad m] {ν : Type} {fx : Effects m ν} {read : Ident → m ν}

theorem Effects.exec_constants [LawfulMonad m]
    (hminus : ∀ {v negated : Value}, Value.unary .minus v = .ok negated →
      fx.perform (.unary .minus) [fx.constant v] = pure (fx.constant negated))
    (htuple : ∀ vs : List Value, fx.perform .tuple (vs.map fx.constant) = pure (fx.constant (.tuple vs))) :
    Expr.ConstantRules fun e v => e.exec fx read = pure (fx.constant v) where
  const _ _ := rfl
  minus {_ _ w v} _ hw := by
    change fx.strict _ ([fx.constant w].map pure) = _
    rw [Effects.strict, inSequence_map_pure, pure_bind, hminus hw]
  tuple {_ items vs} hitems := by
    have hexecs : Expr.execs fx read items = (vs.map fx.constant).map pure := by
      induction hitems with
      | nil => rfl
      | cons he _ ih => exact congrArg₂ List.cons he ih
    rw [Expr.exec, ExprKind.exec, hexecs, Effects.strict, inSequence_map_pure, pure_bind, htuple]

end Constants

namespace Machine

variable {ω ε ν : Type} (M : Machine ω ε ν)

def read (resolve : Ident → Cell) (name : Ident) : EStateM ε ω ν := fun w =>
  match M.load (resolve name) w with
  | .ok v => .ok v w
  | .error exc => .error exc w

theorem run_bind (x : EStateM ε ω α) (f : α → EStateM ε ω β) (w : ω) :
    (x >>= f) w = match x w with
      | .ok a w' => f a w'
      | .error exc w' => .error exc w' := by
  change EStateM.bind x f w = _
  unfold EStateM.bind
  cases x w <;> rfl

/-! ### Agreement -/

variable (origin : Ident → Option Cell) (frame : List (Ident × ν))

/-- No name that stands for a variable is read after an operation that rebinds the variable. -/
def InTime (path : List Event) : Prop :=
  path.Pairwise fun before after => ∀ op name c, before = .done op → after = .read name → origin name = some c →
    M.rebinds op c = false

/-- The variables that no operation of a path rebinds have the values of the frame. -/
def Holds (path : List Event) (w : ω) : Prop :=
  ∀ name c v, origin name = some c → frame.lookup name = some v → (∀ op, .done op ∈ path → M.rebinds op c = false) →
    M.load c w = .ok v

/-- Two computations do the same if they follow one of the paths, along which all reads are in time. -/
def Alike {α β : Type} (R : α → β → Prop) (paths : Paths α) (x y : EStateM ε ω β) : Prop :=
  ∀ before w, M.Holds origin frame before w → (∀ p ∈ paths.all, M.InTime origin (before ++ p.1)) →
    x w = y w ∧ ∀ b w', x w = .ok b w' → ∃ p ∈ paths.all, R p.2 b ∧ M.Holds origin frame (before ++ p.1) w'

variable {M origin frame}

theorem alike_pure {R : α → β → Prop} {a : α} {b : β} (h : R a b) :
    M.Alike origin frame R (pure a) (pure b) (pure b) := by
  intro before w hw _
  refine ⟨rfl, fun b' w' hb' => ?_⟩
  cases hb'
  refine ⟨([], a), mem_singleton_self _, h, ?_⟩
  rwa [append_nil]

theorem Alike.bind {γ δ : Type} {R : α → β → Prop} {S : γ → δ → Prop} {paths : Paths α} {x y : EStateM ε ω β}
    {next : α → Paths γ} {f g : β → EStateM ε ω δ} (h : M.Alike origin frame R paths x y)
    (hnext : ∀ a b, R a b → M.Alike origin frame S (next a) (f b) (g b)) :
    M.Alike origin frame S (paths >>= next) (x >>= f) (y >>= g) := by
  intro before w hw htime
  -- every path goes on, so that what is read in time to the end is read in time so far
  have hfirst : ∀ p ∈ paths.all, M.InTime origin (before ++ p.1) := by
    intro p hp
    obtain ⟨q, hq⟩ := exists_mem_of_ne_nil _ (next p.2).nonempty
    have hall := htime _ (Paths.mem_bind hp hq)
    rw [← append_assoc] at hall
    exact hall.sublist (sublist_append_left _ _)
  obtain ⟨hsame, hruns⟩ := h before w hw hfirst
  rw [run_bind, run_bind, ← hsame]
  cases hx : x w with
  | error exc w' => exact ⟨rfl, fun b w'' hb => by cases hb⟩
  | ok b w' =>
    obtain ⟨p, hp, hR, hw'⟩ := hruns b w' hx
    have hrest : ∀ q ∈ (next p.2).all, M.InTime origin (before ++ p.1 ++ q.1) := by
      intro q hq
      rw [append_assoc]
      exact htime _ (Paths.mem_bind hp hq)
    obtain ⟨hsame', hruns'⟩ := hnext p.2 b hR (before ++ p.1) w' hw' hrest
    refine ⟨hsame', fun d w'' hd => ?_⟩
    obtain ⟨q, hq, hS, hw''⟩ := hruns' d w'' hd
    refine ⟨_, Paths.mem_bind hp hq, hS, ?_⟩
    rwa [← append_assoc]

theorem Holds.done {path op} {w w' : ω} (h : M.Holds origin frame path w)
    (hload : ∀ c, M.rebinds op c = false → M.load c w' = M.load c w) :
    M.Holds origin frame (path ++ [.done op]) w' := by
  intro name c v horigin hv hkept
  rw [hload c (hkept op (by simp))]
  exact h name c v horigin hv fun op' hop' => hkept op' (by simp [hop'])

theorem alike_perform (op : Operation) (us : List Unit) (vs : List ν) :
    M.Alike origin frame (fun _ _ => True) (Paths.effects.perform op us) (M.perform op vs) (M.perform op vs) := by
  intro before w hw _
  refine ⟨rfl, fun v w' hv => ⟨_, mem_singleton_self _, trivial, ?_⟩⟩
  exact hw.done fun c hc => M.load_perform hc hv

theorem alike_truth (u : Unit) (v : ν) : M.Alike origin frame Eq (Paths.effects.truth u) (M.truth v) (M.truth v) := by
  intro before w hw _
  refine ⟨rfl, fun isTrue w' hv => ⟨([.done .truth], isTrue), ?_, rfl, ?_⟩⟩
  · cases isTrue <;> simp [Paths.effects]
  · exact hw.done fun c hc => M.load_truth hc hv

section

variable {α : Type} {as : List α} {f : α → Paths Unit} {g h : α → EStateM ε ω ν}

theorem alike_inSequence (hall : ∀ a ∈ as, M.Alike origin frame (fun _ _ => True) (f a) (g a) (h a)) :
    M.Alike origin frame (fun _ _ => True) (inSequence (as.map f)) (inSequence (as.map g))
      (inSequence (as.map h)) := by
  induction as with
  | nil => exact alike_pure trivial
  | cons a as ih =>
    refine (hall a mem_cons_self).bind fun _ _ _ => ?_
    refine (ih fun b hb => hall b (mem_cons_of_mem _ hb)).bind fun _ _ _ => ?_
    exact alike_pure trivial

theorem alike_strict (op : Operation)
    (hall : ∀ a ∈ as, M.Alike origin frame (fun _ _ => True) (f a) (g a) (h a)) :
    M.Alike origin frame (fun _ _ => True) (Paths.effects.strict op (as.map f)) (M.strict op (as.map g))
      (M.strict op (as.map h)) :=
  (alike_inSequence hall).bind fun us vs _ => alike_perform op us vs

theorem alike_junction (op : BoolOp) : (as : List α) →
    (∀ a ∈ as, M.Alike origin frame (fun _ _ => True) (f a) (g a) (h a)) →
    M.Alike origin frame (fun _ _ => True) (Paths.effects.junction op (as.map f)) (M.junction op (as.map g))
      (M.junction op (as.map h))
  | [], _ => alike_pure trivial
  | [a], hall => hall a mem_cons_self
  | a :: b :: as, hall => by
    refine (hall a mem_cons_self).bind fun _ v _ => ?_
    refine (alike_truth () v).bind fun isTrue _ heq => ?_
    subst heq
    cases isTrue == (op == .and) with
    | true => exact alike_junction op (b :: as) fun c hc => hall c (mem_cons_of_mem _ hc)
    | false => exact alike_pure trivial

theorem alike_comparison (u : Unit) (left : ν) : (ops : List CompareOp) → (as : List α) →
    (∀ a ∈ as, M.Alike origin frame (fun _ _ => True) (f a) (g a) (h a)) →
    M.Alike origin frame (fun _ _ => True) (Paths.effects.comparison u ops (as.map f))
      (M.comparison left ops (as.map g)) (M.comparison left ops (as.map h))
  | [], _, _ | _ :: _, [], _ => alike_pure trivial
  | op :: ops, a :: as, hall => by
    refine (hall a mem_cons_self).bind fun _ right _ => ?_
    refine (alike_perform (.compare op) _ [left, right]).bind fun _ v _ => ?_
    cases ops.isEmpty with
    | true => exact alike_pure trivial
    | false =>
      refine (alike_truth () v).bind fun isTrue _ heq => ?_
      subst heq
      cases isTrue with
      | true => exact alike_comparison _ right ops as fun b hb => hall b (mem_cons_of_mem _ hb)
      | false => exact alike_pure trivial

theorem alike_choice {x1 x2 x3} {y1 y2 y3 z1 z2 z3 : EStateM ε ω ν}
    (htest : M.Alike origin frame (fun _ _ => True) x1 y1 z1)
    (hbody : M.Alike origin frame (fun _ _ => True) x2 y2 z2)
    (horelse : M.Alike origin frame (fun _ _ => True) x3 y3 z3) :
    M.Alike origin frame (fun _ _ => True) (Paths.effects.choice x1 x2 x3) (M.choice y1 y2 y3)
      (M.choice z1 z2 z3) := by
  refine htest.bind fun _ v _ => ?_
  refine (alike_truth () v).bind fun isTrue _ heq => ?_
  subst heq
  cases isTrue with
  | true => exact hbody
  | false => exact horelse

end

/-- Two evaluations that read the names in different ways agree as long as the reads agree along the paths. -/
theorem alike_exec (hdirect : e.IsDirect) {read read' : Ident → EStateM ε ω ν}
    (hread : ∀ name, M.Alike origin frame (fun _ _ => True) (Paths.event (.read name)) (read name) (read' name)) :
    M.Alike origin frame (fun _ _ => True) e.paths (e.exec M.toEffects read) (e.exec M.toEffects read') := by
  induction e using Expr.induction_children with
  | _ e ih =>
    have hpart : ∀ c ∈ e.children, M.Alike origin frame (fun _ _ => True) c.paths (c.exec M.toEffects read)
        (c.exec M.toEffects read') := fun c hc => ih c hc (hdirect.child hc)
    have hroot := hdirect _ (Expr.mem_nodes_self e)
    obtain ⟨pos, kind⟩ := e
    unfold Expr.paths at hpart ⊢
    cases kind with
    | const => exact alike_pure trivial
    | name id => exact hread id
    | lambda | listComp | setComp | generatorExp | dictComp => cases hroot.1
    | await | yield | yieldFrom => cases hroot.2
    | boolOp op values =>
      simp only [Expr.exec, ExprKind.exec, Expr.execs_eq_map]
      exact alike_junction op values hpart
    | set items | list items | tuple items =>
      simp only [Expr.exec, ExprKind.exec, Expr.execs_eq_map]
      exact alike_strict _ hpart
    | unaryOp | starred | attr | binOp | subscript => exact alike_strict _ hpart
    | ifExp test body orelse =>
      exact alike_choice (hpart test (by simp [Expr.children])) (hpart body (by simp [Expr.children]))
        (hpart orelse (by simp [Expr.children]))
    | dict keys values =>
      simp only [Expr.exec, ExprKind.exec, Expr.execs_eq_map, ← map_interleave]
      exact alike_strict _ fun c hc => hpart c (mem_interleave hc)
    | compare left ops comparators =>
      simp only [Expr.exec, ExprKind.exec, Expr.execs_eq_map]
      refine (hpart left mem_cons_self).bind fun _ v _ => ?_
      exact alike_comparison _ v ops comparators fun c hc => hpart c (mem_cons_of_mem _ hc)
    | call func args keywords =>
      simp only [Expr.exec, ExprKind.exec, Expr.execs_eq_map, Keyword.execs_eq_map, ← map_append]
      exact alike_strict _ hpart
    | slice lower upper step =>
      simp only [Expr.exec, ExprKind.exec, Expr.execOption_eq_map, ← map_append]
      exact alike_strict _ hpart

end Machine

end Speculator
