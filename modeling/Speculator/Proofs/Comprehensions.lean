import Mathlib
import Speculator.Proofs.Effects
import Speculator.Proofs.Replacements

/-!
# Comprehensions

The value of a comprehension with one clause: the items of its iterable are bound to a name in a scope of its own, one
after the other, and the results are collected (`Expr.comprehended`).  A display with an item for each of them, in
which the name has been replaced, has the same value in the scope around the comprehension
(`Unrolling.value_unrolled`).

The parts are evaluated step by step, with the operations on values as the steps (`Operation.effects`).  Where nothing
is called, this gives the value that `Expr.eval` gives (`Expr.valueIn_eq_eval`).
-/

namespace Speculator

open List Visit

/-! ### Steps of evaluation -/

def Index.value : Index → Except Fault Value
  | .item v => .ok v
  | .span _ _ _ => .error .typeError

/-- Takes the value of a bound off the values, if the bound is given. -/
def Index.bound (given : Bool) (vs : List Value) : Option Value × List Value :=
  if given then (vs.head?, vs.tail) else (none, vs)

def pairUp {α : Type} : List α → List (α × α)
  | k :: v :: rest => (k, v) :: pairUp rest
  | _ => []

namespace Operation

def onValues : Operation → List Value → Except Fault Value
  | .unary op, [v] => Value.unary op v
  | .binary op, [l, r] => Value.binary op l r
  | .compare op, [l, r] => (Value.compare op l r).map .bool
  | .tuple, vs => .ok (.tuple vs)
  | .list, vs => .ok (.list vs)
  | .set, vs => (Value.collectSet vs).map .set
  | .dict, vs => (Value.collectDict (pairUp vs)).map .dict
  | _, _ => .error .typeError

def result : Operation → List Index → Except Fault Index
  | .subscript, [.item container, .item key] => (Value.subscript container key).map .item
  | .subscript, [.item sequence, .span lower upper step] => (Value.slice sequence lower upper step).map .item
  | .slice hasLower hasUpper hasStep, operands => do
    let vs ← operands.mapM Index.value
    let (lower, vs) := Index.bound hasLower vs
    let (upper, vs) := Index.bound hasUpper vs
    let (step, _) := Index.bound hasStep vs
    Index.ofBounds lower upper step
  | op, operands => do
    let vs ← operands.mapM Index.value
    (op.onValues vs).map .item

def effects : Effects (Except Fault) Index where
  constant := .item
  perform := result
  truth i := i.value.map Value.truthy
  enter _ := .error .typeError

def takesValues : Operation → Bool
  | .subscript | .slice _ _ _ => false
  | _ => true

end Operation

theorem mapM_value (vs : List Value) : (vs.map Index.item).mapM Index.value = .ok vs := by
  induction vs with
  | nil => rfl
  | cons v vs ih =>
    rw [map_cons, mapM_cons, ih]
    rfl

theorem inSequence_items (rs : List (Except Fault Value)) :
    inSequence (rs.map (Except.map Index.item)) = (inSequence rs).map (List.map Index.item) := by
  induction rs with
  | nil => rfl
  | cons r rs ih =>
    rw [map_cons, inSequence, inSequence, ih]
    cases r with
    | error => rfl
    | ok v => cases inSequence rs <;> rfl

/-- An operation on values is performed on what its operands evaluate to. -/
theorem strict_of_values {op} (hop : op.takesValues = true) (rs : List (Except Fault Value)) :
    Operation.effects.strict op (rs.map (Except.map Index.item)) = (inSequence rs >>= op.onValues).map .item := by
  rw [Effects.strict, inSequence_items]
  cases inSequence rs with
  | error => rfl
  | ok vs =>
    have hresult : op.result (vs.map .item) =
        (vs.map Index.item).mapM Index.value >>= fun vs => (op.onValues vs).map .item := by
      cases op with
      | subscript | slice => cases hop
      | _ => rfl
    rw [mapM_value] at hresult
    exact hresult

theorem pairUp_interleave {α : Type} (ks vs : List α) (h : ks.length = vs.length) :
    pairUp (interleave ks vs) = ks.zip vs := by
  induction ks generalizing vs with
  | nil =>
    cases vs with
    | nil => rfl
    | cons => cases h
  | cons k ks ih =>
    cases vs with
    | nil => cases h
    | cons v vs => rw [interleave, pairUp, ih vs (by simpa using h), zip_cons_cons]

/-! ### Values with variables -/

/-- What reading the variables gives. -/
abbrev Reads := Ident → Except Fault Value

def Expr.valueIn (read : Reads) (e : Expr) : Except Fault Value :=
  e.exec Operation.effects (fun id => (read id).map .item) >>= Index.value

/-- The results of a comprehension for the items of its only clause.  The iterable is evaluated around it, where
variables are read by `read`; inside, those other than the target are read by `free`. -/
def Generator.results {α : Type} (free read : Reads) (result : Reads → Except Fault α) :
    List Generator → Except Fault (List α)
  | [⟨⟨_, .name id⟩, iter, [], false⟩] => do
    let v ← iter.valueIn read
    match v.items? false with
    | some items => items.mapM fun item => result (Function.update free id (.ok item))
    | none => .error .typeError
  | _ => .error .typeError

def Expr.comprehended (free read : Reads) (e : Expr) : Except Fault Value :=
  match e.kind with
  | .listComp item gens => (Generator.results free read item.valueIn gens).map .list
  | .setComp item gens => do
    let vs ← Generator.results free read item.valueIn gens
    (Value.collectSet vs).map .set
  | .dictComp key value gens => do
    let ps ← Generator.results free read (fun inner => do return (← key.valueIn inner, ← value.valueIn inner)) gens
    (Value.collectDict ps).map .dict
  | _ => .error .typeError

section Values

variable {read : Reads} {pos : Position} {e : Expr} {v : Value} {es : List Expr} {vs : List Value}

theorem Expr.valueIn_eq_ok :
    e.valueIn read = .ok v ↔ e.exec Operation.effects (fun id => (read id).map .item) = .ok (.item v) := by
  unfold Expr.valueIn
  rcases e.exec Operation.effects _ with fault | (w | ⟨lower, upper, step⟩) <;> simp [bind, Except.bind, Index.value]

theorem Expr.valueIn_of_constant (h : e.constant? = some v) : e.valueIn read = .ok v := by
  have hrules : Expr.ConstantRules fun e v => e.exec Operation.effects (fun id => (read id).map .item) =
      .ok (.item v) :=
    Effects.exec_constants (fun hnegated => congrArg (Except.map Index.item) hnegated)
      fun vs => (congrArg (· >>= _) (mapM_value vs)).trans rfl
  exact Expr.valueIn_eq_ok.mpr (hrules.holds e h)

theorem Expr.execs_of_values (h : Forall₂ (fun e v => e.valueIn read = .ok v) es vs) :
    Expr.execs Operation.effects (fun id => (read id).map .item) es =
      (vs.map Except.ok).map (Except.map Index.item) := by
  induction h with
  | nil => rfl
  | cons he _ ih => exact congrArg₂ List.cons (Expr.valueIn_eq_ok.mp he) ih

/-- The display of an operation on values. -/
theorem Expr.strict_of_execs {op} (hop : op.takesValues = true)
    (h : Forall₂ (fun e v => e.valueIn read = .ok v) es vs)
    (hv : op.onValues vs = .ok v) :
    Operation.effects.strict op (Expr.execs Operation.effects (fun id => (read id).map .item) es) =
      .ok (.item v) := by
  rw [Expr.execs_of_values h, strict_of_values hop, inSequence_map_ok]
  exact congrArg (Except.map Index.item) hv

theorem Expr.valueIn_tuple (h : Forall₂ (fun e v => e.valueIn read = .ok v) es vs) :
    Expr.valueIn read ⟨pos, .tuple es⟩ = .ok (.tuple vs) :=
  Expr.valueIn_eq_ok.mpr (Expr.strict_of_execs rfl h rfl)

theorem Expr.valueIn_list (h : Forall₂ (fun e v => e.valueIn read = .ok v) es vs) :
    Expr.valueIn read ⟨pos, .list es⟩ = .ok (.list vs) :=
  Expr.valueIn_eq_ok.mpr (Expr.strict_of_execs rfl h rfl)

theorem Expr.valueIn_set (h : Forall₂ (fun e v => e.valueIn read = .ok v) es vs)
    (hset : (Value.collectSet vs).map .set = .ok v) : Expr.valueIn read ⟨pos, .set es⟩ = .ok v :=
  Expr.valueIn_eq_ok.mpr (Expr.strict_of_execs rfl h hset)

theorem Expr.valueIn_dict {keys values ps} (hkeys : Forall₂ (fun e p => e.valueIn read = .ok p.1) keys ps)
    (hvalues : Forall₂ (fun e p => e.valueIn read = .ok p.2) values ps)
    (hdict : (Value.collectDict ps).map .dict = .ok v) : Expr.valueIn read ⟨pos, .dict keys values⟩ = .ok v := by
  refine Expr.valueIn_eq_ok.mpr ?_
  rw [Expr.exec, ExprKind.exec, Expr.execs_of_values (forall₂_map_right_iff.mpr hkeys),
    Expr.execs_of_values (forall₂_map_right_iff.mpr hvalues), ← map_interleave, ← map_interleave,
      strict_of_values rfl,
    inSequence_map_ok]
  change ((Value.collectDict (pairUp _)).map Value.dict).map Index.item = _
  rw [pairUp_interleave _ _ (by simp), ← zip_of_prod rfl rfl, hdict]
  rfl

theorem Expr.valueIn_displays (read : Reads) (pos : Position) :
    Value.DisplayRules pos fun v e => v.Regular true → e.valueIn read = .ok v := by
  have hitems : ∀ {vs es}, Forall₂ (fun v e => v.Regular true → Expr.valueIn read e = .ok v) vs es →
      (∀ v ∈ vs, v.Regular true) → Forall₂ (fun e v => Expr.valueIn read e = .ok v) es vs := fun h hvs =>
    (forall₂_of_mem hvs h).flip
  refine ⟨fun _ _ => rfl, fun h hv => ?_, fun hconstant _ hv => ?_, fun h hv => ?_, fun h hv => ?_,
    fun hkeys hvalues hv => ?_⟩
  all_goals rw [Value.Regular] at hv
  · exact valueIn_tuple (hitems h (Value.allRegular_iff.mp hv))
  · rw [Value.isConstant, hv] at hconstant
    cases hconstant
  · exact valueIn_list (hitems h (Value.allRegular_iff.mp hv))
  · refine valueIn_set (hitems h (Value.allRegular_iff.mp hv.2.1)) ?_
    rw [Value.collectSet_of_distinct hv.2.2]
    rfl
  · have hpairs := Value.pairsRegular_iff.mp hv.2.1
    refine valueIn_dict (forall₂_of_mem (fun p hp => (hpairs p hp).1) hkeys).flip
      (forall₂_of_mem (fun p hp => (hpairs p hp).2) hvalues).flip ?_
    rw [Value.collectDict_of_distinct hv.2.2]
    rfl

end Values

/-! ### The value of an expression

Evaluation step by step gives the value that `Expr.eval` gives, where nothing is called. -/

/-- What a program finds around it when its variables are read in the given way. -/
def Meaning.ofReads (read : Reads) : Meaning Fault where
  fault := id
  unbound name :=
    match read name with
    | .error fault => fault
    | .ok _ => .typeError
  call _ _ := .error .typeError
  identical := Value.compare .is

def Reads.env (read : Reads) : Env := fun name => (read name).toOption

/-- The parts that are evaluated to values. -/
def Expr.operands (e : Expr) : List Expr :=
  match e.kind with
  | .subscript value _ => [value]
  | _ => e.children

/-- Slices only stand between the brackets of a subscription, and every key of a display has its value. -/
def Expr.isOrdinary (e : Expr) : Bool :=
  e.operands.all (!·.isSlice) &&
    match e.kind with
    | .dict keys values => keys.length == values.length
    | _ => true

def Expr.IsOrdinary (e : Expr) : Prop := ∀ c, .expr c ∈ e.nodes Node.everywhere → c.isOrdinary = true

section Evaluation

variable {read : Reads} {e : Expr}

theorem Meaning.result_ofReads {α : Type} (r : Except Fault α) : (Meaning.ofReads read).result r = r := by
  cases r <;> rfl

theorem Meaning.compare_ofReads (op : CompareOp) (l r : Value) :
    (Meaning.ofReads read).compare op l r = Value.compare op l r := by
  cases op with
  | is | isNot => rfl
  | _ => exact result_ofReads _

theorem junction_items (op : BoolOp) (rs : List (Except Fault Value)) :
    Operation.effects.junction op (rs.map (Except.map Index.item)) = (junction op rs).map .item := by
  induction rs with
  | nil => rfl
  | cons r rs ih =>
    cases rs with
    | nil => rfl
    | cons r' rs =>
      rw [map_cons] at ih ⊢
      cases r with
      | error => rfl
      | ok v =>
        change (if v.truthy == (op == .and) then _ else _) =
          (if v.truthy == (op == .and) then _ else _ : Except _ _).map _
        split
        · exact ih
        · rfl

theorem inSequence_pairs (ks vs : List (Except Fault Value)) (hlength : ks.length = vs.length) :
    (inSequence (interleave ks vs)).map pairUp = pairsInOrder ks vs := by
  induction ks generalizing vs with
  | nil =>
    cases vs with
    | nil => rfl
    | cons => cases hlength
  | cons k ks ih =>
    cases vs with
    | nil => cases hlength
    | cons v vs =>
      rw [interleave, inSequence, inSequence, pairsInOrder, ← ih vs (by simpa using hlength)]
      cases k with
      | error => rfl
      | ok k =>
        cases v with
        | error => rfl
        | ok v => cases inSequence (interleave ks vs) <;> rfl

theorem Expr.evals_eq_map {ε : Type} (m : Meaning ε) (env : Env) (es : List Expr) :
    Expr.evals m env es = es.map (Expr.eval m env) := by
  induction es with
  | nil => rfl
  | cons e es ih => rw [evals, ih, map_cons]

theorem Expr.eval_name (read : Reads) (pos : Position) (id : Ident) :
    Expr.eval (.ofReads read) read.env ⟨pos, .name id⟩ = read id := by
  rw [eval, Reads.env]
  cases hread : read id with
  | error fault => simp [Except.toOption, Meaning.ofReads, hread]
  | ok v => rfl

theorem Expr.mem_children_of_operand {c} (hc : c ∈ e.operands) : c ∈ e.children := by
  obtain ⟨pos, kind⟩ := e
  cases kind with
  | subscript => exact mem_cons.mpr (.inl (mem_singleton.mp hc))
  | _ => exact hc

/-- The value of a slice comes from its bounds, which are evaluated one after the other. -/
theorem strict_slice (lower upper step : Option (Except Fault Value)) :
    Operation.effects.strict (.slice lower.isSome upper.isSome step.isSome)
        ((lower.toList ++ (upper.toList ++ step.toList)).map (Except.map Index.item)) = (do
      let low ← lower.elim (.ok none) (Except.map some)
      let high ← upper.elim (.ok none) (Except.map some)
      let by' ← step.elim (.ok none) (Except.map some)
      Index.ofBounds low high by') := by
  rcases lower with _ | _ | low <;> rcases upper with _ | _ | high <;> rcases step with _ | _ | by' <;> rfl

theorem Expr.exec_eq_index {fr : Fragment} (hcalls : ∀ id, ¬fr.calls id) (he : e.Plain fr)
    (hordinary : e.IsOrdinary) :
    e.exec Operation.effects (fun id => (read id).map .item) = e.index (.ofReads read) read.env := by
  induction e using Expr.induction_children with
  | _ e ih =>
    have hpart : ∀ c ∈ e.children, c.Plain fr →
        c.exec Operation.effects (fun id => (read id).map .item) = c.index (.ofReads read) read.env := fun c hc hp =>
      ih c hc hp fun node hnode => hordinary node (Expr.mem_nodes_child hc hnode)
    have hroot := hordinary e (Expr.mem_nodes_self e)
    rw [isOrdinary, Bool.and_eq_true, all_eq_true] at hroot
    have hoperand : ∀ c ∈ e.operands, c.Plain fr →
        c.exec Operation.effects (fun id => (read id).map .item) = (c.eval (.ofReads read) read.env).map .item := by
      intro c hc hp
      rw [hpart c (mem_children_of_operand hc) hp, index_of_not_slice]
      simpa using hroot.1 c hc
    have hoperands : ∀ es, (∀ c ∈ es, c ∈ e.operands) → AllPlain fr es →
        Expr.execs Operation.effects (fun id => (read id).map .item) es =
          (Expr.evals (.ofReads read) read.env es).map (Except.map Index.item) := by
      intro es hes hp
      rw [Expr.execs_eq_map, Expr.evals_eq_map, map_map]
      exact map_congr_left fun c hc => hoperand c (hes c hc) (allPlain_iff.mp hp c hc)
    obtain ⟨pos, kind⟩ := e
    cases kind with
    | const => rfl
    | name id => exact congrArg (Except.map Index.item) (eval_name read pos id).symm
    | binOp left op right =>
      rw [Plain] at he
      rw [exec, ExprKind.exec, hoperand left (by simp [operands, children]) he.1,
        hoperand right (by simp [operands, children]) he.2]
      refine (strict_of_values rfl [left.eval _ _, right.eval _ _]).trans (congrArg (Except.map Index.item) ?_)
      rw [eval]
      cases left.eval (.ofReads read) read.env with
      | error => rfl
      | ok l =>
        cases right.eval (.ofReads read) read.env with
        | error => rfl
        | ok r => exact (Meaning.result_ofReads _).symm
    | unaryOp op operand =>
      rw [Plain] at he
      rw [exec, ExprKind.exec, hoperand operand (by simp [operands, children]) he]
      refine (strict_of_values rfl [operand.eval _ _]).trans (congrArg (Except.map Index.item) ?_)
      rw [eval]
      cases operand.eval (.ofReads read) read.env with
      | error => rfl
      | ok v => exact (Meaning.result_ofReads _).symm
    | ifExp test body orelse =>
      rw [Plain] at he
      rw [exec, ExprKind.exec, hoperand test (by simp [operands, children]) he.1,
        hoperand body (by simp [operands, children]) he.2.1, hoperand orelse (by simp [operands, children]) he.2.2]
      simp only [index, eval]
      cases test.eval (.ofReads read) read.env with
      | error => rfl
      | ok v =>
        change (if v.truthy then _ else _) = Except.map Index.item (if v.truthy then _ else _)
        split <;> rfl
    | boolOp op values =>
      rw [Plain] at he
      rw [exec, ExprKind.exec, hoperands values (fun _ h => h) he, junction_items]
      simp only [index, eval]
    | tuple items | list items =>
      rw [Plain] at he
      rw [exec, ExprKind.exec, hoperands items (fun _ h => h) he, strict_of_values rfl]
      simp only [index, eval]
      cases inSequence (Expr.evals (.ofReads read) read.env items) <;> rfl
    | set items =>
      rw [Plain] at he
      rw [exec, ExprKind.exec, hoperands items (fun _ h => h) he.2, strict_of_values rfl]
      simp only [index, eval, Meaning.result_ofReads]
      rfl
    | dict keys values =>
      rw [Plain] at he
      have hlength : keys.length = values.length := by simpa using hroot.2
      have hpairs := inSequence_pairs (Expr.evals (.ofReads read) read.env keys)
        (Expr.evals (.ofReads read) read.env values) (by simp [Expr.evals_eq_map, hlength])
      rw [exec, ExprKind.exec, hoperands keys (fun _ h => mem_append_left _ h) he.2.1,
        hoperands values (fun _ h => mem_append_right _ h) he.2.2, ← map_interleave, strict_of_values rfl]
      simp only [index, eval, Meaning.result_ofReads, ← hpairs]
      cases inSequence (interleave (Expr.evals _ _ keys) (Expr.evals _ _ values)) <;> rfl
    | compare left ops comparators =>
      obtain ⟨op, right, rfl, rfl, hleft, hright⟩ := of_plain_compare he
      rw [exec, ExprKind.exec, hoperand left (by simp [operands, children]) hleft, Expr.execs, Expr.execs,
        hoperand right (by simp [operands, children]) hright]
      simp only [index, eval, Meaning.compare_ofReads]
      cases left.eval (.ofReads read) read.env with
      | error => rfl
      | ok l =>
        cases right.eval (.ofReads read) read.env with
        | error => rfl
        | ok r => exact bind_pure (((Value.compare op l r).map Value.bool).map Index.item)
    | subscript value index =>
      rw [Plain] at he
      rw [exec, ExprKind.exec, hoperand value mem_cons_self he.1, hpart index (by simp [children]) he.2]
      change _ = Except.map Index.item (eval _ _ _)
      rw [eval_subscript]
      cases value.eval (.ofReads read) read.env with
      | error => rfl
      | ok v =>
        cases index.index (.ofReads read) read.env with
        | error => rfl
        | ok i => cases i <;> exact congrArg (Except.map Index.item) (Meaning.result_ofReads _).symm
    | slice lower upper step =>
      have hbound : ∀ o, (∀ c ∈ o.toList, c ∈ lower.toList ++ (upper.toList ++ step.toList)) → PlainOption fr o →
          Expr.execOption Operation.effects (fun id => (read id).map .item) o =
              (o.map (Expr.eval (.ofReads read) read.env)).toList.map (Except.map Index.item) ∧
            Expr.evalOption (.ofReads read) read.env o =
              (o.map (Expr.eval (.ofReads read) read.env)).elim (.ok none) (Except.map some) := by
        intro o ho hp
        cases o with
        | none => exact ⟨rfl, rfl⟩
        | some c => exact ⟨congrArg (fun x => [x]) (hoperand c (ho c (by simp)) hp), rfl⟩
      rw [Plain] at he
      obtain ⟨hlower, hlow⟩ := hbound lower (fun c hc => by simp [hc]) he.1
      obtain ⟨hupper, hhigh⟩ := hbound upper (fun c hc => by simp [hc]) he.2.1
      obtain ⟨hstep, hby⟩ := hbound step (fun c hc => by simp [hc]) he.2.2
      rw [exec, ExprKind.exec, hlower, hupper, hstep, ← map_append, ← map_append]
      simp only [index, hlow, hhigh, hby, Meaning.result_ofReads, ← strict_slice, Option.isSome_map]
    | call func args keywords =>
      obtain ⟨_, id, _, _, hid, _⟩ := of_plain_call he
      exact (hcalls id hid).elim
    | _ => simp [Plain] at he

/-- The value of an expression that calls nothing. -/
theorem Expr.valueIn_eq_eval {fr : Fragment} (hcalls : ∀ id, ¬fr.calls id) (he : e.Plain fr)
    (hordinary : e.IsOrdinary)
    (hslice : e.isSlice = false) : e.valueIn read = e.eval (.ofReads read) read.env := by
  rw [valueIn, exec_eq_index hcalls he hordinary, index_of_not_slice _ _ hslice]
  cases e.eval (.ofReads read) read.env <;> rfl

end Evaluation

/-! ### Unrolling -/

namespace Unrolling

variable {kind : ScopeKind} {c : Comprehension} {free read : Reads}

theorem constant_items {iter items} (h : constantItems? iter = some items) :
    ∃ v, iter.constant? = some v ∧ v.items? false = some items ∧
      (v.Regular true → ∀ item ∈ items, item.Regular true) := by
  unfold constantItems? at h
  split at h <;> cases h
  case h_1 | h_2 =>
    refine ⟨_, ‹_›, rfl, fun _ item hitem => ?_⟩
    obtain ⟨_, _, rfl⟩ := mem_map.mp hitem
    exact Value.regular_of_isConstant true _ rfl
  case h_3 => exact ⟨_, ‹_›, rfl, fun hv => Value.allRegular_iff.mp (by rwa [Value.Regular] at hv)⟩

theorem valueIn_substitute (hmovable : movable kind c = true) (hfree : kind ≠ .classBody → free = read) {part}
    (hpart : part ∈ c.parts) (hsuspends : ∀ node ∈ part.nodes Node.everywhere, node.suspends = false) {item}
    (hitem : item.Regular true) (pos : Position) :
    (part.substitute [(c.target, item.toExpr pos)]).valueIn read =
      part.valueIn (Function.update free c.target (.ok item)) := by
  obtain ⟨hscope, hnames⟩ := Bool.and_eq_true_iff.mp (all_eq_true.mp hmovable part hpart)
  simp only [Expr.hasScope, Bool.not_eq_true', any_eq_false, Bool.not_eq_true] at hscope
  refine congrArg (· >>= Index.value) (Expr.exec_substitute ?_ fun id hid => ?_)
  · exact fun node hnode => ⟨hscope node hnode, hsuspends node hnode⟩
  by_cases htarget : id = c.target
  · subst htarget
    rw [Function.update_self]
    simp only [replacement, List.lookup, beq_self_eq_true]
    rw [← Expr.exec_eq_kind]
    exact Expr.valueIn_eq_ok.mp ((Expr.valueIn_displays read pos).holds item hitem)
  · -- in the body of a class, no other name is read
    have hkind : kind ≠ .classBody := by
      rintro rfl
      simp only [bne_self_eq_false, Bool.false_or, all_eq_true, beq_iff_eq] at hnames
      exact htarget (hnames id hid)
    have hlookup : (id == c.target) = false := by simpa using htarget
    rw [Function.update_of_ne htarget, hfree hkind]
    simp only [replacement, List.lookup, hlookup]
    rfl

theorem values_instances (hmovable : movable kind c = true) (hfree : kind ≠ .classBody → free = read) {part : Expr}
    (hpart : part ∈ c.parts) (hsuspends : ∀ node ∈ part.nodes Node.everywhere, node.suspends = false)
    {limits : Limits} {pos : Position} {items : List Value} {literals : List Expr}
    (hitems : ∀ item ∈ items, item.Regular true)
    (hliterals : Forall₂ (fun item l => limits.literal? item pos = some l) items literals) {α : Type}
    {value : α → Value} {rs : List α}
    (hrs : Forall₂ (fun item r => part.valueIn (Function.update free c.target (.ok item)) = .ok (value r)) items rs) :
    Forall₂ (fun e r => e.valueIn read = .ok (value r)) (instances part c.target literals) rs := by
  refine forall₂_map_left_iff.mpr ?_
  induction hliterals generalizing rs with
  | nil =>
    cases hrs
    exact .nil
  | cons hl _ ih =>
    obtain ⟨hitem, hitems⟩ := forall_mem_cons.mp hitems
    cases hrs with
    | cons hr hrs =>
      refine .cons ?_ (ih hitems hrs)
      rw [Limits.eq_toExpr_of_literal? hl]
      exact (valueIn_substitute hmovable hfree hpart hsuspends hitem pos).trans hr

theorem unrolled_of_enterExpr {ctx : Context} {s s' : State} {e new : Expr}
    (h : enterExpr e ctx s = .ok (some new) s') :
    ∃ count, unrolledComprehension? ctx.config s.scope.kind e = some (new, count) := by
  have hensures : Ensures (enterExpr e) (fun _ => False) (fun r _ => ∀ new, r = some new →
      ∃ count, unrolledComprehension? ctx.config s.scope.kind e = some (new, count)) ctx s := by
    unfold enterExpr
    simp only [ensures_config_bind, ensures_scope_bind]
    split
    · rename_i new count hnew
      refine ensures_log_bind.mpr (.pure fun new' hnew' => ?_)
      cases hnew'
      exact ⟨count, hnew⟩
    · exact .pure fun _ hnew => by cases hnew
  exact hensures.of_ok h new rfl

theorem results_eq_ok {α : Type} {result : Reads → Except Fault α} {target iter id v items} {rs : List α}
    (htarget : target.name? = some id) (hv : iter.constant? = some v)
    (hitems : v.items? false = some items)
    (h : Generator.results free read result [⟨target, iter, [], false⟩] = .ok rs) :
    Forall₂ (fun item r => result (Function.update free id (.ok item)) = .ok r) items rs := by
  rw [Expr.eq_of_name htarget] at h
  obtain ⟨w, hw, h⟩ := bind_eq_ok h
  cases (Expr.valueIn_of_constant hv).symm.trans hw
  simp only [hitems] at h
  exact mapM_eq_ok.mp h

/-- What a comprehension is unrolled to has the value of the comprehension, whatever the variable with the name of the
target is around it.  In a class, whose variables are not visible from the comprehension, the variables inside of it
may be others than those around it. -/
theorem value_unrolled {ctx : Context} {s s' : State} {e new : Expr} (h : enterExpr e ctx s = .ok (some new) s')
    (hsuspends : ∀ node ∈ e.nodes Node.everywhere, node.suspends = false)
    (hregular : ∀ c v, Forms e c → c.iter.constant? = some v → v.Regular true)
    (hfree : s.scope.kind ≠ .classBody → free = read) {v : Value} (hv : e.comprehended free read = .ok v) :
    new.valueIn read = .ok v := by
  obtain ⟨count, hnew⟩ := unrolled_of_enterExpr h
  obtain ⟨c, items, literals, hforms, hitems, hmovable, -, hliterals, rfl⟩ := of_unrolledComprehension? hnew
  obtain ⟨w, hw, hwitems, hall⟩ := constant_items hitems
  have hinstances := fun {part : Expr} (hpart : part ∈ c.parts) (hnodes : part ∈ e.parts) =>
    @values_instances _ _ _ _ hmovable hfree part hpart
      (fun node hnode => hsuspends node (Expr.mem_nodes_iff.mpr (.inr ⟨part, hnodes, hnode⟩))) _ _ _ _
      (hall (hregular c w hforms hw)) (forall₂_of_mapM hliterals)
  cases hforms with
  | list htarget =>
    obtain ⟨vs, hvs, rfl⟩ := map_eq_ok hv
    exact Expr.valueIn_list (hinstances (by simp) (by simp [Expr.parts]) (results_eq_ok htarget hw hwitems hvs))
  | set htarget =>
    obtain ⟨vs, hvs, hset⟩ := bind_eq_ok hv
    exact Expr.valueIn_set (hinstances (by simp) (by simp [Expr.parts]) (results_eq_ok htarget hw hwitems hvs)) hset
  | dict htarget =>
    obtain ⟨ps, hps, hdict⟩ := bind_eq_ok hv
    have hpairs := results_eq_ok htarget hw hwitems hps
    refine Expr.valueIn_dict (hinstances (by simp) (by simp [Expr.parts]) (hpairs.imp fun item p hp => ?_))
      (hinstances (by simp) (by simp [Expr.parts]) (hpairs.imp fun item p hp => ?_)) hdict
    · obtain ⟨k, hk, hp⟩ := bind_eq_ok hp
      obtain ⟨x, hx, hp⟩ := bind_eq_ok hp
      cases hp
      exact hk
    · obtain ⟨k, hk, hp⟩ := bind_eq_ok hp
      obtain ⟨x, hx, hp⟩ := bind_eq_ok hp
      cases hp
      exact hx

/-- The keys of `{x % 2: x for x in (1, 2, 3)}` are `1` and `0`, the first one with its last value, also where `x` is
already a variable. -/
theorem value_unrolled_dict :
    let x : Expr := ⟨{}, .name "x"⟩
    let iter : Expr := ⟨{}, .const (.tuple [.int 1, .int 2, .int 3])⟩
    let e : Expr := ⟨{}, .dictComp ⟨{}, .binOp x .mod ⟨{}, .const (.int 2)⟩⟩ x [⟨x, iter, [], false⟩]⟩
    let read : Reads := fun _ => .ok (.int 7)
    let ctx : Context := ⟨{}, "m.py", [], .generic, false, []⟩
    let s : State := ⟨{ kind := .module, vars := {} }, {}, [], [], false⟩
    let entries : Value := .dict [(.int 1, .int 3), (.int 0, .int 2)]
    ∃ new s', enterExpr e ctx s = .ok (some new) s' ∧ e.comprehended read read = .ok entries ∧
      new.valueIn read = .ok entries := by
  intro x iter e read ctx s entries
  have hrun : ∃ new s', enterExpr e ctx s = .ok (some new) s' := ⟨_, _, rfl⟩
  have hvalue : e.comprehended read read = .ok entries := by cbv
  obtain ⟨new, s', hrun⟩ := hrun
  refine ⟨new, s', hrun, hvalue, value_unrolled hrun (by decide) ?_ (fun _ => rfl) hvalue⟩
  intro c v hforms hv
  simp only [e] at hforms
  cases hforms
  cases hv
  exact Value.regular_of_isConstant true _ (by decide)

end Unrolling

end Speculator
