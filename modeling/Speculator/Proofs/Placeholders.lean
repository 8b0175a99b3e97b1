import Speculator.Proofs.Demands

/-!
# Placeholders of builtins

A specialized function may read builtins from its constants.  In the fast version their loads are literal texts, which
the support module replaces by the builtins, by a table with an entry for each of them.

No text stands for two builtins, and none is a text of the module, nor the placeholder of another function
(`optimize_placeholders`).  But the texts of a fast version need not be texts of the module: one that is computed in
it may be a placeholder of the function, and is replaced by the builtin too (`optimize_placeholders_folded`).
-/

namespace Speculator

open List

variable {copied : List (Ident × String)}

/-! ### Loads -/

/-- What code loads when it runs. -/
inductive Load where
  | name (id : Ident)
  | text (text : String)
  /-- A variable into whose value an attribute or item is stored. -/
  | object (id : Ident)
deriving DecidableEq

def Value.loads : Value → List Load
  | .str text => [.text text]
  | _ => []

/-! The loads of trees, without those in the scopes that they open. -/

mutual

def Expr.loads : Expr → List Load
  | ⟨_, kind⟩ => kind.loads

def ExprKind.loads : ExprKind → List Load
  | .const v => v.loads
  | .name id => [.name id]
  | .boolOp _ values => Expr.loadsList values
  | .binOp left _ right => left.loads ++ right.loads
  | .unaryOp _ operand => operand.loads
  | .lambda params _ => params.loads
  | .ifExp test body orelse => test.loads ++ body.loads ++ orelse.loads
  | .dict keys values => Expr.loadsList keys ++ Expr.loadsList values
  | .set items | .list items | .tuple items => Expr.loadsList items
  | .listComp _ generators | .setComp _ generators | .generatorExp _ generators | .dictComp _ _ generators =>
    Generator.loadsFirst generators
  | .await value | .yieldFrom value | .starred value | .attr value _ => value.loads
  | .yield value => Expr.loadsOption value
  | .compare left _ comparators => left.loads ++ Expr.loadsList comparators
  | .call func args keywords => func.loads ++ Expr.loadsList args ++ Keyword.loadsList keywords
  | .subscript value slice => value.loads ++ slice.loads
  | .slice lower upper step => Expr.loadsOption lower ++ Expr.loadsOption upper ++ Expr.loadsOption step

def Expr.loadsOption : Option Expr → List Load
  | none => []
  | some e => e.loads

def Expr.loadsList : List Expr → List Load
  | [] => []
  | e :: es => e.loads ++ Expr.loadsList es

def Expr.loadsOptions : List (Option Expr) → List Load
  | [] => []
  | e :: es => Expr.loadsOption e ++ Expr.loadsOptions es

def Params.loads : Params → List Load
  | ⟨_, _, _, kwDefaults, _, defaults⟩ => Expr.loadsList defaults ++ Expr.loadsOptions kwDefaults

def Keyword.loadsList : List Keyword → List Load
  | [] => []
  | ⟨_, value⟩ :: ks => value.loads ++ Keyword.loadsList ks

def Generator.loadsFirst : List Generator → List Load
  | [] => []
  | ⟨_, iter, _, _⟩ :: _ => iter.loads

end

def Expr.baseLoads (e : Expr) : List Load :=
  match e.kind with
  | .name id => [.object id]
  | _ => e.loads

mutual

def Expr.targetLoads : Expr → List Load
  | ⟨_, .name _⟩ => []
  | ⟨_, .tuple items⟩ | ⟨_, .list items⟩ => Expr.targetsLoads items
  | ⟨_, .starred value⟩ => value.targetLoads
  | ⟨_, .attr value _⟩ => value.baseLoads
  | ⟨_, .subscript value slice⟩ => value.baseLoads ++ slice.loads
  | e => e.loads

def Expr.targetsLoads : List Expr → List Load
  | [] => []
  | e :: es => e.targetLoads ++ Expr.targetsLoads es

end

def WithItem.loads (item : WithItem) : List Load := item.context.loads ++ (item.target.map Expr.targetLoads).getD []

mutual

def Stmt.loads : Stmt → List Load
  | ⟨_, kind⟩ => kind.loads

def StmtKind.loads : StmtKind → List Load
  | .functionDef ⟨_, params, _, decorators, _⟩ => Expr.loadsList decorators ++ params.loads
  | .classDef ⟨_, bases, keywords, _, decorators⟩ =>
    Expr.loadsList decorators ++ Expr.loadsList bases ++ Keyword.loadsList keywords
  | .ret value => Expr.loadsOption value
  | .delete targets => Expr.targetsLoads targets
  | .assign targets value => value.loads ++ Expr.targetsLoads targets
  | .augAssign target _ value => target.targetLoads ++ value.loads
  | .forLoop target iter body orelse _ =>
    iter.loads ++ target.targetLoads ++ Stmt.loadsList body ++ Stmt.loadsList orelse
  | .whileLoop test body orelse | .cond test body orelse => test.loads ++ Stmt.loadsList body ++ Stmt.loadsList orelse
  | .withBlock items body _ => items.flatMap WithItem.loads ++ Stmt.loadsList body
  | .raise exc cause => Expr.loadsOption exc ++ Expr.loadsOption cause
  | .tryBlock body handlers orelse final =>
    Stmt.loadsList body ++ Handler.loadsList handlers ++ Stmt.loadsList orelse ++ Stmt.loadsList final
  | .expr value => value.loads
  | .importModules _ | .importFrom .. | .globals _ | .nonlocals _ | .pass | .brk | .cont => []

def Stmt.loadsList : List Stmt → List Load
  | [] => []
  | s :: ss => s.loads ++ Stmt.loadsList ss

def Handler.loadsList : List Handler → List Load
  | [] => []
  | ⟨_, type, _, body⟩ :: hs => Expr.loadsOption type ++ Stmt.loadsList body ++ Handler.loadsList hs

end

/-! ### Substituting placeholders -/

def Load.patched (copied : List (Ident × String)) : Load → Load
  | .name id =>
    match copied.lookup id with
    | some placeholder => .text placeholder
    | none => .name id
  | load => load

section Substitution

open Load (patched)

theorem Load.append_patched {as bs cs ds : List Load} (h : as = cs.map (patched copied))
    (h' : bs = ds.map (patched copied)) : as ++ bs = (cs ++ ds).map (patched copied) := by
  rw [h, h', map_append]

theorem Value.loads_patched (v : Value) : v.loads = v.loads.map (patched copied) := by cases v <;> rfl

theorem Specialize.loads_replacement (pos : Position) (id : Ident) :
    (replacement (placeholders pos copied) id).loads = [(Load.name id).patched copied] := by
  have hlookup : (placeholders pos copied).lookup id =
      (copied.lookup id).map fun text => ⟨pos, .const (.str text)⟩ := by
    unfold placeholders
    induction copied with
    | nil => rfl
    | cons p copied ih =>
      rw [map_cons, lookup_cons, lookup_cons, ih]
      split <;> rfl
  unfold replacement
  rw [hlookup]
  dsimp only [Load.patched]
  cases copied.lookup id with
  | none => rfl
  | some text => rfl

open Load (append_patched)

open Specialize (placeholders loads_replacement)

variable (pos : Position)

mutual

theorem Expr.loads_substitute : (e : Expr) →
    (e.substitute (placeholders pos copied)).loads = e.loads.map (patched copied)
  | ⟨_, kind⟩ => ExprKind.loads_substitute kind

theorem ExprKind.loads_substitute : (kind : ExprKind) →
    (kind.substitute (placeholders pos copied)).loads = kind.loads.map (patched copied)
  | .const v => v.loads_patched
  | .name id => loads_replacement pos id
  | .boolOp _ items | .set items | .list items | .tuple items => Expr.loads_substituteList items
  | .unaryOp _ value | .await value | .yieldFrom value | .starred value | .attr value _ => Expr.loads_substitute value
  | .yield value => Expr.loads_substituteOption value
  | .binOp left _ right | .subscript left right =>
    append_patched (Expr.loads_substitute left) (Expr.loads_substitute right)
  | .lambda params _ => Params.loads_substitute params
  | .ifExp test body orelse =>
    append_patched (append_patched (Expr.loads_substitute test) (Expr.loads_substitute body))
      (Expr.loads_substitute orelse)
  | .dict keys values => append_patched (Expr.loads_substituteList keys) (Expr.loads_substituteList values)
  | .listComp _ generators | .setComp _ generators | .generatorExp _ generators | .dictComp _ _ generators =>
    Generator.loads_substituteFirst generators
  | .compare left _ comparators => append_patched (Expr.loads_substitute left) (Expr.loads_substituteList comparators)
  | .call func args keywords =>
    append_patched (append_patched (Expr.loads_substitute func) (Expr.loads_substituteList args))
      (Keyword.loads_substituteList keywords)
  | .slice lower upper step =>
    append_patched (append_patched (Expr.loads_substituteOption lower) (Expr.loads_substituteOption upper))
      (Expr.loads_substituteOption step)

theorem Expr.loads_substituteOption : (e : Option Expr) →
    Expr.loadsOption (Expr.substituteOption (placeholders pos copied) e) = (Expr.loadsOption e).map (patched copied)
  | none => rfl
  | some e => Expr.loads_substitute e

theorem Expr.loads_substituteList : (es : List Expr) →
    Expr.loadsList (Expr.substituteList (placeholders pos copied) es) = (Expr.loadsList es).map (patched copied)
  | [] => rfl
  | e :: es => append_patched (Expr.loads_substitute e) (Expr.loads_substituteList es)

theorem Expr.loads_substituteOptions : (es : List (Option Expr)) →
    Expr.loadsOptions (Expr.substituteOptions (placeholders pos copied) es) =
      (Expr.loadsOptions es).map (patched copied)
  | [] => rfl
  | e :: es => append_patched (Expr.loads_substituteOption e) (Expr.loads_substituteOptions es)

theorem Params.loads_substitute : (p : Params) →
    (p.substitute (placeholders pos copied)).loads = p.loads.map (patched copied)
  | ⟨_, _, _, kwDefaults, _, defaults⟩ =>
    append_patched (Expr.loads_substituteList defaults) (Expr.loads_substituteOptions kwDefaults)

theorem Keyword.loads_substituteList : (ks : List Keyword) →
    Keyword.loadsList (Keyword.substituteList (placeholders pos copied) ks) =
      (Keyword.loadsList ks).map (patched copied)
  | [] => rfl
  | ⟨_, value⟩ :: ks => append_patched (Expr.loads_substitute value) (Keyword.loads_substituteList ks)

theorem Generator.loads_substituteFirst : (gs : List Generator) →
    Generator.loadsFirst (Generator.substituteFirst (placeholders pos copied) gs) =
      (Generator.loadsFirst gs).map (patched copied)
  | [] => rfl
  | ⟨_, iter, _, _⟩ :: _ => Expr.loads_substitute iter

end

theorem Expr.loads_substituteBase (e : Expr) :
    (e.substituteBase (placeholders pos copied)).baseLoads = e.baseLoads.map (patched copied) := by
  obtain ⟨at', kind⟩ := e
  cases kind with
  | name id => rfl
  | _ => exact Expr.loads_substitute pos ⟨at', _⟩

mutual

theorem Expr.loads_substituteTarget : (e : Expr) →
    (e.substituteTarget (placeholders pos copied)).targetLoads = e.targetLoads.map (patched copied)
  | ⟨_, kind⟩ => by
    cases kind with
    | name => rfl
    | tuple items | list items => exact Expr.loads_substituteTargets items
    | starred value => exact Expr.loads_substituteTarget value
    | attr value _ => exact Expr.loads_substituteBase pos value
    | subscript value slice =>
      exact append_patched (Expr.loads_substituteBase pos value) (Expr.loads_substitute pos slice)
    | _ =>
      simp only [Expr.substituteTarget, Expr.targetLoads]
      exact Expr.loads_substitute pos ⟨_, _⟩

theorem Expr.loads_substituteTargets : (es : List Expr) →
    Expr.targetsLoads (Expr.substituteTargets (placeholders pos copied) es) =
      (Expr.targetsLoads es).map (patched copied)
  | [] => rfl
  | e :: es => append_patched (Expr.loads_substituteTarget e) (Expr.loads_substituteTargets es)

end

theorem WithItem.loads_substitute (item : WithItem) :
    (item.substitute (placeholders pos copied)).loads = item.loads.map (patched copied) := by
  obtain ⟨context, target⟩ := item
  refine append_patched (Expr.loads_substitute pos context) ?_
  cases target with
  | none => rfl
  | some target => exact Expr.loads_substituteTarget pos target

mutual

theorem Stmt.loads_substitute : (t : Stmt) →
    (t.substitute (placeholders pos copied)).loads = t.loads.map (patched copied)
  | ⟨_, kind⟩ => StmtKind.loads_substitute kind

theorem StmtKind.loads_substitute : (kind : StmtKind) →
    (kind.substitute (placeholders pos copied)).loads = kind.loads.map (patched copied)
  | .functionDef ⟨_, params, _, decorators, _⟩ =>
    append_patched (Expr.loads_substituteList pos decorators) (Params.loads_substitute pos params)
  | .classDef ⟨_, bases, keywords, _, decorators⟩ =>
    append_patched (append_patched (Expr.loads_substituteList pos decorators)
      (Expr.loads_substituteList pos bases)) (Keyword.loads_substituteList pos keywords)
  | .ret value => Expr.loads_substituteOption pos value
  | .delete targets => Expr.loads_substituteTargets pos targets
  | .assign targets value =>
    append_patched (Expr.loads_substitute pos value) (Expr.loads_substituteTargets pos targets)
  | .augAssign target _ value =>
    append_patched (Expr.loads_substituteTarget pos target) (Expr.loads_substitute pos value)
  | .forLoop target iter body orelse _ =>
    append_patched (append_patched (append_patched (Expr.loads_substitute pos iter)
      (Expr.loads_substituteTarget pos target)) (Stmt.loads_substituteList body)) (Stmt.loads_substituteList orelse)
  | .whileLoop test body orelse | .cond test body orelse =>
    append_patched (append_patched (Expr.loads_substitute pos test) (Stmt.loads_substituteList body))
      (Stmt.loads_substituteList orelse)
  | .withBlock items body _ => by
    refine append_patched ?_ (Stmt.loads_substituteList body)
    simp only [flatMap_map, map_flatMap, WithItem.loads_substitute pos]
  | .raise exc cause =>
    append_patched (Expr.loads_substituteOption pos exc) (Expr.loads_substituteOption pos cause)
  | .tryBlock body handlers orelse final =>
    append_patched (append_patched (append_patched (Stmt.loads_substituteList body)
      (Handler.loads_substituteList handlers)) (Stmt.loads_substituteList orelse)) (Stmt.loads_substituteList final)
  | .expr value => Expr.loads_substitute pos value
  | .importModules _ | .importFrom _ _ _ | .globals _ | .nonlocals _ | .pass | .brk | .cont => rfl

/-- Substituting the placeholders makes a text of each load of one of the builtins, the objects of stores apart, and
leaves all other loads as they are. -/
theorem Stmt.loads_substituteList : (ts : List Stmt) →
    Stmt.loadsList (Stmt.substituteList (placeholders pos copied) ts) = (Stmt.loadsList ts).map (patched copied)
  | [] => rfl
  | t :: ts => append_patched (Stmt.loads_substitute t) (Stmt.loads_substituteList ts)

theorem Handler.loads_substituteList : (hs : List Handler) →
    Handler.loadsList (Handler.substituteList (placeholders pos copied) hs) =
      (Handler.loadsList hs).map (patched copied)
  | [] => rfl
  | ⟨_, type, _, body⟩ :: hs =>
    append_patched (append_patched (Expr.loads_substituteOption pos type) (Stmt.loads_substituteList body))
      (Handler.loads_substituteList hs)

end

end Substitution

theorem Load.patched_of_mem (hnames : (copied.map Prod.fst).Nodup) {p}
    (hp : p ∈ copied) : (Load.name p.1).patched copied = .text p.2 := by
  obtain ⟨before, after, rfl⟩ := append_of_mem hp
  have hlookup : (before ++ p :: after).lookup p.1 = some p.2 := by
    refine lookup_eq_some_iff.mpr ⟨before, after, rfl, fun q hq => ?_⟩
    rw [map_append, nodup_append] at hnames
    have hne := hnames.2.2 q.1 (mem_map_of_mem hq) p.1 (by simp)
    simpa using hne.symm
  dsimp only [Load.patched]
  rw [hlookup]

/-! ### The placeholders of a module -/

theorem Specialize.table_mem_definitions {slow fast guards kept} (hcopied : copied ≠ []) :
    assign slow.pos (member slow.pos fast.name "__code__") (supportCall slow.pos "replace_consts"
      [member slow.pos fast.name "__code__", ⟨slow.pos, .dict (copied.map fun p => ⟨slow.pos, .const (.str p.2)⟩)
        (copied.map fun p => ⟨slow.pos, .name p.1⟩)⟩]) ∈ definitions slow fast guards copied kept := by
  have hpatch : patch slow.pos copied = ⟨slow.pos, .dict (copied.map fun p => ⟨slow.pos, .const (.str p.2)⟩)
      (copied.map fun p => ⟨slow.pos, .name p.1⟩)⟩ := by
    unfold patch placeholders
    rw [map_map]
    rfl
  unfold definitions
  dsimp only
  rw [if_neg (by simpa using hcopied), hpatch]
  exact mem_append_left _ (mem_append_right _ (mem_singleton_self _))

/-- The fast version of a function reads the builtins in the table `copied` from its constants.  The visit of the
function, from the state `s` to the state `s'`, gives the statements `ts`. -/
structure Patched (given : Table) (pos : Position) (s : State) (fast : FunctionDef) (copied : Table) (ts : List Stmt)
    (s' : State) : Prop where
  names : (copied.map Prod.fst).Nodup
  chosen : copied ⊆ given
  /-- The placeholders are not in use before, and are not those of the functions around this one. -/
  fresh : ∀ p ∈ copied, p.2 ∉ s.texts ∧ p.2 ∈ s'.texts ∧ p ∉ s'.scope.copied
  placed : ∀ p ∈ copied, (Load.name p.1).patched copied = .text p.2
  body : ∃ body, ⟨pos, .functionDef ⟨fast.name, fast.params, body, [], fast.isAsync⟩⟩ ∈ ts ∧
    Stmt.loadsList body = (Stmt.loadsList fast.body).map (Load.patched copied)
  /-- The table has a placeholder as the key and the name of its builtin as the value. -/
  table : copied ≠ [] →
    Specialize.assign pos (Specialize.member pos fast.name "__code__")
      (Specialize.supportCall pos "replace_consts" [Specialize.member pos fast.name "__code__",
        ⟨pos, .dict (copied.map fun p => ⟨pos, .const (.str p.2)⟩) (copied.map fun p => ⟨pos, .name p.1⟩)⟩]) ∈ ts

/-- Texts and placeholders are only added.  A function becomes one definition or is specialized. -/
def Patched.demand (given : Table) : Demand := fun _ s t ts s' =>
  s.Gains s' ∧ ∀ fn, t.kind = .functionDef fn → (∃ new, ts = [⟨t.pos, .functionDef new⟩]) ∨
    ∃ slow fast guards copied kept, ts = Specialize.definitions slow fast guards copied kept ∧
      Patched given t.pos s fast copied ts s'

/-- In whatever module, and however deep its visits may be, the placeholders of all functions are in one table in
which no text appears twice, and none that the module has.  In a fast version, all loads of the builtins in its own
table are their placeholders, except for objects of stores, and the other loads are as they were. -/
theorem optimize_placeholders (depth : Nat) (config : Config) (filename : String) (source : Option String)
    (m : Module) :
    ∃ given : Table, given.Distinct (Stmt.texts m.body) ∧ ∀ failure,
      optimizeWith (demandingVisitor (Patched.demand given) failure depth ⟨[], m.body⟩) config filename source m =
        optimizeWith (visitor depth) config filename source m := by
  refine optimize_demanding Patched.demand (fun given code s t ts s' h => ?_) depth config filename source m
  refine ⟨h.gains, fun fn hfn => (h.function fn hfn).imp_right fun hts => ?_⟩
  obtain ⟨slow, fast, guards, copied, kept, rfl, hspecialized⟩ := hts
  have hplaced : ∀ p ∈ copied, _ := fun p hp => Load.patched_of_mem hspecialized.names hp
  refine ⟨_, fast, guards, copied, kept, rfl, hspecialized.names, hspecialized.chosen, hspecialized.fresh,
    hplaced, ?_, ?_⟩
  · exact ⟨_, by simp [Specialize.definitions], Stmt.loads_substituteList t.pos fast.body⟩
  · exact fun hcopied => Specialize.table_mem_definitions hcopied

def Module.functionLoads (m : Module) : List (List Load) :=
  m.body.filterMap fun t =>
    match t.kind with
    | .functionDef fn => some (Stmt.loadsList fn.body)
    | _ => none

set_option maxRecDepth 100000 in
/-- A function that returns `len(x)` and `"LOAD_GLOBAL " + "len"`.  In its fast version the text is computed, and then
is the placeholder for `len`. -/
theorem optimize_placeholders_folded :
    let text (s : String) : Expr := ⟨{}, .const (.str s)⟩
    let len : Expr := ⟨{}, .call ⟨{}, .name "len"⟩ [⟨{}, .name "x"⟩] []⟩
    let sum : Expr := ⟨{}, .binOp (text "LOAD_GLOBAL ") .add (text "len")⟩
    let f : FunctionDef :=
      ⟨"f", ⟨["x"], none, [], [], none, []⟩, [⟨{}, .ret (some ⟨{}, .tuple [len, sum]⟩)⟩], [], false⟩
    (optimize { copyBuiltinToConstant := true } "m.py" none ⟨[⟨{}, .functionDef f⟩]⟩).result.toOption.map
      Module.functionLoads = some [[.name "len", .name "x", .text "LOAD_GLOBAL len"],
        [.text "LOAD_GLOBAL len", .name "x", .text "LOAD_GLOBAL len"]] := by
  decide +kernel

end Speculator
