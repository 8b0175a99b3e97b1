import Mathlib.Data.Finset.Card
import Mathlib.Data.List.Iterate
import Speculator.Pass.Inlining
import Speculator.Proofs.Literals

/-!
# The calls between functions that can be inlined

Inlining a call brings the calls of the function's result into the expression.  Before that, the names that the result
may call through other functions are collected, and the call is kept if its own name is among them.

The names are collected in rounds, as many as there are functions.  Two tables of functions are in use, that of the
current scope and that of the module, each searched by itself. Yet no chain of inlined calls goes on forever
(`wellFounded_brings`): a result of the module that is inlined calls no name of the scopes below it.

All this is about the calls that a result has before its parameters are replaced.  A first-order function calls
neither a parameter nor the result of a call, so that the replaced result has no other calls
(`callsOnly_of_inlined?`).
-/

namespace Speculator

open List

variable {e result : Expr} {id name : Ident} {chain : List Scope} {allowGuards : Bool}

namespace Inlining

/-! ### Reachable names -/

section

variable {functions : List (Ident × FunctionDef)} {names : List Ident}

def Calls (functions : List (Ident × FunctionDef)) (name called : Ident) : Prop :=
  ∃ result, (functions.lookup name).bind result? = some result ∧ called ∈ result.calledNames

theorem mem_addCalled : name ∈ addCalled functions names ↔ name ∈ names ∨ ∃ x ∈ names, Calls functions x name := by
  unfold addCalled Calls
  rw [mem_eraseDups, mem_append, mem_flatMap]
  refine or_congr_right (exists_congr fun x => and_congr_right fun _ => ?_)
  cases (functions.lookup x).bind result? with
  | none => simp
  | some result => simp

def Closed (functions : List (Ident × FunctionDef)) (names : List Ident) : Prop :=
  ∀ x ∈ names, ∀ name, Calls functions x name → name ∈ names

theorem Closed.mem_addCalled (h : Closed functions names) : name ∈ addCalled functions names ↔ name ∈ names := by
  rw [Inlining.mem_addCalled]
  constructor
  · rintro (hname | ⟨x, hx, hcalls⟩)
    · exact hname
    · exact h x hx name hcalls
  · exact .inl

theorem Closed.addCalled (h : Closed functions names) : Closed functions (addCalled functions names) := by
  intro x hx name hcalls
  rw [h.mem_addCalled] at hx ⊢
  exact h x hx name hcalls

theorem Closed.iterate (h : Closed functions names) (rounds : Nat) :
    Closed functions ((Inlining.addCalled functions)^[rounds] names) := by
  induction rounds generalizing names with
  | zero => exact h
  | succ rounds ih => exact ih h.addCalled

def definedNames (functions : List (Ident × FunctionDef)) : Finset Ident := (functions.map Prod.fst).toFinset

theorem card_definedNames (functions : List (Ident × FunctionDef)) :
    (definedNames functions).card ≤ functions.length := by
  have h := toFinset_card_le (functions.map Prod.fst)
  rwa [length_map] at h

theorem Calls.mem_definedNames (h : Calls functions id name) : id ∈ definedNames functions := by
  obtain ⟨result, hresult, _⟩ := h
  obtain ⟨fn, hfn, _⟩ := Option.bind_eq_some_iff.mp hresult
  obtain ⟨l1, l2, rfl, _⟩ := lookup_eq_some_iff.mp hfn
  simp [definedNames]

theorem closed_addCalled (h : ∀ x ∈ definedNames functions, x ∈ addCalled functions names → x ∈ names) :
    Closed functions (addCalled functions names) := by
  intro x hx name hcalls
  exact mem_addCalled.mpr (.inr ⟨x, h x hcalls.mem_definedNames hx, hcalls⟩)

theorem closed_iterate (rounds : Nat) (h : (definedNames functions \ names.toFinset).card ≤ rounds) :
    Closed functions ((addCalled functions)^[rounds + 1] names) := by
  induction rounds generalizing names with
  | zero =>
    refine closed_addCalled fun x hx _ => ?_
    by_contra hnot
    have hmem : x ∈ definedNames functions \ names.toFinset := by simp [hx, hnot]
    have hpos := Finset.card_pos.mpr ⟨x, hmem⟩
    omega
  | succ rounds ih =>
    by_cases hnew : ∀ x ∈ definedNames functions, x ∈ addCalled functions names → x ∈ names
    · exact (closed_addCalled hnew).iterate (rounds + 1)
    · push Not at hnew
      obtain ⟨x, hx, hfound, hold⟩ := hnew
      have hsubset : definedNames functions \ (addCalled functions names).toFinset ⊂
          definedNames functions \ names.toFinset := by
        refine Finset.ssubset_iff_of_subset (fun y hy => ?_) |>.mpr ⟨x, by simp [hx, hold], by simp [hfound]⟩
        simp only [Finset.mem_sdiff, mem_toFinset] at hy ⊢
        exact ⟨hy.1, fun hmem => hy.2 (mem_addCalled.mpr (.inl hmem))⟩
      have hcard := Finset.card_lt_card hsubset
      exact ih (by omega)

theorem reachable_eq_iterate (functions : List (Ident × FunctionDef)) (e : Expr) :
    reachable functions e = (addCalled functions)^[functions.length] e.calledNames := by
  unfold reachable
  rw [foldl_const, length_range]

theorem closed_reachable (functions : List (Ident × FunctionDef)) (e : Expr) :
    Closed functions (reachable functions e) := by
  rw [reachable_eq_iterate]
  by_cases hstart : ∃ x ∈ definedNames functions, x ∈ e.calledNames
  · obtain ⟨x, hx, hcalled⟩ := hstart
    have hsubset : definedNames functions \ e.calledNames.toFinset ⊂ definedNames functions := by
      refine Finset.ssubset_iff_of_subset Finset.sdiff_subset |>.mpr ⟨x, hx, by simp [hcalled]⟩
    have hcard := Finset.card_lt_card hsubset
    have hlength := card_definedNames functions
    have hrounds : functions.length = (functions.length - 1) + 1 := by omega
    rw [hrounds]
    exact closed_iterate _ (by omega)
  · have hclosed : Closed functions e.calledNames := by
      intro x hx name hcalls
      exact absurd ⟨x, hcalls.mem_definedNames, hx⟩ hstart
    exact hclosed.iterate _

/-- The rounds find every name that is called. -/
theorem mem_reachable_of_called (h : name ∈ e.calledNames) : name ∈ reachable functions e := by
  rw [reachable_eq_iterate]
  generalize functions.length = rounds
  generalize e.calledNames = names at h
  induction rounds generalizing names with
  | zero => exact h
  | succ rounds ih => exact ih _ (mem_addCalled.mpr (.inl h))

theorem reachable_subset {result'} (hname : name ∈ reachable functions result)
    (hresult : (functions.lookup name).bind result? = some result') :
    ∀ x ∈ reachable functions result', x ∈ reachable functions result := by
  have hstart : ∀ x ∈ result'.calledNames, x ∈ reachable functions result := fun x hx =>
    closed_reachable functions result name hname x ⟨result', hresult, hx⟩
  intro x hx
  rw [reachable_eq_iterate] at hx
  generalize functions.length = rounds at hx
  generalize result'.calledNames = names at hx hstart
  induction rounds generalizing names with
  | zero => exact hstart x hx
  | succ rounds ih =>
    refine ih _ hx fun y hy => ?_
    rcases mem_addCalled.mp hy with hy | ⟨z, hz, hcalls⟩
    · exact hstart y hy
    · exact closed_reachable functions result z (hstart z hz) y hcalls

end

/-! ### Chains of inlined calls -/

section

variable {callee callee' : Callee} {result' : Expr}

/-- Calls of the name can be inlined: its function returns an expression that does not call it again. -/
structure Inlines (chain : List Scope) (allowGuards : Bool) (id : Ident) (callee : Callee) (result : Expr) :
    Prop where
  found : callee? chain allowGuards id = some callee
  returns : result? callee.fn = some result
  acyclic : id ∉ reachable callee.functions result

def Brings (chain : List Scope) (allowGuards : Bool) (id name : Ident) : Prop :=
  ∃ callee result, Inlines chain allowGuards id callee result ∧ name ∈ result.calledNames ∧
    (callee.guard?.isSome → Scope.bindsBelowModule chain name = false)

theorem callee?_cases (h : callee? chain allowGuards id = some callee) : ∃ scope rest, chain = scope :: rest ∧
    callee.functions.lookup id = some callee.fn ∧
    ((callee.guard?.isSome = false ∧ callee.functions = scope.functions ∧ scope.vars.locals.contains id = true) ∨
      (callee.guard?.isSome = true ∧ scope.kind = .function ∧
        ∃ module, Scope.moduleOf? chain = some module ∧ callee.functions = module.functions)) := by
  cases chain with
  | nil => cases h
  | cons scope rest =>
    refine ⟨scope, rest, rfl, ?_⟩
    unfold callee? at h
    cases hlookup : scope.functions.lookup id with
    | some fn =>
      simp only [hlookup] at h
      split at h
      · rename_i hbinds
        cases h
        simp only [bindsOnce, Bool.and_eq_true] at hbinds
        exact ⟨hlookup, .inl ⟨rfl, rfl, hbinds.1.1.1.2⟩⟩
      · cases h
    | none =>
      simp only [hlookup] at h
      split at h
      · rename_i hkind
        simp only [Bool.and_eq_true, beq_iff_eq] at hkind
        unfold moduleCallee? at h
        obtain ⟨module, hmodule, h⟩ := Option.bind_eq_some_iff.mp h
        split at h
        · cases h
        · obtain ⟨fn, hfn, h⟩ := Option.bind_eq_some_iff.mp h
          cases h
          exact ⟨hfn, .inr ⟨rfl, hkind.1, module, hmodule, rfl⟩⟩
      · cases h

theorem functions_eq_of_callee? (h : callee? chain allowGuards id = some callee)
    (h' : callee? chain allowGuards name = some callee') (hguard : callee'.guard?.isSome = callee.guard?.isSome) :
    callee'.functions = callee.functions := by
  obtain ⟨scope, rest, hchain, _, hcases⟩ := callee?_cases h
  obtain ⟨scope', rest', hchain', _, hcases'⟩ := callee?_cases h'
  obtain ⟨rfl, rfl⟩ := List.cons.inj (hchain.symm.trans hchain')
  rcases hcases with ⟨hnone, hfunctions, _⟩ | ⟨hsome, _, module, hmodule, hfunctions⟩
  · rcases hcases' with ⟨_, hfunctions', _⟩ | ⟨hsome', _⟩
    · rw [hfunctions, hfunctions']
    · rw [hnone, hsome'] at hguard
      cases hguard
  · rcases hcases' with ⟨hnone', _⟩ | ⟨_, _, module', hmodule', hfunctions'⟩
    · rw [hsome, hnone'] at hguard
      cases hguard
    · rw [hmodule] at hmodule'
      cases hmodule'
      rw [hfunctions, hfunctions']

theorem bindsBelowModule_of_callee? (h : callee? chain allowGuards id = some callee)
    (hguard : callee.guard?.isSome = true) (h' : callee? chain allowGuards name = some callee')
    (hguard' : callee'.guard?.isSome = false) :
    Scope.bindsBelowModule chain name = true := by
  obtain ⟨scope, rest, rfl, _, hcases⟩ := callee?_cases h
  obtain ⟨scope', rest', hchain', _, hcases'⟩ := callee?_cases h'
  obtain ⟨rfl, rfl⟩ := List.cons.inj hchain'
  rcases hcases with ⟨hnone, _⟩ | ⟨_, hkind, _⟩
  · rw [hguard] at hnone
    cases hnone
  · rcases hcases' with ⟨_, _, hlocal⟩ | ⟨hsome, _⟩
    · have hinner : (scope.kind != .module) = true := by rw [hkind]; rfl
      unfold Scope.bindsBelowModule
      rw [takeWhile_cons, hinner, if_pos rfl, any_cons, hlocal]
      rfl
    · rw [hguard'] at hsome
      cases hsome

/-- Functions of the scope come before those of the module; in one table, the more a result reaches, the higher. -/
def rank (chain : List Scope) (allowGuards : Bool) (id : Ident) : Nat × Nat :=
  match callee? chain allowGuards id with
  | none => (0, 0)
  | some callee =>
    match result? callee.fn with
    | none => (0, 0)
    | some result =>
      if id ∈ reachable callee.functions result then (0, 0)
      else (if callee.guard?.isSome then 0 else 1, (reachable callee.functions result).toFinset.card + 1)

theorem Inlines.rank_eq (h : Inlines chain allowGuards id callee result) :
    rank chain allowGuards id =
      (if callee.guard?.isSome then 0 else 1, (reachable callee.functions result).toFinset.card + 1) := by
  unfold rank
  simp only [h.found, h.returns, h.acyclic, if_false]

theorem rank_cases (chain : List Scope) (allowGuards : Bool) (id : Ident) :
    rank chain allowGuards id = (0, 0) ∨ ∃ callee result, Inlines chain allowGuards id callee result := by
  by_cases hzero : rank chain allowGuards id = (0, 0)
  · exact .inl hzero
  · right
    unfold rank at hzero
    split at hzero
    · exact absurd rfl hzero
    · rename_i callee hcallee
      split at hzero
      · exact absurd rfl hzero
      · rename_i result hresult
        split at hzero
        · exact absurd rfl hzero
        · rename_i hacyclic
          exact ⟨callee, result, hcallee, hresult, hacyclic⟩

theorem Inlines.card_lt (h : Inlines chain allowGuards id callee result)
    (h' : Inlines chain allowGuards name callee' result')
    (hguard : callee'.guard?.isSome = callee.guard?.isSome) (hname : name ∈ result.calledNames) :
    (reachable callee'.functions result').toFinset.card < (reachable callee.functions result).toFinset.card := by
  have hfunctions := functions_eq_of_callee? h.found h'.found hguard
  obtain ⟨_, _, _, hlookup, _⟩ := callee?_cases h'.found
  have hresult' : (callee'.functions.lookup name).bind result? = some result' := by rw [hlookup]; exact h'.returns
  have hacyclic := h'.acyclic
  rw [hfunctions] at hresult' hacyclic ⊢
  have hreached : name ∈ reachable callee.functions result := mem_reachable_of_called hname
  have hsubset := reachable_subset hreached hresult'
  refine Finset.card_lt_card (Finset.ssubset_iff_of_subset (fun x hx => ?_) |>.mpr ⟨name, ?_, ?_⟩)
  · simp only [mem_toFinset] at hx ⊢
    exact hsubset x hx
  · simp [hreached]
  · simp [hacyclic]

theorem Brings.rank_lt (h : Brings chain allowGuards id name) :
    Prod.Lex (· < ·) (· < ·) (rank chain allowGuards name) (rank chain allowGuards id) := by
  obtain ⟨callee, result, hinlines, hname, hbelow⟩ := h
  rw [hinlines.rank_eq]
  rcases rank_cases chain allowGuards name with hzero | ⟨callee', result', hinlines'⟩
  · rw [hzero, Prod.lex_def]
    split <;> simp
  · rw [hinlines'.rank_eq, Prod.lex_def]
    cases hguard : callee.guard?.isSome with
    | true =>
      -- what a result of the module calls is no function of the current scope
      cases hguard' : callee'.guard?.isSome with
      | true =>
        have hcard := hinlines.card_lt hinlines' (by rw [hguard, hguard']) hname
        simpa using hcard
      | false =>
        have hbinds := bindsBelowModule_of_callee? hinlines.found hguard hinlines'.found hguard'
        rw [hbelow hguard] at hbinds
        cases hbinds
    | false =>
      cases hguard' : callee'.guard?.isSome with
      | true => simp
      | false =>
        have hcard := hinlines.card_lt hinlines' (by rw [hguard, hguard']) hname
        simpa using hcard

/-- No chain of inlined calls goes on forever. -/
theorem wellFounded_brings (chain : List Scope) (allowGuards : Bool) :
    WellFounded fun name id => Brings chain allowGuards id name :=
  Subrelation.wf Brings.rank_lt (InvImage.wf (rank chain allowGuards) (Prod.lex Nat.lt_wfRel Nat.lt_wfRel).wf)

end

end Inlining

/-! ### First-order functions -/

def Expr.isCall (e : Expr) : Bool :=
  match e.kind with
  | .call .. => true
  | _ => false

def Node.callsResult : Node → Bool
  | .expr ⟨_, .call func _ _⟩ => func.isCall
  | _ => false

/-- Whether the function, if it can be inlined, calls neither a parameter nor the result of a call. -/
def FunctionDef.isFirstOrder (fn : FunctionDef) : Bool :=
  (Inlining.result? fn).all fun result =>
    !(result.nodes Node.everywhere).any Node.callsResult && !result.calledNames.any fn.params.args.contains

/-- The node opens no scope, and what it calls is no call and, if it is a name, has a property. -/
structure Node.CallsOnly (P : Ident → Prop) (node : Node) : Prop where
  scope : node.isScope = false
  order : node.callsResult = false
  called : ∀ name, node.calledName? = some name → P name

def Expr.CallsOnly (P : Ident → Prop) (e : Expr) : Prop := ∀ node ∈ e.nodes Node.everywhere, node.CallsOnly P

variable {table : List (Ident × Expr)}

section

variable {P : Ident → Prop}

theorem Node.callsOnly_of_not_call (hscope : e.isScope = false) (hcall : e.isCall = false) :
    (Node.expr e).CallsOnly P := by
  obtain ⟨pos, kind⟩ := e
  cases kind with
  | call => cases hcall
  | _ => exact ⟨hscope, rfl, fun name hname => by cases hname⟩

theorem Node.CallsOnly.imp {Q : Ident → Prop} {node : Node} (h : node.CallsOnly P) (hPQ : ∀ name, P name → Q name) :
    node.CallsOnly Q :=
  ⟨h.scope, h.order, fun name hname => hPQ name (h.called name hname)⟩

theorem Expr.CallsOnly.at (h : e.CallsOnly P) (pos : Position) : (⟨pos, e.kind⟩ : Expr).CallsOnly P := by
  obtain ⟨pos', kind⟩ := e
  intro node hnode
  rw [Expr.nodes_everywhere] at hnode
  rcases mem_cons.mp hnode with rfl | hnode
  · obtain ⟨hscope, horder, hcalled⟩ := h _ (Expr.mem_nodes_self ⟨pos', kind⟩)
    cases kind with
    | _ => exact ⟨hscope, horder, hcalled⟩
  · refine h node ?_
    rw [Expr.nodes_everywhere]
    exact mem_cons_of_mem _ hnode

theorem Expr.callsOnly_of_parts (hscope : e.isScope = false) (hcall : e.isCall = false)
    (hparts : ∀ c ∈ e.parts, c.CallsOnly P) : e.CallsOnly P := by
  intro node hnode
  rcases Expr.mem_nodes_iff.mp hnode with rfl | ⟨c, hc, hnode⟩
  · exact Node.callsOnly_of_not_call hscope hcall
  · exact hparts c hc node hnode

theorem Expr.callsOnly_constants : Expr.ConstantRules fun e _ => e.CallsOnly P where
  const _ _ := Expr.callsOnly_of_parts rfl rfl fun c hc => by cases hc
  minus _ _ := by
    refine Expr.callsOnly_of_parts rfl rfl fun c hc => ?_
    rw [mem_singleton.mp hc]
    exact Expr.callsOnly_of_parts rfl rfl fun c hc => by cases hc
  tuple hitems := Expr.callsOnly_of_parts rfl rfl (forall_mem_of_forall₂ hitems)

theorem Inlining.callsOnly_of_isSimple (h : isSimple e = true) : e.CallsOnly P := by
  unfold isSimple at h
  split at h
  · rename_i id hid
    obtain ⟨pos, kind⟩ := e
    cases hid
    exact Expr.callsOnly_of_parts rfl rfl fun c hc => by cases hc
  · cases h
  · obtain ⟨v, hv⟩ := Option.isSome_iff_exists.mp h
    exact Expr.callsOnly_constants.holds e hv

/-! ### Replaced parameters -/

/-- With simple arguments in the place of names that are not called, the result has the calls that it had. -/
theorem Expr.CallsOnly.substitute (h : e.CallsOnly P)
    (hsimple : ∀ p ∈ table, Inlining.isSimple p.2 = true) (hkeys : ∀ name ∈ e.calledNames, table.lookup name = none) :
    (e.substitute table).CallsOnly P := by
  intro node hnode
  cases Expr.comes_substitute table e node hnode with
  | kept h' => exact h node h'
  | inserted hp h' =>
    rename_i p
    refine Inlining.callsOnly_of_isSimple (hsimple p hp) node ?_
    obtain ⟨name, pos, kind⟩ := p
    rw [Expr.nodes_everywhere]
    exact mem_cons_of_mem _ h'
  | changed h' =>
    rename_i part
    have hpart := h _ h'
    obtain ⟨pos, kind⟩ := part
    cases kind with
    | name id =>
      change (Node.expr ⟨pos, replacement table id⟩).CallsOnly P
      unfold replacement
      split
      · rename_i arg harg
        obtain ⟨l1, l2, rfl, _⟩ := lookup_eq_some_iff.mp harg
        have harg : arg.CallsOnly P := Inlining.callsOnly_of_isSimple (hsimple (id, arg) (by simp))
        exact harg.at pos _ (Expr.mem_nodes_self _)
      · exact Node.callsOnly_of_not_call rfl rfl
    | call func args keywords =>
      obtain ⟨at', fkind⟩ := func
      cases fkind with
      | name id =>
        have hid : id ∈ e.calledNames := mem_filterMap.mpr ⟨_, h', rfl⟩
        have hkind : replacement table id = .name id := by rw [replacement, hkeys id hid]
        refine ⟨rfl, ?_, fun name hname => ?_⟩
        · change Expr.isCall ⟨at', replacement table id⟩ = false
          rw [hkind]
          rfl
        · change Expr.name? ⟨at', replacement table id⟩ = some name at hname
          rw [hkind] at hname
          cases hname
          exact hpart.called id rfl
      | call => cases hpart.order
      | _ => exact ⟨rfl, rfl, fun name hname => by cases hname⟩
    | _ => exact ⟨hpart.scope, rfl, fun name hname => by cases hname⟩

end

namespace Inlining

variable {slots slots' : List (Ident × Option Expr)} {keywords : List Keyword} {args : List Expr}

variable {value new : Expr} {fn : FunctionDef} {guard? : Option Guard}

theorem fillNamed_eq_some (h : fillNamed name value slots = some slots') :
    ∃ before after, slots = before ++ (name, none) :: after ∧ slots' = before ++ (name, some value) :: after ∧
      ∀ slot ∈ before, slot.1 ≠ name := by
  induction slots generalizing slots' with
  | nil => cases h
  | cons slot rest ih =>
    obtain ⟨param, arg?⟩ := slot
    rw [fillNamed] at h
    split at h
    · rename_i hparam
      cases eq_of_beq hparam
      cases arg? with
      | some arg => cases h
      | none =>
        cases h
        exact ⟨[], rest, rfl, rfl, fun _ hmem => by cases hmem⟩
    · rename_i hparam
      obtain ⟨rest', hrest, rfl⟩ := Option.map_eq_some_iff.mp h
      obtain ⟨before, after, rfl, rfl, hbefore⟩ := ih hrest
      refine ⟨(param, arg?) :: before, after, rfl, rfl, ?_⟩
      intro slot hslot
      rcases mem_cons.mp hslot with rfl | hslot
      · simpa using hparam
      · exact hbefore slot hslot

theorem keys_fillNamed (h : fillNamed name value slots = some slots') :
    slots'.map Prod.fst = slots.map Prod.fst := by
  obtain ⟨before, after, rfl, rfl, _⟩ := fillNamed_eq_some h
  rw [map_append, map_append]
  rfl

theorem keys_fillKeywords (h : keywords.foldlM fillKeyword slots = some slots') :
    slots'.map Prod.fst = slots.map Prod.fst := by
  induction keywords generalizing slots with
  | nil =>
    cases h
    rfl
  | cons k keywords ih =>
    rw [foldlM_cons] at h
    obtain ⟨next, hnext, h⟩ := Option.bind_eq_some_iff.mp h
    obtain ⟨name, _, hfill⟩ := Option.bind_eq_some_iff.mp hnext
    rw [ih h, keys_fillNamed hfill]

theorem mem_of_bindArguments? {params} (h : bindArguments? params args keywords = some table) {p} (hp : p ∈ table) :
    p.1 ∈ params ∧ isSimple p.2 = true := by
  unfold bindArguments? at h
  split at h
  · cases h
  obtain ⟨slots, hslots, h⟩ := Option.bind_eq_some_iff.mp h
  obtain ⟨filled, hfilled, h⟩ := Option.bind_eq_some_iff.mp h
  cases h
  obtain ⟨slot, hslot, hp⟩ := mem_of_mapM hfilled (mem_reverse.mp hp)
  have hkey : slot.1 ∈ params := by
    have hmem : slot.1 ∈ slots.map Prod.fst := mem_map_of_mem hslot
    rw [keys_fillKeywords hslots] at hmem
    obtain ⟨pair, hpair, hfst⟩ := mem_map.mp hmem
    rw [← hfst]
    exact (of_mem_zip hpair).1
  obtain ⟨param, value?⟩ := slot
  cases value? with
  | none => cases hp
  | some arg =>
    rw [filled?] at hp
    split at hp
    · cases hp
      exact ⟨hkey, ‹_›⟩
    · cases hp

theorem result?_eq_some (h : result? fn = some result) :
    returned? fn.body = some result ∧ movable result = true := by
  unfold result? at h
  split at h
  · exact Option.filter_eq_some_iff.mp h
  · cases h

theorem hasScope_of_result? (h : result? fn = some result) :
    result.hasScope = false := by
  have hmovable := (result?_eq_some h).2
  simp only [movable, Bool.and_eq_true, Bool.not_eq_true'] at hmovable
  exact hmovable.1.2

theorem inlined?_eq_some (h : inlined? chain allowGuards e id args keywords = some (new, guard?)) :
    ∃ callee result table, Inlines chain allowGuards id callee result ∧
      bindArguments? callee.fn.params.args args keywords = some table ∧
      (callee.guard?.isSome = true → captures chain table result = false) ∧
      new = e.withKind (result.substitute table).kind := by
  unfold inlined? at h
  obtain ⟨callee, hcallee, h⟩ := Option.bind_eq_some_iff.mp h
  obtain ⟨result, hresult, h⟩ := Option.bind_eq_some_iff.mp h
  obtain ⟨table, htable, h⟩ := Option.bind_eq_some_iff.mp h
  split at h
  · cases h
  rename_i hchecks
  cases h
  simp only [Bool.or_eq_true, Bool.and_eq_true, not_or, not_and, Bool.not_eq_true, contains_eq_mem,
    decide_eq_false_iff_not] at hchecks
  exact ⟨callee, result, table, ⟨hcallee, hresult, hchecks.1⟩, htable, hchecks.2, rfl⟩

/-- An inlined call of a first-order function brings no calls but those of its result. -/
theorem callsOnly_of_inlined? (h : inlined? chain allowGuards e id args keywords = some (new, guard?))
    (hfirst : ∀ callee, callee? chain allowGuards id = some callee → callee.fn.isFirstOrder = true) :
    new.CallsOnly (Brings chain allowGuards id) := by
  obtain ⟨callee, result, table, hinlines, htable, hcaptures, rfl⟩ := inlined?_eq_some h
  have hfirst := hfirst callee hinlines.found
  rw [FunctionDef.isFirstOrder, hinlines.returns] at hfirst
  simp only [Option.all_some, Bool.and_eq_true, Bool.not_eq_true', any_eq_false] at hfirst
  obtain ⟨horder, hparams⟩ := hfirst
  have hkeys : ∀ name ∈ result.calledNames, table.lookup name = none := by
    intro name hname
    rw [lookup_eq_none_iff]
    intro p hp
    have hparam := (mem_of_bindArguments? htable hp).1
    have hne : name ≠ p.1 := by
      rintro rfl
      exact hparams p.1 hname (by simpa using hparam)
    simpa using hne
  have hcalls : result.CallsOnly (Brings chain allowGuards id) := by
    intro node hnode
    refine ⟨?_, by simpa using horder node hnode, fun name hname => ?_⟩
    · have hscope := hasScope_of_result? hinlines.returns
      rw [Expr.hasScope, any_eq_false] at hscope
      simpa using hscope node hnode
    · have hcalled : name ∈ result.calledNames := mem_filterMap.mpr ⟨node, hnode, hname⟩
      refine ⟨callee, result, hinlines, hcalled, fun hguard => ?_⟩
      have hnone := hcaptures hguard
      rw [captures, any_eq_false] at hnone
      have hbelow := hnone name (Expr.mem_names_of_called hcalled)
      rw [hkeys name hcalled] at hbelow
      simpa using hbelow
  exact (hcalls.substitute (fun p hp => (mem_of_bindArguments? htable hp).2) hkeys).at e.pos

end Inlining

end Speculator
