import Speculator.Proofs.Effects
import Speculator.Proofs.Expansion

/-!
# What an inlined call evaluates to

A call binds its arguments, each evaluated once and from left to right, and then evaluates the result of the function
(`Machine.callByValue`).  The inlined call reads an argument anew wherever the result reads the parameter
(`Machine.callByName`).  That is always so; the two are one and the same if the arguments are bound variables or
constants, and no parameter is read after an operation that may rebind the variable that was passed for it.
-/

namespace Speculator

open List

variable {name : Ident} {table : List (Ident × Expr)} {keywords : List Keyword}

namespace Scope

/-- The variable that a name means in a function inside of scopes, innermost first.  Classes are passed over. -/
def freeCell (name : Ident) : List Scope → Cell
  | [] => .global name
  | s :: rest =>
    if s.kind == .module then .global name
    else if s.kind == .classBody then freeCell name rest
    else if s.vars.globals.contains name then .global name
    else if s.vars.locals.contains name then .inner rest.length name
    else freeCell name rest

def cell (chain : List Scope) (name : Ident) : Cell :=
  match chain with
  | [] => .global name
  | s :: rest =>
    if s.kind != .classBody then freeCell name (s :: rest)
    else if s.vars.globals.contains name then .global name
    else if s.vars.locals.contains name then .inner rest.length name
    else freeCell name rest

theorem cell_of_not_class {s rest} (h : s.kind ≠ .classBody) (name : Ident) :
    cell (s :: rest) name = freeCell name (s :: rest) := by
  have hkind : (s.kind != .classBody) = true := bne_iff_ne.mpr h
  rw [cell, if_pos hkind]

theorem freeCell_of_not_bindsBelowModule {chain}
    (h : bindsBelowModule chain name = false) : freeCell name chain = .global name := by
  induction chain with
  | nil => rfl
  | cons s rest ih =>
    unfold freeCell
    by_cases hmodule : s.kind == .module
    · rw [if_pos hmodule]
    have hne : (s.kind != .module) = true := by simpa [bne] using hmodule
    rw [bindsBelowModule, takeWhile_cons, if_pos hne, any_cons, Bool.or_eq_false_iff] at h
    obtain ⟨hown, hrest⟩ := h
    rw [Bool.or_eq_false_iff] at hown
    rw [if_neg hmodule, hown.1, ih hrest]
    simp

end Scope

/-! ### Arguments -/

/-- The values of parameters: the positional ones, of which the last one counts, and the named ones. -/
def bindFrame {α : Type} (params : List Ident) (positional : List α) (named : List (Option Ident × α)) :
    List (Ident × α) :=
  (params.zip positional).reverse ++ named.filterMap fun p => p.1.map fun name => (name, p.2)

namespace Inlining

def arguments (params : List Ident) (args : List Expr) (keywords : List Keyword) : List (Ident × Expr) :=
  bindFrame params args ((keywords.map Keyword.name).zip (keywords.map Keyword.value))

/-- A call gives each parameter one value: the first ones by position, each of the others by name. -/
structure Fits (params : List Ident) (args : List Expr) (keywords : List Keyword) : Prop where
  positional : args.length ≤ params.length
  named : (keywords.map Keyword.name).Perm ((params.drop args.length).map some)
  once : (params.drop args.length).Nodup
  apart : ∀ name ∈ params.drop args.length, name ∉ params.take args.length

def given (slots : List (Ident × Option Expr)) : List (Ident × Expr) :=
  slots.filterMap fun slot => slot.2.map fun arg => (slot.1, arg)

def pairs (keywords : List Keyword) : List (Ident × Expr) :=
  keywords.filterMap fun k => k.name.map fun name => (name, k.value)

section

variable {value : Expr} {slots slots' : List (Ident × Option Expr)}
  {done : List (Ident × Expr)}

theorem fillNamed_append (h : fillNamed name value (done.map (fun p => (p.1, some p.2)) ++ slots) = some slots') :
    name ∉ done.map Prod.fst ∧ ∃ rest, fillNamed name value slots = some rest ∧
      slots' = done.map (fun p => (p.1, some p.2)) ++ rest := by
  induction done generalizing slots' with
  | nil => exact ⟨not_mem_nil, slots', h, rfl⟩
  | cons p done ih =>
    rw [map_cons, cons_append, fillNamed] at h
    split at h
    · cases h
    · rename_i hne
      obtain ⟨tail, htail, rfl⟩ := Option.map_eq_some_iff.mp h
      obtain ⟨hname, rest, hrest, rfl⟩ := ih htail
      refine ⟨?_, rest, hrest, rfl⟩
      rw [map_cons, mem_cons, not_or]
      refine ⟨?_, hname⟩
      rintro rfl
      simp at hne

theorem fillKeywords_append
    (h : keywords.foldlM fillKeyword (done.map (fun p => (p.1, some p.2)) ++ slots) = some slots') :
    (∀ k ∈ keywords, ∀ name, k.name = some name → name ∉ done.map Prod.fst) ∧
      ∃ rest, keywords.foldlM fillKeyword slots = some rest ∧
        slots' = done.map (fun p => (p.1, some p.2)) ++ rest := by
  induction keywords generalizing slots with
  | nil =>
    cases h
    exact ⟨fun _ hmem => (by cases hmem), slots, rfl, rfl⟩
  | cons k keywords ih =>
    rw [foldlM_cons] at h
    obtain ⟨next, hnext, h⟩ := Option.bind_eq_some_iff.mp h
    obtain ⟨name, hname, hfill⟩ := Option.bind_eq_some_iff.mp hnext
    obtain ⟨hnot, rest, hrest, rfl⟩ := fillNamed_append hfill
    obtain ⟨hnots, rest', hrest', rfl⟩ := ih h
    refine ⟨?_, rest', ?_, rfl⟩
    · intro k' hk' name' hname'
      rcases mem_cons.mp hk' with rfl | hk'
      · rw [hname] at hname'
        cases hname'
        exact hnot
      · exact hnots k' hk' name' hname'
    · have hfirst : fillKeyword slots k = some rest := by rw [fillKeyword, hname, Option.bind_some, hrest]
      rw [foldlM_cons, hfirst]
      exact hrest'

theorem fillKeywords_given (h : keywords.foldlM fillKeyword slots = some slots')
    (hfirst : slots.Pairwise fun a b => b.2.isSome → a.1 ≠ b.1) :
    (∀ k ∈ keywords, k.name.isSome) ∧ (given slots').Perm (given slots ++ pairs keywords) ∧
      slots'.Pairwise fun a b => b.2.isSome → a.1 ≠ b.1 := by
  induction keywords generalizing slots with
  | nil =>
    cases h
    refine ⟨fun _ hmem => (by cases hmem), ?_, hfirst⟩
    rw [pairs, filterMap_nil, append_nil]
  | cons k keywords ih =>
    rw [foldlM_cons] at h
    obtain ⟨next, hnext, h⟩ := Option.bind_eq_some_iff.mp h
    obtain ⟨name, hname, hfill⟩ := Option.bind_eq_some_iff.mp hnext
    obtain ⟨before, after, rfl, rfl, hbefore⟩ := fillNamed_eq_some hfill
    have hfirst' : (before ++ (name, some k.value) :: after).Pairwise fun a b => b.2.isSome → a.1 ≠ b.1 := by
      rw [pairwise_append, pairwise_cons] at hfirst ⊢
      obtain ⟨hleft, ⟨hmid, hright⟩, hcross⟩ := hfirst
      refine ⟨hleft, ⟨hmid, hright⟩, fun a ha b hb => ?_⟩
      rcases mem_cons.mp hb with rfl | hb
      · exact fun _ => hbefore a ha
      · exact hcross a ha b (mem_cons_of_mem _ hb)
    obtain ⟨hnamed, hperm, hfirst''⟩ := ih h hfirst'
    refine ⟨?_, hperm.trans ?_, hfirst''⟩
    · intro k' hk'
      rcases mem_cons.mp hk' with rfl | hk'
      · rw [hname]
        rfl
      · exact hnamed k' hk'
    · simp only [given, pairs, filterMap_append, filterMap_cons, hname, Option.map_some, Option.map_none,
        append_assoc, cons_append]
      exact Perm.append_left _ perm_middle.symm

end

theorem lookup_eq_of_perm {α : Type} {l l' : List (Ident × α)} (h : l.Perm l') (hkeys : (l.map Prod.fst).Nodup)
    (name : Ident) : l.lookup name = l'.lookup name := by
  induction h with
  | nil => rfl
  | cons p h ih =>
    obtain ⟨key, a⟩ := p
    rw [lookup_cons, lookup_cons, ih (nodup_cons.mp hkeys).2]
  | swap p q l =>
    obtain ⟨key, a⟩ := p
    obtain ⟨key', b⟩ := q
    have hne : key' ≠ key := by
      rintro rfl
      simp at hkeys
    simp only [lookup_cons]
    by_cases hkey : name = key
    · subst hkey
      have hbeq : (name == key') = false := beq_eq_false_iff_ne.mpr hne.symm
      rw [hbeq]
    · have hbeq : (name == key) = false := beq_eq_false_iff_ne.mpr hkey
      rw [hbeq]
  | trans h1 h2 ih1 ih2 => rw [ih1 hkeys, ih2 ((h1.map Prod.fst).nodup_iff.mp hkeys)]

theorem given_map (l : List (Ident × Expr)) : given (l.map fun p => (p.1, some p.2)) = l := by
  rw [given, filterMap_map]
  exact filterMap_some

theorem eq_map_of_filled {slots}
    (h : slots.mapM filled? = some table) : slots = table.map fun p => (p.1, some p.2) := by
  induction slots generalizing table with
  | nil =>
    cases h
    rfl
  | cons slot slots ih =>
    rw [mapM_cons] at h
    obtain ⟨p, hp, h⟩ := Option.bind_eq_some_iff.mp h
    obtain ⟨rest, hrest, h⟩ := Option.bind_eq_some_iff.mp h
    cases h
    rw [map_cons, ← ih hrest]
    obtain ⟨param, arg?⟩ := slot
    cases arg? with
    | none => cases hp
    | some arg =>
      rw [filled?] at hp
      split at hp
      · cases hp
        rfl
      · cases hp

section

variable {params : List Ident} {args : List Expr}

theorem zip_eq_zip_take (h : args.length ≤ params.length) : params.zip args = (params.take args.length).zip args := by
  conv_lhs => rw [← take_append_drop args.length params, ← append_nil args]
  rw [zip_append (by simp [h])]
  simp

theorem slots_eq (h : args.length ≤ params.length) :
    params.zip (args.map some ++ List.replicate (params.length - args.length) none) =
      (params.zip args).map (fun p => (p.1, some p.2)) ++ (params.drop args.length).map fun name => (name, none) := by
  have hfree : ∀ names : List Ident, names.zip (List.replicate names.length (none : Option Expr)) =
      names.map fun name => (name, none) := by
    intro names
    induction names with
    | nil => rfl
    | cons name names ih => simp [replicate_succ, ih]
  have htake : (params.take args.length).length = args.length := by simp [h]
  conv_lhs => rw [← take_append_drop args.length params]
  rw [length_append, htake, Nat.add_sub_cancel_left, zip_append (by simp [h]), hfree, zip_eq_zip_take h,
    zip_map_right]
  rfl

theorem fillKeywords_free {names : List Ident} {l : List (Ident × Expr)}
    (h : keywords.foldlM fillKeyword (names.map fun name => (name, none)) = some (l.map fun p => (p.1, some p.2))) :
    l.map Prod.fst = names ∧ names.Nodup ∧ l.Perm (pairs keywords) ∧
      keywords = (pairs keywords).map fun p => ⟨some p.1, p.2⟩ := by
  have hempty : given (names.map fun name => (name, none)) = [] := by simp [given]
  have hnone : (names.map fun name => (name, (none : Option Expr))).Pairwise fun a b => b.2.isSome → a.1 ≠ b.1 := by
    rw [pairwise_map]
    exact pairwise_of_forall fun _ _ hsome => by cases hsome
  obtain ⟨hnamed, hperm, hfirst⟩ := fillKeywords_given h hnone
  rw [hempty, nil_append, given_map] at hperm
  have hkeys : l.map Prod.fst = names := by
    have hkept := keys_fillKeywords h
    simpa [Function.comp_def] using hkept
  refine ⟨hkeys, ?_, hperm, ?_⟩
  · rw [← hkeys]
    rw [pairwise_map] at hfirst
    exact pairwise_map.mpr (hfirst.imp fun hne => hne rfl)
  · clear h hperm
    induction keywords with
    | nil => rfl
    | cons k keywords ih =>
      have hsome := hnamed k mem_cons_self
      obtain ⟨name?, value⟩ := k
      obtain ⟨name, rfl⟩ := Option.isSome_iff_exists.mp hsome
      change _ = Keyword.mk (some name) value :: (pairs keywords).map _
      rw [← ih fun k' hk' => hnamed k' (mem_cons_of_mem _ hk')]

theorem bindArguments?_eq_some (h : bindArguments? params args keywords = some table) :
    args.length ≤ params.length ∧ ∃ l : List (Ident × Expr), table = l.reverse ++ (params.zip args).reverse ∧
      l.map Prod.fst = params.drop args.length ∧ (params.drop args.length).Nodup ∧ l.Perm (pairs keywords) ∧
      keywords = (pairs keywords).map (fun p => ⟨some p.1, p.2⟩) ∧
      ∀ k ∈ keywords, ∀ name, k.name = some name → name ∉ (params.zip args).map Prod.fst := by
  unfold bindArguments? at h
  split at h
  · cases h
  rename_i hlength
  have hle : args.length ≤ params.length := by omega
  obtain ⟨slots, hslots, h⟩ := Option.bind_eq_some_iff.mp h
  obtain ⟨filled, hfilled, h⟩ := Option.bind_eq_some_iff.mp h
  cases h
  rw [slots_eq hle] at hslots
  obtain ⟨hnot, rest, hrest, rfl⟩ := fillKeywords_append hslots
  -- all slots are filled in the end, those without a position by keyword arguments
  obtain ⟨done, l, rfl, hdone, hl⟩ := map_eq_append_iff.mp (eq_map_of_filled hfilled).symm
  rw [← hl] at hrest
  have hdone : done = params.zip args := by rw [← given_map done, hdone, given_map]
  obtain ⟨hkeys, honce, hperm, hpairs⟩ := fillKeywords_free hrest
  exact ⟨hle, l, by rw [hdone, reverse_append], hkeys, honce, hperm, hpairs, hnot⟩

theorem map_fst_zip_args (h : args.length ≤ params.length) :
    (params.zip args).map Prod.fst = params.take args.length := by
  rw [zip_eq_zip_take h]
  exact map_fst_zip (by simp)

theorem fits_of_bindArguments? (h : bindArguments? params args keywords = some table) :
    Fits params args keywords := by
  obtain ⟨hle, l, rfl, hkeys, honce, hperm, hpairs, hnot⟩ := bindArguments?_eq_some h
  refine ⟨hle, ?_, honce, ?_⟩
  · rw [hpairs, ← hkeys, map_map, map_map]
    exact (hperm.map _).symm
  · intro name hname
    rw [← hkeys] at hname
    obtain ⟨p, hp, rfl⟩ := mem_map.mp hname
    obtain ⟨k, hk, hpair⟩ := mem_filterMap.mp (hperm.mem_iff.mp hp)
    obtain ⟨name, hname', rfl⟩ := Option.map_eq_some_iff.mp hpair
    rw [← map_fst_zip_args hle]
    exact hnot k hk name hname'

theorem perm_of_bindArguments? (h : bindArguments? params args keywords = some table) :
    (table.map Prod.snd).Perm (args ++ keywords.map Keyword.value) := by
  obtain ⟨hle, l, rfl, _, _, hperm, hpairs, _⟩ := bindArguments?_eq_some h
  have hvalues : keywords.map Keyword.value = (pairs keywords).map Prod.snd := by
    conv_lhs => rw [hpairs, map_map]
    rfl
  rw [← reverse_append, map_reverse, map_append, map_snd_zip hle, hvalues]
  exact (reverse_perm _).trans ((hperm.map _).append_left _)

theorem lookup_of_bindArguments? (h : bindArguments? params args keywords = some table) (name : Ident) :
    table.lookup name = (arguments params args keywords).lookup name := by
  have hfits := fits_of_bindArguments? h
  obtain ⟨hle, l, rfl, hkeys, honce, hperm, _, _⟩ := bindArguments?_eq_some h
  have harguments : arguments params args keywords = (params.zip args).reverse ++ pairs keywords := by
    rw [arguments, bindFrame, zip_map', filterMap_map]
    rfl
  have hsame : l.reverse.lookup name = (pairs keywords).lookup name := by
    refine lookup_eq_of_perm ((reverse_perm l).trans hperm) ?_ name
    rw [map_reverse, nodup_reverse, hkeys]
    exact honce
  rw [harguments, lookup_append, lookup_append, ← hsame]
  cases hfound : l.reverse.lookup name with
  | none => rw [Option.none_or, Option.or_none]
  | some arg =>
    obtain ⟨l1, l2, hmem, _⟩ := lookup_eq_some_iff.mp hfound
    have hname : name ∈ params.drop args.length := by
      rw [← hkeys, ← mem_reverse, ← map_reverse, hmem]
      simp
    have hnone : (params.zip args).reverse.lookup name = none := by
      rw [lookup_eq_none_iff]
      intro p hp
      have hfst : p.1 ∈ params.take args.length := by
        rw [← map_fst_zip_args hle]
        exact mem_map_of_mem (mem_reverse.mp hp)
      have hne : name ≠ p.1 := by
        rintro rfl
        exact hfits.apart p.1 hname hfst
      exact bne_iff_ne.mpr hne
    rw [hnone, Option.none_or, Option.or_none]

end

end Inlining

/-! ### Calls -/

/-- A call of a function that returns an expression.  Names mean one thing where it is called and another around its
definition. -/
structure Invocation where
  caller : Ident → Cell
  around : Ident → Cell
  params : List Ident
  result : Expr
  args : List Expr
  keywords : List Keyword

namespace Invocation

def origin (call : Invocation) (name : Ident) : Option Cell :=
  ((Inlining.arguments call.params call.args call.keywords).lookup name).bind fun arg => arg.name?.map call.caller

def operands (call : Invocation) : List Expr := call.args ++ call.keywords.map Keyword.value

end Invocation

namespace Machine

section

variable {ω ε ν : Type} (M : Machine ω ε ν) (call : Invocation)

/-- Reads a parameter from the frame, and any other name as a variable around the function. -/
def readFrame {α : Type} (value : α → EStateM ε ω ν) (around : Ident → Cell) (frame : List (Ident × α))
    (name : Ident) :
    EStateM ε ω ν :=
  match frame.lookup name with
  | some a => value a
  | none => M.read around name

/-- Evaluates the arguments, each once and from left to right, and then the result of the function with the parameters
bound to their values. -/
def callByValue : EStateM ε ω ν := do
  let positional ← inSequence (Expr.execs M.toEffects (M.read call.caller) call.args)
  let named ← inSequence (Keyword.execs M.toEffects (M.read call.caller) call.keywords)
  let frame := bindFrame call.params positional ((call.keywords.map Keyword.name).zip named)
  call.result.exec M.toEffects (M.readFrame pure call.around frame)

/-- Evaluates the result of a function, and each argument anew wherever a parameter is read. -/
def callByName : EStateM ε ω ν :=
  call.result.exec M.toEffects (M.readFrame (Expr.exec M.toEffects (M.read call.caller)) call.around
    (Inlining.arguments call.params call.args call.keywords))

def Passes (w : ω) : Prop :=
  ∀ arg ∈ call.operands, ∀ name, arg.name? = some name → ∃ v, M.load (call.caller name) w = .ok v

/-- On no path a parameter is read after the variable passed for it may have been rebound. -/
def ReadsInTime : Prop := ∀ p ∈ call.result.paths.all, M.InTime call.origin p.1

end

/-! ### Arguments and their values -/

section

variable {α β : Type} {R : α → β → Prop}

theorem rel_lookup {l : List (Ident × α)} {l' : List (Ident × β)}
    (h : Forall₂ (fun p q => p.1 = q.1 ∧ R p.2 q.2) l l') (name : Ident) :
    Option.Rel R (l.lookup name) (l'.lookup name) := by
  induction h with
  | nil => exact .none
  | cons hpq _ ih =>
    rename_i p q l l' _
    obtain ⟨key, a⟩ := p
    obtain ⟨key', b⟩ := q
    obtain ⟨rfl, hab⟩ := hpq
    rw [lookup_cons, lookup_cons]
    cases name == key with
    | true => exact .some hab
    | false => exact ih

theorem rel_zip (params : List Ident) {as : List α} {bs : List β} (h : Forall₂ R as bs) :
    Forall₂ (fun p q => p.1 = q.1 ∧ R p.2 q.2) (params.zip as) (params.zip bs) := by
  induction h generalizing params with
  | nil => simp
  | cons hab _ ih =>
    cases params with
    | nil => exact .nil
    | cons name params => exact .cons ⟨rfl, hab⟩ (ih params)

theorem rel_bindFrame (params : List Ident) {as : List α} {bs : List β} (h : Forall₂ R as bs)
    {names : List (Option Ident)} {as' : List α} {bs' : List β} (h' : Forall₂ R as' bs') (name : Ident) :
    Option.Rel R ((bindFrame params as (names.zip as')).lookup name)
      ((bindFrame params bs (names.zip bs')).lookup name) := by
  refine rel_lookup (rel_append (rel_reverse (rel_zip params h)) ?_) name
  induction h' generalizing names with
  | nil => simp
  | cons hab _ ih =>
    rcases names with _ | ⟨name?, names⟩
    · exact .nil
    · cases name? with
      | none => exact ih
      | some key => exact .cons ⟨rfl, hab⟩ ih

end

section

variable {ω ε ν : Type} {M : Machine ω ε ν} {call : Invocation} {caller : Ident → Cell} {arg : Expr} {w : ω}

theorem exec_of_isSimple (h : Inlining.isSimple arg = true) (read : Ident → EStateM ε ω ν) :
    (∃ v, arg.exec M.toEffects read = pure v) ∨
      ∃ name, arg.name? = some name ∧ arg.exec M.toEffects read = read name := by
  obtain ⟨pos, kind⟩ := arg
  unfold Inlining.isSimple at h
  split at h
  · rename_i name hkind
    cases hkind
    exact .inr ⟨name, rfl, rfl⟩
  · cases h
  · obtain ⟨v, hv⟩ := Option.isSome_iff_exists.mp h
    exact .inl ⟨M.constant v, (Effects.exec_constants M.perform_minus M.perform_tuple).holds _ hv⟩

theorem run_of_isSimple (h : Inlining.isSimple arg = true)
    (hbound : ∀ name, arg.name? = some name → ∃ v, M.load (caller name) w = .ok v) :
    ∃ v, arg.exec M.toEffects (M.read caller) w = .ok v w := by
  rcases exec_of_isSimple h (M.read caller) with ⟨v, hv⟩ | ⟨name, hname, hread⟩
  · exact ⟨v, by rw [hv]; rfl⟩
  · obtain ⟨v, hv⟩ := hbound name hname
    exact ⟨v, by rw [hread, Machine.read, hv]⟩

structure Denotes (M : Machine ω ε ν) (caller : Ident → Cell) (w : ω) (arg : Expr) (v : ν) : Prop where
  simple : Inlining.isSimple arg = true
  runs : arg.exec M.toEffects (M.read caller) w = .ok v w

theorem Denotes.load {v : ν} (h : M.Denotes caller w arg v) (hname : arg.name? = some name) :
    M.load (caller name) w = .ok v := by
  have hruns := h.runs
  obtain ⟨pos, kind⟩ := arg
  cases kind with
  | name id =>
    cases hname
    change M.read caller _ w = _ at hruns
    unfold Machine.read at hruns
    split at hruns
    · cases hruns
      assumption
    · cases hruns
  | _ => cases hname

theorem run_inSequence {es : List Expr} (h : ∀ e ∈ es, ∃ v, M.Denotes caller w e v) :
    ∃ vs, inSequence (es.map (Expr.exec M.toEffects (M.read caller))) w = .ok vs w ∧
      Forall₂ (M.Denotes caller w) es vs := by
  induction es with
  | nil => exact ⟨[], rfl, .nil⟩
  | cons e es ih =>
    obtain ⟨v, hv⟩ := h e mem_cons_self
    obtain ⟨vs, hvs, hall⟩ := ih fun c hc => h c (mem_cons_of_mem _ hc)
    refine ⟨v :: vs, ?_, .cons hv hall⟩
    rw [map_cons, inSequence, run_bind, hv.runs]
    simp only [run_bind, hvs]
    rfl

/-! ### Calls by name and by value -/

variable {frame : List (Ident × ν)} {origin : Ident → Option Cell}

theorem Holds.read {path} (name : Ident) (h : M.Holds origin frame path w) :
    M.Holds origin frame (path ++ [.read name]) w := by
  intro name' c v horigin hv hkept
  exact h name' c v horigin hv fun op hop => hkept op (mem_append_left _ hop)

theorem alike_read {x y : EStateM ε ω ν}
    (h : ∀ before w', M.Holds origin frame before w' → M.InTime origin (before ++ [.read name]) →
      x w' = y w' ∧ ∀ v w'', x w' = .ok v w'' → w'' = w') :
    M.Alike origin frame (fun _ _ => True) (Paths.event (.read name)) x y := by
  intro before w' hw' htime
  obtain ⟨hsame, hstays⟩ := h before w' hw' (htime _ (mem_singleton_self _))
  refine ⟨hsame, fun v w'' hv => ⟨_, mem_singleton_self _, trivial, ?_⟩⟩
  rw [hstays v w'' hv]
  exact hw'.read name

theorem eq_of_read {v : ν} {w' : ω} (h : M.read caller name w = .ok v w') : w' = w := by
  unfold Machine.read at h
  split at h
  · cases h
    rfl
  · cases h

theorem alike_readFrame (hrel : Option.Rel (M.Denotes call.caller w)
      ((Inlining.arguments call.params call.args call.keywords).lookup name) (frame.lookup name)) :
    M.Alike call.origin frame (fun _ _ => True) (Paths.event (.read name))
      (M.readFrame (Expr.exec M.toEffects (M.read call.caller)) call.around
        (Inlining.arguments call.params call.args call.keywords) name) (M.readFrame pure call.around frame name) := by
  refine alike_read fun before w' hw' htime => ?_
  unfold readFrame
  generalize hfound : (Inlining.arguments call.params call.args call.keywords).lookup name = arg? at hrel ⊢
  generalize hframe : frame.lookup name = v? at hrel ⊢
  cases hrel with
  | none => exact ⟨rfl, fun v w'' hv => eq_of_read hv⟩
  | some hdenotes =>
    rename_i arg v
    suffices hnow : arg.exec M.toEffects (M.read call.caller) w' = .ok v w' by
      simp only [hnow]
      refine ⟨rfl, fun v' w'' hv' => ?_⟩
      cases hv'
      rfl
    rcases exec_of_isSimple hdenotes.simple (M.read call.caller) with ⟨v', hv'⟩ | ⟨id, hid, hread⟩
    · have hruns := hdenotes.runs
      rw [hv'] at hruns ⊢
      cases hruns
      rfl
    · have horigin : call.origin name = some (call.caller id) := by
        rw [Invocation.origin, hfound, Option.bind_some, hid, Option.map_some]
      have hkept : ∀ op, .done op ∈ before → M.rebinds op (call.caller id) = false := by
        intro op hop
        have hcross := (pairwise_append.mp htime).2.2 _ hop _ (mem_singleton_self _)
        exact hcross op name _ rfl rfl horigin
      rw [hread, Machine.read, hw' name _ v horigin hframe hkept]

/-- The call by name is the call by value, as long as the variables that are passed are read in time. -/
theorem callByName_eq_callByValue (hsimple : ∀ arg ∈ call.operands, Inlining.isSimple arg = true)
    (hdirect : call.result.IsDirect) (hpasses : M.Passes call w) (htime : M.ReadsInTime call) :
    M.callByName call w = M.callByValue call w := by
  have hvalue : ∀ arg ∈ call.operands, ∃ v, M.Denotes call.caller w arg v := by
    intro arg harg
    obtain ⟨v, hv⟩ := run_of_isSimple (hsimple arg harg) (hpasses arg harg)
    exact ⟨v, hsimple arg harg, hv⟩
  obtain ⟨positional, hpositional, hall⟩ := run_inSequence fun arg (harg : arg ∈ call.args) =>
    hvalue arg (mem_append_left _ harg)
  obtain ⟨named, hnamed, hall'⟩ := run_inSequence fun arg (harg : arg ∈ call.keywords.map Keyword.value) =>
    hvalue arg (mem_append_right _ harg)
  let frame := bindFrame call.params positional ((call.keywords.map Keyword.name).zip named)
  have hrun : M.callByValue call w = call.result.exec M.toEffects (M.readFrame pure call.around frame) w := by
    rw [callByValue, Expr.execs_eq_map, Keyword.execs_eq_map, run_bind, hpositional]
    simp only [run_bind, hnamed]
    rfl
  have hrel : ∀ name, Option.Rel (M.Denotes call.caller w)
      ((Inlining.arguments call.params call.args call.keywords).lookup name) (frame.lookup name) :=
    rel_bindFrame call.params hall hall'
  have hstart : M.Holds call.origin frame [] w := by
    intro name c v horigin hv _
    obtain ⟨arg, harg, hcell⟩ := Option.bind_eq_some_iff.mp horigin
    obtain ⟨id, hid, rfl⟩ := Option.map_eq_some_iff.mp hcell
    have hdenotes := hrel name
    rw [harg, hv] at hdenotes
    cases hdenotes with
    | some hdenotes => exact hdenotes.load hid
  rw [hrun]
  exact (alike_exec hdirect (fun name => alike_readFrame (hrel name)) [] w hstart htime).1

end

end Machine

/-! ### Inlined calls -/

namespace Inlining

/-- The variable that a name means around the definition of a function whose calls are inlined. -/
def Callee.cell (callee : Callee) (chain : List Scope) (name : Ident) : Cell :=
  if callee.guard?.isSome then .global name else Scope.freeCell name chain

section

variable {chain : List Scope} {allowGuards : Bool} {id : Ident} {callee : Callee} {result : Expr}

theorem kind_of_callee? {scope rest}
    (h : callee? (scope :: rest) allowGuards id = some callee) : scope.kind ≠ .classBody := by
  intro hclass
  unfold callee? at h
  simp only at h
  split at h
  · simp [bindsOnce, hclass] at h
  · simp [hclass] at h

theorem isDirect_of_result? {fn} (h : result? fn = some result) : result.IsDirect := by
  have hmovable := (result?_eq_some h).2
  simp only [movable, Bool.and_eq_true, Bool.not_eq_true', any_eq_false, Expr.hasScope] at hmovable
  intro node hnode
  exact ⟨by simpa using hmovable.1.2 node hnode, by simpa using hmovable.1.1 node hnode⟩

theorem cell_eq_of_callee? (h : callee? chain allowGuards id = some callee)
    (hcaptures : callee.guard?.isSome = true → captures chain table result = false)
    (hname : name ∈ result.names) (hfree : table.lookup name = none) :
    Scope.cell chain name = callee.cell chain name := by
  obtain ⟨scope, rest, rfl, _⟩ := callee?_cases h
  rw [Scope.cell_of_not_class (kind_of_callee? h), Callee.cell]
  split
  · rename_i hguard
    have hnone := hcaptures hguard
    rw [captures, any_eq_false] at hnone
    have hbelow := hnone name hname
    rw [hfree] at hbelow
    exact Scope.freeCell_of_not_bindsBelowModule (by simpa using hbelow)
  · rfl

def Callee.invocation (callee : Callee) (chain : List Scope) (result : Expr) (args : List Expr)
    (keywords : List Keyword) : Invocation :=
  ⟨Scope.cell chain, callee.cell chain, callee.fn.params.args, result, args, keywords⟩

theorem exec_inlined? {e new args keywords guard?}
    (h : inlined? chain allowGuards e id args keywords = some (new, guard?)) :
    ∃ callee result, Inlines chain allowGuards id callee result ∧ Fits callee.fn.params.args args keywords ∧
      (∀ arg ∈ args ++ keywords.map Keyword.value, isSimple arg = true) ∧
      ∀ {ω ε ν : Type} (M : Machine ω ε ν), new.exec M.toEffects (M.read (Scope.cell chain)) =
        M.callByName (callee.invocation chain result args keywords) := by
  obtain ⟨callee, result, table, hinlines, htable, hcaptures, rfl⟩ := inlined?_eq_some h
  refine ⟨callee, result, hinlines, fits_of_bindArguments? htable, ?_, fun M => ?_⟩
  · intro arg harg
    obtain ⟨p, hp, rfl⟩ := mem_map.mp ((perm_of_bindArguments? htable).mem_iff.mpr harg)
    exact (mem_of_bindArguments? htable hp).2
  · rw [Expr.exec_eq_kind]
    change (result.substitute table).kind.exec M.toEffects _ = _
    rw [← Expr.exec_eq_kind]
    refine Expr.exec_substitute (isDirect_of_result? hinlines.returns) fun name hname => ?_
    unfold replacement Machine.readFrame
    simp only [Callee.invocation, ← lookup_of_bindArguments? htable name]
    cases hfound : table.lookup name with
    | some arg => exact (Expr.exec_eq_kind _ _ arg).symm
    | none =>
      have hcell := cell_eq_of_callee? hinlines.found hcaptures hname hfound
      change M.read (Scope.cell chain) name = M.read (callee.cell chain) name
      unfold Machine.read
      rw [hcell]

end

end Inlining

/-- Whatever call is inlined, the result of the function evaluates there as in a call by name.  It evaluates as in a
call by value in every state in which all variables that are passed have values, unless the result reads a parameter
after an operation that may rebind the variable passed for it. -/
theorem inlining_exec {e new : Expr} {ctx : Context} {s s' : State}
    (h : Inlining.leaveExpr e ctx s = .ok (.revisit new) s') :
    ∃ pos id args keywords callee result, e.kind = .call ⟨pos, .name id⟩ args keywords ∧
      Inlining.callee? (s.scope :: ctx.enclosing) ctx.allowGuards id = some callee ∧
      Inlining.returned? callee.fn.body = some result ∧ Inlining.Fits callee.fn.params.args args keywords ∧
      ∀ {ω ε ν : Type} (M : Machine ω ε ν),
        let value := new.exec M.toEffects (M.read (Scope.cell (s.scope :: ctx.enclosing)))
        let call := callee.invocation (s.scope :: ctx.enclosing) result args keywords
        value = M.callByName call ∧
          ∀ w, M.Passes call w → M.ReadsInTime call → value w = M.callByValue call w := by
  have hrevisit := Inlining.ensures_revisit e ctx s
  unfold Visit.Ensures at hrevisit
  rw [h] at hrevisit
  obtain ⟨pos, id, args, keywords, guard?, hkind, hinlined⟩ := hrevisit
  obtain ⟨callee, result, hinlines, hfits, hsimple, hexec⟩ := Inlining.exec_inlined? hinlined
  refine ⟨pos, id, args, keywords, callee, result, hkind, hinlines.found,
    (Inlining.result?_eq_some hinlines.returns).1,
    hfits, fun M => ⟨hexec M, fun w hpasses htime => ?_⟩⟩
  rw [hexec M]
  have hdirect := Inlining.isDirect_of_result? hinlines.returns
  exact Machine.callByName_eq_callByValue hsimple hdirect hpasses htime

/-- With `def g(x): return (x, h())` the parameter is read before the call: `g(n)` and `(n, h())` evaluate alike. -/
theorem inlining_exec_before_call :
    let n : Expr := ⟨{}, .name "n"⟩
    let pair (first : Expr) : Expr := ⟨{}, .tuple [first, ⟨{}, .call ⟨{}, .name "h"⟩ [] []⟩]⟩
    let result := pair ⟨{}, .name "x"⟩
    let fn : FunctionDef := ⟨"g", { Params.empty with args := ["x"] }, [⟨{}, .ret (some result)⟩], [], false⟩
    let ctx : Context := ⟨{ inlining := true }, "m.py", [], .generic, false, []⟩
    let vars : Variables := { locals := ["g"], bindings := ["g"] }
    let s : State := ⟨{ kind := .module, vars := vars, functions := [("g", fn)] }, {}, [], [], false⟩
    ∃ s', Inlining.leaveExpr ⟨{}, .call ⟨{}, .name "g"⟩ [n] []⟩ ctx s = .ok (.revisit (pair n)) s' ∧
      ∀ {ω ε ν : Type} (M : Machine ω ε ν) (w : ω) (v : ν), M.load (.global "n") w = .ok v →
        (pair n).exec M.toEffects (M.read .global) w =
          M.callByValue ⟨.global, .global, ["x"], result, [n], []⟩ w := by
  intro n pair result fn ctx vars s
  obtain ⟨s', hs'⟩ : ∃ s', Inlining.leaveExpr ⟨{}, .call ⟨{}, .name "g"⟩ [n] []⟩ ctx s =
      .ok (.revisit (pair n)) s' := ⟨_, rfl⟩
  refine ⟨s', hs', fun M w v hv => ?_⟩
  obtain ⟨pos, id, args, keywords, callee, returned, hkind, hcallee, hreturned, _, hexec⟩ := inlining_exec hs'
  cases hkind
  cases hcallee
  cases hreturned
  refine (hexec M).2 w ?_ ?_
  · intro arg harg name hname
    cases List.mem_singleton.mp harg
    cases hname
    exact ⟨v, hv⟩
  · intro p hp
    cases List.mem_singleton.mp hp
    simp [Machine.InTime]

/-- A machine on which every call rebinds the variable `n` of the module to 2. -/
def Machine.rebinding : Machine Value Fault Value where
  constant := id
  perform op vs w :=
    match op, vs with
    | .unary op, [v] =>
      match Value.unary op v with
      | .ok v => .ok v w
      | .error fault => .error fault w
    | .tuple, vs => .ok (.tuple vs) w
    | .call .., _ => .ok .none (.int 2)
    | _, _ => .ok .none w
  truth _ := pure true
  enter _ := pure .none
  load c w := .ok (if c = .global "n" then w else .none)
  rebinds op _ :=
    match op with
    | .call .. => true
    | _ => false
  load_perform := by
    intro op c vs v w w' hop h
    have hstays : w' = w := by
      split at h
      · split at h <;> cases h
        rfl
      · cases h
        rfl
      · cases hop
      · cases h
        rfl
    rw [hstays]
  load_truth := by
    intro c v isTrue w w' _ h
    cases h
    rfl
  perform_minus := by
    intro v negated h
    funext w
    simp only [id, h]
    rfl
  perform_tuple := by
    intro vs
    rw [map_id]
    rfl

/-- With `def g(x): return (h(), x)` the call `g(n)` becomes `(h(), n)`, which reads what `h` has bound to `n`. -/
theorem inlining_exec_rebound :
    let n : Expr := ⟨{}, .name "n"⟩
    let pair (second : Expr) : Expr := ⟨{}, .tuple [⟨{}, .call ⟨{}, .name "h"⟩ [] []⟩, second]⟩
    let result := pair ⟨{}, .name "x"⟩
    let fn : FunctionDef := ⟨"g", { Params.empty with args := ["x"] }, [⟨{}, .ret (some result)⟩], [], false⟩
    let ctx : Context := ⟨{ inlining := true }, "m.py", [], .generic, false, []⟩
    let vars : Variables := { locals := ["g"], bindings := ["g"] }
    let s : State := ⟨{ kind := .module, vars := vars, functions := [("g", fn)] }, {}, [], [], false⟩
    let M := Machine.rebinding
    (∃ s', Inlining.leaveExpr ⟨{}, .call ⟨{}, .name "g"⟩ [n] []⟩ ctx s = .ok (.revisit (pair n)) s') ∧
      (pair n).exec M.toEffects (M.read .global) (.int 1) = .ok (.tuple [.none, .int 2]) (.int 2) ∧
      M.callByValue ⟨.global, .global, ["x"], result, [n], []⟩ (.int 1) = .ok (.tuple [.none, .int 1]) (.int 2) :=
  ⟨⟨_, rfl⟩, rfl, rfl⟩

end Speculator
