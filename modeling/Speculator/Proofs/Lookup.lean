import Speculator.Proofs.Persistence

/-!
# Where names are looked up

A name is looked up through the code around it: in the code of the innermost scope, then in that of the functions
around it, and at last in the module (`Layer.lookup`).  The optimizer does not look at the code again, but asks the
scopes that it has analyzed.  Such a chain of scopes fits the code if it shows the marks of the code, with temporary
variables perhaps (`Layer.Fits`).

The lookup of a variable of the module, by `Scope.isModuleGlobal`, ends there, unless a class around the innermost
scope declares the name global: the lookup passes over classes, and may end at a function further out.
-/

namespace Speculator

open List

open Specialize (IsTemporary)

variable {name : Ident} {layer : Layer} {scopes : List Scope}

/-- A scope as the code has it: what opens it, and the marks of its own code. -/
structure Layer where
  kind : ScopeKind
  marks : List Mark

namespace Layer

def ofModule (m : Module) : Layer := ⟨.module, Stmt.marks m.body⟩

def ofFunction (fn : FunctionDef) : Layer := ⟨.function, fn.params.names.map .binding ++ Stmt.marks fn.body⟩

def ofClass (cls : ClassDef) : Layer := ⟨.classBody, Stmt.marks cls.body⟩

def ofLambda (params : Params) : Layer := ⟨.lambda, params.names.map .binding⟩

def ofComprehension (gens : List Generator) : Layer :=
  ⟨.comprehension, Expr.targetsMarks (gens.map Generator.target)⟩

def Binds (layer : Layer) (name : Ident) : Prop :=
  .binding name ∈ layer.marks ∧ .global name ∉ layer.marks ∧ .nonlocal name ∉ layer.marks

/-! ### Lookup -/

/-- The scope at which the lookup of a name ends, given by the number of scopes around it, which is none for the
module.  Classes are passed over, and a name declared nonlocal on the way is not looked up in the module. -/
def outward (name : Ident) (declared : Bool) : List Layer → Option Nat
  | [] => none
  | layer :: around =>
    match layer.kind with
    | .module => if declared then none else some 0
    | .classBody => outward name declared around
    | .function | .lambda | .comprehension =>
      if .global name ∈ layer.marks then if declared then none else some 0
      else if .nonlocal name ∈ layer.marks then outward name true around
      else if .binding name ∈ layer.marks then some around.length
      else outward name declared around

/-- The scope at which the lookup of a name that is read in the innermost layer ends. -/
def lookup (name : Ident) : List Layer → Option Nat
  | [] => none
  | layer :: around =>
    if layer.kind = .module ∨ .global name ∈ layer.marks then some 0
    else if .nonlocal name ∈ layer.marks then outward name true around
    else if .binding name ∈ layer.marks then some around.length
    else outward name false around

section

variable {declared : Bool} {around : List Layer}

theorem outward_of_unmarked (hkind : layer.kind ≠ .module) (hbinding : .binding name ∉ layer.marks)
    (hglobal : .global name ∉ layer.marks) (hnonlocal : .nonlocal name ∉ layer.marks) :
    outward name declared (layer :: around) = outward name declared around := by
  rw [outward]
  split
  · rename_i hmodule
    exact absurd hmodule hkind
  · rfl
  all_goals rw [if_neg hglobal, if_neg hnonlocal, if_neg hbinding]

theorem outward_of_global (hclass : layer.kind ≠ .classBody) (hglobal : .global name ∈ layer.marks) :
    outward name false (layer :: around) = some 0 := by
  rw [outward]
  split
  · rfl
  · rename_i hkind
    exact absurd hkind hclass
  all_goals
    rw [if_pos hglobal]
    rfl

end

/-- No code that the lookup of a name passes binds it, and none of the module declares it.  If the module itself
declares it nonlocal, nothing is said about its own places. -/
structure Untouched (m : Module) (layers : List Layer) (name : Ident) : Prop where
  own : ∀ layer ∈ layers.head?, .binding name ∉ layer.marks ∧ .global name ∉ layer.marks ∧
    .nonlocal name ∉ layer.marks
  around : ∀ layer ∈ layers, layer.kind ≠ .module → .binding name ∉ layer.marks
  nested : name ∉ Stmt.declared false m.body
  global : .global name ∉ Stmt.marks m.body
  module : .nonlocal name ∉ Stmt.marks m.body → .binding name ∉ Stmt.marks m.body ∧ name ∉ declaredNames m.body

/-! ### Scopes that show the code -/

/-- The variables of the scope are those of the code, and temporary ones. -/
structure Shows (layer : Layer) (scope : Scope) : Prop where
  kind : scope.kind = layer.kind
  mem_globals : ∀ name, name ∈ scope.vars.globals ↔ .global name ∈ layer.marks
  mem_nonlocals : ∀ name, name ∈ scope.vars.nonlocals ↔ .nonlocal name ∈ layer.marks
  bound : ∀ name, layer.Binds name → name ∈ scope.vars.locals
  locals : ∀ name ∈ scope.vars.locals, layer.Binds name ∨ IsTemporary name

namespace Shows

variable {scope new : Scope} {vars : Variables}

theorem extend (h : layer.Shows scope) (hnew : scope.Extends IsTemporary new) : layer.Shows new where
  kind := hnew.kind.trans h.kind
  mem_globals name := by rw [hnew.globals, h.mem_globals]
  mem_nonlocals name := by rw [hnew.nonlocals, h.mem_nonlocals]
  bound name hname := hnew.locals (h.bound name hname)
  locals name hname := (hnew.added name hname).elim (h.locals name) .inr

theorem of_vars (h : layer.Shows scope) (hkind : new.kind = scope.kind) (hvars : new.vars = scope.vars) :
    layer.Shows new := h.extend (.of_vars hkind hvars)

variable {params : List Ident}

theorem of_describes {marks} (h : vars.Describes params marks) (kind : ScopeKind) :
    (⟨kind, params.map .binding ++ marks⟩ : Layer).Shows { kind := kind, vars := vars } := by
  refine ⟨rfl, fun name => ?_, fun name => ?_, fun name hname => ?_, fun name hname => .inl ?_⟩
  · simp [h.mem_globals]
  · simp [h.mem_nonlocals]
  · simpa [Binds, h.mem_locals] using hname
  · simpa [Binds, h.mem_locals] using hname

theorem of_bindings (kind : ScopeKind) (names : List Ident) :
    (⟨kind, names.map .binding⟩ : Layer).Shows { kind := kind, vars := Variables.ofBindings names [] [] } := by
  refine ⟨rfl, fun name => ?_, fun name => ?_, fun name hname => ?_, fun name hname => .inl ?_⟩
  · simp [Variables.ofBindings]
  · simp [Variables.ofBindings]
  · simpa [Binds, Variables.ofBindings] using hname
  · simpa [Binds, Variables.ofBindings] using hname

theorem of_comprehension {gens} (h : Variables.ofComprehension gens = .ok vars) :
    (ofComprehension gens).Shows { kind := .comprehension, vars := vars } := by
  unfold Variables.ofComprehension at h
  cases hnames : Expr.targetsBindings (gens.map Generator.target) with
  | error cause =>
    rw [hnames] at h
    cases h
  | ok names =>
    rw [hnames] at h
    cases h
    have hmarks : ofComprehension gens = ⟨.comprehension, names.map .binding⟩ := by
      rw [ofComprehension, Expr.marks_of_targetsBindings _ hnames]
    rw [hmarks]
    exact .of_bindings .comprehension names

theorem carry {olds news s s'} (h : layer.Shows s.scope) (hkind : s.scope.kind = .function)
    (hold : s.scope.vars.Describes params olds) (hnew : vars.Describes params news)
    (hcarried : Mark.Balanced IsTemporary s olds news s') : layer.Shows { s.scope with vars := vars } := by
  have hsub := hcarried.sub hold.clear
  have hglobal : ∀ name, .global name ∈ news ↔ .global name ∈ olds := by
    refine fun name => ⟨fun hm => (hsub _ hm).elim id ?_, fun hm => hcarried.declared hold.clear _ hm rfl⟩
    rintro ⟨_, heq, _⟩
    cases heq
  have hnonlocal : ∀ name, .nonlocal name ∈ news ↔ .nonlocal name ∈ olds := by
    refine fun name => ⟨fun hm => (hsub _ hm).elim id ?_, fun hm => hcarried.declared hold.clear _ hm rfl⟩
    rintro ⟨_, heq, _⟩
    cases heq
  refine ⟨h.kind, fun name => ?_, fun name => ?_, fun name hname => ?_, fun name hname => ?_⟩
  · rw [← h.mem_globals, hnew.mem_globals, hold.mem_globals, hglobal]
  · rw [← h.mem_nonlocals, hnew.mem_nonlocals, hold.mem_nonlocals, hnonlocal]
  · have hlocal := h.bound name hname
    obtain ⟨_, hnotGlobal, hnotNonlocal⟩ := (hold.mem_locals name).mp hlocal
    refine hold.keeps_local hnew hlocal ?_ ?_ (hcarried.counted hold.clear hkind name hlocal)
    · rwa [hglobal]
    · rwa [hnonlocal]
  · obtain ⟨hbound, hdeclared⟩ := (hnew.mem_locals name).mp hname
    rw [hglobal, hnonlocal] at hdeclared
    have hlocal : name ∈ params ∨ .binding name ∈ olds → layer.Binds name ∨ IsTemporary name :=
      fun hplace => h.locals name ((hold.mem_locals name).mpr ⟨hplace, hdeclared⟩)
    rcases hbound with hparam | hmark
    · exact hlocal (.inl hparam)
    · rcases hsub _ hmark with hmark | ⟨_, heq, htemporary⟩
      · exact hlocal (.inr hmark)
      · cases heq
        exact .inr htemporary

theorem not_mem_binding (h : layer.Shows scope) (hlocals : name ∉ scope.vars.locals)
    (hglobal : .global name ∉ layer.marks) (hnonlocal : .nonlocal name ∉ layer.marks) :
    .binding name ∉ layer.marks :=
  fun hbinding => hlocals (h.bound name ⟨hbinding, hglobal, hnonlocal⟩)

theorem findsInModule_cons (h : layer.Shows scope) (hkind : layer.kind ≠ .module) {bound : Bool} :
    Scope.findsInModule bound name (scope :: scopes) =
      if .global name ∈ layer.marks then bound
      else if name ∈ scope.vars.locals ∨ .nonlocal name ∈ layer.marks then false
      else Scope.findsInModule bound name scopes := by
  have hscope : scope.kind ≠ .module := h.kind ▸ hkind
  simp [Scope.findsInModule, hscope, h.mem_globals, h.mem_nonlocals]

theorem of_not_bindsBelow (h : layer.Shows scope) (hkind : layer.kind ≠ .module)
    (hbinds : Scope.bindsBelowModule (scope :: scopes) name = false) :
    name ∉ scope.vars.locals ∧ .nonlocal name ∉ layer.marks ∧ Scope.bindsBelowModule scopes name = false := by
  have hscope : scope.kind ≠ .module := h.kind ▸ hkind
  simpa [Scope.bindsBelowModule, takeWhile_cons, hscope, h.mem_nonlocals, and_assoc] using hbinds

end Shows

/-- The layer opens a scope inside of the module: what it declares is declared in a nested scope. -/
structure Below (m : Module) (layer : Layer) : Prop where
  kind : layer.kind ≠ .module
  declared : ∀ name, .global name ∈ layer.marks ∨ .nonlocal name ∈ layer.marks → name ∈ Stmt.declared false m.body

/-- The scopes of a chain show the layers of code, the last of which is the module. -/
inductive Fits (m : Module) : List Layer → List Scope → Prop
  | module {scope} (h : (ofModule m).Shows scope)
    (hnested : scope.vars.reboundByNested = Stmt.declared false m.body) : Fits m [ofModule m] [scope]
  | nested {layer scope layers scopes} (hbelow : layer.Below m)
    (h : layer.Shows scope) (hs : Fits m layers scopes) : Fits m (layer :: layers) (scope :: scopes)

namespace Fits

variable {m : Module} {layers : List Layer} {scope new : Scope} {chain : List Scope}

theorem head (h : Fits m layers (scope :: scopes)) :
    ∃ layer around, layers = layer :: around ∧ layer.Shows scope := by
  cases h with
  | module h => exact ⟨_, _, rfl, h⟩
  | nested _ h => exact ⟨_, _, rfl, h⟩

theorem extend (h : Fits m layers (scope :: scopes)) (hnew : scope.Extends IsTemporary new) :
    Fits m layers (new :: scopes) := by
  cases h with
  | module h hnested => exact .module (h.extend hnew) (hnew.reboundByNested.trans hnested)
  | nested hbelow h hs => exact .nested hbelow (h.extend hnew) hs

variable (h : Fits m layers chain)
include h

theorem length_eq : layers.length = chain.length := by
  induction h with
  | module => rfl
  | nested _ _ _ ih => rw [length_cons, length_cons, ih]

theorem length_pos : 0 < layers.length := by
  cases h with
  | module | nested => exact Nat.succ_pos _

theorem kinds : chain.map Scope.kind = layers.map Layer.kind := by
  induction h with
  | module h => rw [map_singleton, map_singleton, h.kind]
  | nested _ h _ ih => rw [map_cons, map_cons, ih, h.kind]

/-! ### Builtins -/

theorem of_not_hides (hhides : ∀ scope ∈ chain, scope.hidesBuiltin name = false) :
    (∀ layer ∈ layers, ¬ layer.Binds name) ∧ .global name ∉ Stmt.marks m.body ∧
    name ∉ Stmt.declared false m.body := by
  induction h with
  | @module scope h hnested =>
    have hscope := hhides scope (by simp)
    have hkind : scope.kind = .module := h.kind
    simp only [Scope.hidesBuiltin, hkind, hnested, beq_self_eq_true, Bool.true_and, Bool.or_eq_false_iff,
      contains_eq_mem, decide_eq_false_iff_not] at hscope
    obtain ⟨hlocals, hglobals, hdeclared⟩ := hscope
    refine ⟨fun layer hlayer hbinds => hlocals ?_, fun hglobal =>
      hglobals ((h.mem_globals name).mpr hglobal), hdeclared⟩
    rw [mem_singleton.mp hlayer] at hbinds
    exact h.bound name hbinds
  | @nested layer scope layers scopes _ h _ ih =>
    have hscope := hhides scope (by simp)
    rw [Scope.hidesBuiltin, Bool.or_eq_false_iff, contains_eq_mem, decide_eq_false_iff_not] at hscope
    obtain ⟨hbinds, hrest⟩ := ih fun scope hmem => hhides scope (by simp [hmem])
    refine ⟨forall_mem_cons.mpr ⟨fun hlayer => hscope.1 (h.bound name hlayer), hbinds⟩, hrest⟩

theorem not_declared (hnested : name ∉ Stmt.declared false m.body) :
    ∀ layer ∈ layers, layer.kind ≠ .module → .global name ∉ layer.marks ∧ .nonlocal name ∉ layer.marks := by
  induction h with
  | module =>
    intro layer hlayer hkind
    rw [mem_singleton.mp hlayer] at hkind
    exact absurd rfl hkind
  | nested hbelow _ _ ih =>
    refine forall_mem_cons.mpr ⟨fun _ => ⟨fun hglobal => ?_, fun hnonlocal => ?_⟩, ih⟩
    · exact hnested (hbelow.declared name (.inl hglobal))
    · exact hnested (hbelow.declared name (.inr hnonlocal))

theorem module_mem : ofModule m ∈ layers := by
  induction h with
  | module => exact mem_singleton.mpr rfl
  | nested _ _ _ ih => exact mem_cons_of_mem _ ih

theorem eq_module : ∀ layer ∈ layers, layer.kind = .module → layer = ofModule m := by
  induction h with
  | module => exact fun layer hlayer _ => mem_singleton.mp hlayer
  | nested hbelow _ _ ih => exact forall_mem_cons.mpr ⟨fun hmodule => absurd hmodule hbelow.kind, ih⟩

/-- A name that can only be the builtin is touched by no code that the lookup passes, apart from that of a module
that declares it nonlocal. -/
theorem untouched (hbuiltin : Scope.isBuiltin chain name = true) : Untouched m layers name := by
  cases chain with
  | nil => cases hbuiltin
  | cons scope scopes =>
    rw [Scope.isBuiltin, Bool.and_eq_true, Bool.not_eq_true', all_eq_true] at hbuiltin
    obtain ⟨hdeclares, hhides⟩ := hbuiltin
    simp only [Bool.not_eq_true'] at hhides
    simp only [Variables.declares, Bool.or_eq_false_iff, contains_eq_mem, decide_eq_false_iff_not] at hdeclares
    obtain ⟨⟨hlocals, hglobals⟩, hnonlocals⟩ := hdeclares
    obtain ⟨hbinds, hglobal, hnested⟩ := h.of_not_hides hhides
    refine ⟨fun layer hlayer => ?_, fun layer hlayer hkind hbinding => ?_, hnested, hglobal,
      fun hnonlocal => ⟨?_, ?_⟩⟩
    · obtain ⟨head, around, rfl, hshows⟩ := h.head
      obtain rfl : head = layer := by simpa using hlayer
      have hnotGlobal := fun hmem => hglobals ((hshows.mem_globals name).mpr hmem)
      have hnotNonlocal := fun hmem => hnonlocals ((hshows.mem_nonlocals name).mpr hmem)
      exact ⟨hshows.not_mem_binding hlocals hnotGlobal hnotNonlocal, hnotGlobal, hnotNonlocal⟩
    · exact hbinds layer hlayer ⟨hbinding, h.not_declared hnested layer hlayer hkind⟩
    · exact fun hbinding => hbinds (ofModule m) h.module_mem ⟨hbinding, hglobal, hnonlocal⟩
    · exact fun hmem => (Stmt.splits m.body name hmem).elim (·.elim hglobal hnonlocal) hnested

theorem not_hides (htemporary : ¬ IsTemporary name) (hbinds : ∀ layer ∈ layers, ¬ layer.Binds name)
    (hglobal : .global name ∉ Stmt.marks m.body) (hnested : name ∉ Stmt.declared false m.body) :
    ∀ scope ∈ chain, scope.hidesBuiltin name = false := by
  have hlocals : ∀ {layer : Layer} {scope : Scope}, layer.Shows scope → ¬ layer.Binds name →
      name ∉ scope.vars.locals :=
    fun hshows hlayer hmem => (hshows.locals name hmem).elim hlayer htemporary
  induction h with
  | @module scope h hrebound =>
    have hglobals : name ∉ scope.vars.globals := fun hmem => hglobal ((h.mem_globals name).mp hmem)
    refine forall_mem_singleton.mpr ?_
    simp [Scope.hidesBuiltin, hrebound, hlocals h (hbinds _ (by simp)), hglobals, hnested]
  | @nested layer scope layers scopes hbelow h _ ih =>
    have hscope : scope.kind ≠ .module := h.kind ▸ hbelow.kind
    refine forall_mem_cons.mpr ⟨?_, ih fun layer hlayer => hbinds layer (by simp [hlayer])⟩
    simp [Scope.hidesBuiltin, hlocals h (hbinds _ (by simp)), hscope]

theorem isBuiltin_of_untouched (htemporary : ¬ IsTemporary name)
    (huntouched : Untouched m layers name) : Scope.isBuiltin chain name = true := by
  have hbinds : ∀ layer ∈ layers, ¬ layer.Binds name := by
    intro layer hlayer hbinds
    by_cases hkind : layer.kind = .module
    · rw [h.eq_module layer hlayer hkind] at hbinds
      exact (huntouched.module hbinds.2.2).1 hbinds.1
    · exact huntouched.around layer hlayer hkind hbinds.1
  have hhides := h.not_hides htemporary hbinds huntouched.global huntouched.nested
  cases chain with
  | nil => cases h
  | cons scope scopes =>
    obtain ⟨layer, around, rfl, hshows⟩ := h.head
    obtain ⟨_, hglobal, hnonlocal⟩ := huntouched.own layer rfl
    have hlocals : name ∉ scope.vars.locals :=
      fun hmem => (hshows.locals name hmem).elim (hbinds layer (by simp)) htemporary
    have hdeclares : scope.vars.declares name = false := by
      simp [Variables.declares, hlocals, hshows.mem_globals, hshows.mem_nonlocals, hglobal, hnonlocal]
    rw [Scope.isBuiltin, hdeclares, Bool.not_false, Bool.true_and, all_eq_true]
    intro scope hscope
    rw [hhides scope hscope, Bool.not_false]

/-! ### Variables of the module -/

theorem bound_of_moduleBinds (hbinds : Scope.moduleBinds chain name = true) :
    (ofModule m).Binds name ∨ IsTemporary name := by
  induction h with
  | module h => exact h.locals name (by simpa [Scope.moduleBinds, Scope.moduleOf?] using hbinds)
  | nested _ _ hs ih =>
    refine ih ?_
    cases hs with
    | module | nested => exact hbinds

variable {bound : Bool}

theorem moduleBinds_of_finds (hfinds : Scope.findsInModule bound name chain = true) :
    bound = true ∨ Scope.moduleBinds chain name = true := by
  induction h with
  | @module scope h _ =>
    have hkind : scope.kind = .module := h.kind
    rw [Scope.findsInModule, hkind, if_pos (by rfl)] at hfinds
    exact .inr (by simpa [Scope.moduleBinds, Scope.moduleOf?] using hfinds)
  | @nested layer scope layers scopes hbelow h hs ih =>
    have hmodule : Scope.moduleBinds (scope :: scopes) name = Scope.moduleBinds scopes name := by
      cases hs with
      | module | nested => rfl
    rw [h.findsInModule_cons hbelow.kind] at hfinds
    rw [hmodule]
    split at hfinds
    · exact .inl hfinds
    · split at hfinds
      · cases hfinds
      · exact ih hfinds

/-- A name that the scopes find in the module is looked up there, if no class among them declares it global. -/
theorem outward_of_finds (hfinds : Scope.findsInModule bound name chain = true)
    (hclasses : ∀ layer ∈ layers, layer.kind = .classBody → .global name ∉ layer.marks) :
    outward name false layers = some 0 := by
  induction h with
  | module => rfl
  | @nested layer scope layers scopes hbelow h hs ih =>
    rw [h.findsInModule_cons hbelow.kind] at hfinds
    split at hfinds
    · rename_i hglobal
      exact outward_of_global (fun hclass => hclasses layer (by simp) hclass hglobal) hglobal
    · rename_i hglobal
      split at hfinds
      · cases hfinds
      · rename_i hlocal
        obtain ⟨hlocals, hnonlocal⟩ := not_or.mp hlocal
        rw [outward_of_unmarked hbelow.kind (h.not_mem_binding hlocals hglobal hnonlocal) hglobal hnonlocal]
        exact ih hfinds fun layer hlayer => hclasses layer (by simp [hlayer])

/-- The lookup of a variable of the module ends there, unless a class on the way declares it global. -/
theorem lookup_of_isModuleGlobal (hglobal : Scope.isModuleGlobal chain name = true)
    (hclasses : ∀ layer ∈ layers.tail, layer.kind = .classBody → .global name ∉ layer.marks) :
    lookup name layers = some 0 := by
  unfold Scope.isModuleGlobal at hglobal
  generalize Scope.moduleBinds chain name = bound at hglobal
  cases h with
  | module => rfl
  | @nested layer scope layers scopes hbelow h hs =>
    rw [h.findsInModule_cons hbelow.kind] at hglobal
    split at hglobal
    · rename_i hmem
      rw [lookup, if_pos (.inr hmem)]
    · rename_i hmem
      split at hglobal
      · cases hglobal
      · rename_i hlocal
        obtain ⟨hlocals, hnonlocal⟩ := not_or.mp hlocal
        rw [lookup, if_neg (not_or.mpr ⟨hbelow.kind, hmem⟩), if_neg hnonlocal,
          if_neg (h.not_mem_binding hlocals hmem hnonlocal)]
        exact hs.outward_of_finds hglobal hclasses

theorem lookup_of_not_bindsBelow (hbinds : Scope.bindsBelowModule chain name = false) :
    lookup name layers = some 0 := by
  have houtward : ∀ {layers chain}, Fits m layers chain → Scope.bindsBelowModule chain name = false →
      outward name false layers = some 0 := by
    intro layers chain h
    induction h with
    | module => exact fun _ => rfl
    | @nested layer scope layers scopes hbelow h hs ih =>
      intro hbinds
      obtain ⟨hlocals, hnonlocal, hrest⟩ := h.of_not_bindsBelow hbelow.kind hbinds
      by_cases hclass : layer.kind = .classBody
      · rw [outward, hclass]
        exact ih hrest
      · by_cases hglobal : .global name ∈ layer.marks
        · exact outward_of_global hclass hglobal
        · rw [outward_of_unmarked hbelow.kind (h.not_mem_binding hlocals hglobal hnonlocal) hglobal hnonlocal]
          exact ih hrest
  cases h with
  | module => rfl
  | @nested layer scope layers scopes hbelow h hs =>
    obtain ⟨hlocals, hnonlocal, hrest⟩ := h.of_not_bindsBelow hbelow.kind hbinds
    by_cases hglobal : .global name ∈ layer.marks
    · rw [lookup, if_pos (.inr hglobal)]
    · rw [lookup, if_neg (not_or.mpr ⟨hbelow.kind, hglobal⟩), if_neg hnonlocal,
        if_neg (h.not_mem_binding hlocals hglobal hnonlocal)]
      exact houtward hs hrest

end Fits

end Layer

/-- What the chain of scopes tells about names is right for the layers of code.  A name that is no temporary variable
can only be the builtin if and only if it is untouched.  The lookup of a variable of the module ends there, provided
that no class around the innermost scope declares it global or that no scope below the module binds it. -/
structure Scope.Answers (m : Module) (layers : List Layer) (chain : List Scope) : Prop where
  kinds : chain.map Scope.kind = layers.map Layer.kind
  builtin : ∀ name, Scope.isBuiltin chain name = true → Layer.Untouched m layers name
  untouched : ∀ name, ¬ IsTemporary name → Layer.Untouched m layers name → Scope.isBuiltin chain name = true
  moduleGlobal : ∀ name, Scope.isModuleGlobal chain name = true →
    ((Layer.ofModule m).Binds name ∨ IsTemporary name) ∧
      ((∀ layer ∈ layers.tail, layer.kind = .classBody → .global name ∉ layer.marks) ∨
        Scope.bindsBelowModule chain name = false → Layer.lookup name layers = some 0)

theorem Layer.Fits.answers {m layers chain} (h : Fits m layers chain) : Scope.Answers m layers chain where
  kinds := h.kinds
  builtin _ := h.untouched
  untouched _ := h.isBuiltin_of_untouched
  moduleGlobal name hglobal := by
    refine ⟨h.bound_of_moduleBinds ?_, fun hlookup => ?_⟩
    · exact (h.moduleBinds_of_finds hglobal).elim id id
    · exact hlookup.elim (h.lookup_of_isModuleGlobal hglobal) h.lookup_of_not_bindsBelow

end Speculator
