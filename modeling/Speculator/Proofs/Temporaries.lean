import Speculator.Proofs.Demands

/-!
# The variables for slow versions of functions

While a specialized function is defined, a variable of the scope holds its slow version.  The code of the scope does
not bind that variable, and no other specialized function of the scope uses it, so that the definition changes the
resolution of no other name (`optimize_temporaries`).  A name that the code does not bind is not avoided, even where
the code reads it: a function that reads a variable of the module may read the variable for a slow version instead
(`optimize_temporaries_captured`).
-/

namespace Speculator

open List

/-- Where a scope finds a name. -/
inductive Resolution where
  | here
  | module
  /-- In a function around the scope, by declaration. -/
  | enclosing
  /-- In the scopes around it, or among the builtins. -/
  | outside
deriving DecidableEq

def Variables.resolve (vars : Variables) (name : Ident) : Resolution :=
  if name ∈ vars.globals then .module
  else if name ∈ vars.nonlocals then .enclosing
  else if name ∈ vars.locals then .here
  else .outside

theorem Variables.resolve_congr {vars vars' : Variables} {name : Ident}
    (hglobals : name ∈ vars'.globals ↔ name ∈ vars.globals)
    (hnonlocals : name ∈ vars'.nonlocals ↔ name ∈ vars.nonlocals)
    (hlocals : name ∈ vars'.locals ↔ name ∈ vars.locals) :
    vars'.resolve name = vars.resolve name := by
  simp only [Variables.resolve, hglobals, hnonlocals, hlocals]

namespace Code

def analysis (code : Code) : Except Cause Variables := Variables.ofBody code.body code.params

def extend (code : Code) (ts : List Stmt) : Code := ⟨code.params, code.body ++ ts⟩

def mentions (code : Code) : List Ident :=
  code.params ++ (Stmt.nodesList Node.everywhere code.body).flatMap fun node =>
    node.name?.toList ++ node.bindings.toOption.getD [] ++ node.globals ++ node.nonlocals

end Code

/-! ### The definition of a specialized function -/

namespace Specialize

variable {pos : Position} {slow fast : FunctionDef} {guards : GuardSet} {copied : List (Ident × String)}
  {kept : Ident}

theorem mem_marks_definitions (m : Mark) :
    m ∈ Stmt.marks (definitions ⟨pos, .functionDef slow⟩ fast guards copied kept) ↔
      m = .binding slow.name ∨ m = .binding fast.name ∨ m = .binding kept := by
  have hpatched : Stmt.marks (if copied.isEmpty then [] else [assign pos (member pos fast.name "__code__")
      (supportCall pos "replace_consts" [member pos fast.name "__code__", patch pos copied])]) = [] := by
    split
    · rfl
    · exact Stmt.marks_assign pos _ _
  unfold definitions
  dsimp only
  rw [Stmt.marks_append, Stmt.marks_append, hpatched, Stmt.marks_cons, Stmt.marks_cons (assign pos _ _) [_],
    Stmt.marks_cons ⟨pos, .expr _⟩, Stmt.marks_cons (assign pos _ _) [_]]
  simp only [assign, Stmt.marks_assign, Stmt.marks_functionDef, Stmt.marks_expr, Stmt.marks_delete, Expr.targetsMarks,
    Expr.targetMarks, mem_append, mem_singleton, not_mem_nil, append_nil]
  tauto

theorem analyzable_definitions : Stmt.Analyzable (definitions ⟨pos, .functionDef slow⟩ fast guards copied kept) := by
  have hstmt : ∀ t ∈ definitions ⟨pos, .functionDef slow⟩ fast guards copied kept, Stmt.Analyzable [t] := by
    intro t ht
    rcases mem_definitions ht with rfl | rfl | rfl | rfl | rfl | rfl | rfl
    · exact Stmt.analyzable_of_scope rfl
    · exact Stmt.analyzable_assign.mpr ⟨_, rfl⟩
    · exact Stmt.analyzable_of_scope rfl
    · exact Stmt.analyzable_assign.mpr ⟨_, rfl⟩
    · exact Stmt.analyzable_expr
    · exact Stmt.analyzable_assign.mpr ⟨_, rfl⟩
    · exact Stmt.analyzable_delete.mpr ⟨_, rfl⟩
  generalize definitions ⟨pos, .functionDef slow⟩ fast guards copied kept = ts at hstmt
  induction ts with
  | nil => exact Stmt.analyzable_nil
  | cons t ts ih => exact Stmt.analyzable_cons.mpr ⟨hstmt t (by simp), ih fun u hu => hstmt u (by simp [hu])⟩

/-- The names that variables for slow versions have. -/
def IsTemporary (name : Ident) : Prop := name = "_ast_optimized" ∨ ∃ index : Nat, name =
    "_ast_optimized" ++ toString index

theorem isTemporary_freshText (used : List Ident) : IsTemporary (freshText used "_ast_optimized" "") := by
  rcases freshText_eq used "_ast_optimized" "" with h | ⟨index, h⟩
  · exact .inl h
  · refine .inr ⟨index, ?_⟩
    rw [h, String.append_empty]

/-- In the place of a function, the definition of the specialized function only makes a difference to the variable for
the slow version. -/
theorem resolve_definitions {code : Code} {vars : Variables} (hvars : code.analysis = .ok vars) {fn : FunctionDef}
    (hslow : slow.name = fn.name) (hfast : fast.name = fn.name) :
    ∃ before after, (code.extend [⟨pos, .functionDef fn⟩]).analysis = .ok before ∧
      (code.extend (definitions ⟨pos, .functionDef slow⟩ fast guards copied kept)).analysis = .ok after ∧
      ∀ name, name ≠ kept → after.resolve name = before.resolve name := by
  have hanalysis : ∀ ts, Stmt.Analyzable ts → ∃ vars', (code.extend ts).analysis = .ok vars' := fun ts hts =>
    Variables.ofBody_of_analyzable (Stmt.analyzable_append.mpr ⟨Variables.analyzable_of_ofBody hvars, hts⟩)
      code.params
  obtain ⟨before, hbefore⟩ := hanalysis [⟨pos, .functionDef fn⟩] (Stmt.analyzable_of_scope rfl)
  obtain ⟨after, hafter⟩ := hanalysis (definitions ⟨pos, .functionDef slow⟩ fast guards copied kept)
      analyzable_definitions
  refine ⟨before, after, hbefore, hafter, fun name hname => ?_⟩
  have hdescribes := Variables.describes_ofBody hbefore
  have hdescribes' := Variables.describes_ofBody hafter
  -- both bind the function, and neither declares a name
  have hmarks : ∀ m, m ≠ .binding kept →
      (m ∈ Stmt.marks (code.extend (definitions ⟨pos, .functionDef slow⟩ fast guards copied kept)).body ↔
        m ∈ Stmt.marks (code.extend [⟨pos, .functionDef fn⟩]).body) := by
    intro m hm
    simp only [Code.extend, Stmt.marks_append, Stmt.marks_functionDef, mem_append, mem_marks_definitions,
      hslow, hfast,
      mem_singleton, hm, or_false, or_self]
  refine Variables.resolve_congr ?_ ?_ ?_
  · rw [hdescribes.mem_globals, hdescribes'.mem_globals, hmarks _ (by simp)]
  · rw [hdescribes.mem_nonlocals, hdescribes'.mem_nonlocals, hmarks _ (by simp)]
  · rw [hdescribes.mem_locals, hdescribes'.mem_locals, hmarks _ (by simpa using hname), hmarks _ (by simp),
      hmarks _ (by simp)]
    exact Iff.rfl

end Specialize

/-! ### The variables of a module -/

/-- The variable `kept` is for the slow version when `ts` takes the place of the function `t`, in a scope with the
code that has the local variables `locals` by then. -/
structure Temporary (code : Code) (locals : List Ident) (t : Stmt) (ts : List Stmt) (kept : Ident) : Prop where
  named : Specialize.IsTemporary kept
  new : kept ∉ locals
  /-- The variables that the code binds are among the local ones.  So if the code binds all names of this form that it
  mentions, it does not mention the variable. -/
  bound : ∃ vars, code.analysis = .ok vars ∧ vars.locals ⊆ locals ∧
    ((∀ name ∈ code.mentions, Specialize.IsTemporary name → name ∈ vars.locals) → kept ∉ code.mentions)
  resolution : ∃ before after, (code.extend [t]).analysis = .ok before ∧ (code.extend ts).analysis = .ok after ∧
    ∀ name, name ≠ kept → after.resolve name = before.resolve name

/-- No local variable is lost.  A function becomes one definition or is specialized, with a variable for the slow
version that is local from then on. -/
def Temporary.demand : Demand := fun code s t ts s' =>
  s.scope.vars.locals ⊆ s'.scope.vars.locals ∧
    ∀ fn, t.kind = .functionDef fn → (∃ new, ts = [⟨t.pos, .functionDef new⟩]) ∨
      ∃ slow fast guards copied kept, ts = Specialize.definitions slow fast guards copied kept ∧
        s'.scope.vars.locals = kept :: s.scope.vars.locals ∧ Temporary code s.scope.vars.locals t ts kept

/-- In whatever module, and however deep its visits may be, each variable for a slow version is new among the
variables that the code of its scope binds and the ones chosen for the scope before.  The definition of the
specialized function, in the place of the function, makes a difference to the resolution of that variable only. -/
theorem optimize_temporaries (depth : Nat) (config : Config) (filename : String) (source : Option String) (m : Module)
    (failure : Failure) :
    optimizeWith (demandingVisitor Temporary.demand failure depth ⟨[], m.body⟩) config filename source m =
      optimizeWith (visitor depth) config filename source m := by
  have hdemand : ∀ given code s t ts s', Visited given code s t ts s' → Temporary.demand code s t ts s' := by
    intro given code s t ts s' h
    refine ⟨h.gains.locals, fun fn hfn => (h.function fn hfn).imp_right fun hts => ?_⟩
    obtain ⟨slow, fast, guards, copied, kept, rfl, hspecialized⟩ := hts
    obtain ⟨vars, hvars, hlocals⟩ := hspecialized.bound
    have hnew : kept ∉ s.scope.vars.locals := hspecialized.temporary ▸ freshText_not_mem _ _ _
    have hnamed : Specialize.IsTemporary kept := hspecialized.temporary ▸ Specialize.isTemporary_freshText _
    refine ⟨_, fast, guards, copied, kept, rfl, hspecialized.locals, hnamed, hnew, ⟨vars, hvars, hlocals, ?_⟩, ?_⟩
    · exact fun hmentions hmem => hnew (hlocals (hmentions kept hmem hnamed))
    · obtain ⟨pos, kind⟩ := t
      cases hfn
      exact Specialize.resolve_definitions hvars hspecialized.slowName hspecialized.fastName
  obtain ⟨_, _, hsame⟩ := optimize_demanding (fun _ => Temporary.demand) hdemand depth config filename source m
  exact hsame failure

def Module.resolutions (m : Module) (name : Ident) : List Resolution :=
  m.body.filterMap fun t =>
    match t.kind with
    | .functionDef fn => (Variables.ofBody fn.body fn.params.names).toOption.map (Variables.resolve · name)
    | _ => none

set_option maxRecDepth 100000 in
/-- A function that defines `f` as `len("abc")` and returns the variable `_ast_optimized` of its module.  When `f` is
specialized, it returns a variable of its own. -/
theorem optimize_temporaries_captured :
    let f : FunctionDef := ⟨"f", ⟨[], none, [], [], none, []⟩,
      [⟨{}, .ret (some ⟨{}, .call ⟨{}, .name "len"⟩ [⟨{}, .const (.str "abc")⟩] []⟩)⟩], [], false⟩
    let outer : FunctionDef := ⟨"outer", ⟨[], none, [], [], none, []⟩,
      [⟨{}, .functionDef f⟩, ⟨{}, .ret (some ⟨{}, .name "_ast_optimized"⟩)⟩], [], false⟩
    let m : Module := ⟨[⟨{}, .functionDef outer⟩]⟩
    m.resolutions "_ast_optimized" = [.outside] ∧
      (optimize {} "m.py" none m).result.toOption.map (Module.resolutions · "_ast_optimized") = some [.here] := by
  decide +kernel

end Speculator
