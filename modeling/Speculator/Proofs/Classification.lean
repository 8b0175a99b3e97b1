import Mathlib.Data.List.Count
import Mathlib.Data.List.Perm.Basic
import Speculator.Proofs.Correspondence
import Speculator.Proofs.Outcome.Statements

/-!
# How names are classified

The analysis of a body looks at its own nodes: the places that bind names, the declarations, and the targets that it
cannot follow.  These are the marks of the body (`Stmt.marks`).  The first stage of a function may drop marks, or
repeat them when it unrolls a loop, but it makes no new ones, keeps the declarations, and keeps a place for each local
variable: as many places as the scope still counts are left in the body (`Mark.Balanced`).

Hence the analysis of the new body, if it succeeds, finds the same local, global and nonlocal names
(`functionStage_classification`).  It may fail, because the object of a store may have become a literal.
-/

namespace Speculator

open List Visit Node DeadCode

variable {olds news : List Mark} {s s' : State} {v : Visitor} {ctx : Context}

variable {nodes : List Node}

/-- What the analysis of a scope finds in its body. -/
inductive Mark where
  | binding (name : Ident)
  | global (name : Ident)
  | nonlocal (name : Ident)
  /-- A target that is not written as one. -/
  | unclear
deriving DecidableEq

/-! ### The marks of bodies -/

mutual

def Expr.targetMarks : Expr → List Mark
  | ⟨_, .name id⟩ => [.binding id]
  | ⟨_, .tuple items⟩ | ⟨_, .list items⟩ => Expr.targetsMarks items
  | ⟨_, .starred value⟩ => value.targetMarks
  | ⟨_, .attr _ _⟩ | ⟨_, .subscript _ _⟩ => []
  | _ => [.unclear]

def Expr.targetsMarks : List Expr → List Mark
  | [] => []
  | e :: es => e.targetMarks ++ Expr.targetsMarks es

end

def Node.places : Node → List Mark
  | .handler h => h.name.toList.map .binding
  | .expr _ => []
  | .stmt s =>
    match s.kind with
    | .functionDef fn => [.binding fn.name]
    | .classDef cls => [.binding cls.name]
    | .assign targets _ | .delete targets => Expr.targetsMarks targets
    | .augAssign target _ _ | .forLoop target _ _ _ _ => target.targetMarks
    | .withBlock items _ _ => Expr.targetsMarks (items.filterMap WithItem.target)
    | .importModules names | .importFrom _ names _ =>
      ((names.filter fun a => !a.isStar).map Alias.binding).map .binding
    | _ => []

def Node.marks (node : Node) : List Mark :=
  node.places ++ node.globals.map .global ++ node.nonlocals.map .nonlocal

def Stmt.marks (body : List Stmt) : List Mark := (Stmt.nodesList Node.inScope body).flatMap Node.marks

def Handler.marks (handlers : List Handler) : List Mark :=
  (Handler.nodesList Node.inScope handlers).flatMap Node.marks

section Nodes

variable {enters : Node → Bool}

theorem Node.marks_of_isExpr (h : ∀ node ∈ nodes, node.isExpr = true) :
    nodes.flatMap marks = [] := by
  refine flatMap_eq_nil_iff.mpr fun node hnode => ?_
  cases node with
  | expr => rfl
  | stmt | handler => cases h _ hnode

@[simp] theorem Expr.marks_nodes (e : Expr) : (e.nodes enters).flatMap marks = [] :=
  marks_of_isExpr e.isExpr_nodes

@[simp] theorem Expr.marks_nodesOption (e : Option Expr) : (Expr.nodesOption enters e).flatMap marks = [] :=
  marks_of_isExpr (Expr.isExpr_nodesOption e)

@[simp] theorem Expr.marks_nodesList (es : List Expr) : (Expr.nodesList enters es).flatMap marks = [] :=
  marks_of_isExpr (Expr.isExpr_nodesList es)

@[simp] theorem WithItem.marks_nodesList (items : List WithItem) :
    (WithItem.nodesList enters items).flatMap marks = [] := by
  refine marks_of_isExpr fun node hnode => ?_
  obtain ⟨item, _, hnode⟩ := mem_flatMap.mp hnode
  rcases mem_append.mp hnode with hnode | hnode
  · exact item.context.isExpr_nodes node hnode
  · exact Expr.isExpr_nodesOption item.target node hnode

end Nodes

namespace Stmt

@[simp] theorem marks_nil : marks [] = [] := rfl

theorem marks_cons (t : Stmt) (ts : List Stmt) : marks (t :: ts) = marks [t] ++ marks ts := by
  simp [marks, Stmt.nodesList]

@[simp] theorem marks_append (ts us : List Stmt) : marks (ts ++ us) = marks ts ++ marks us := by
  induction ts with
  | nil => rfl
  | cons t ts ih => rw [cons_append, marks_cons, ih, ← append_assoc, ← marks_cons]

variable (pos : Position) (value target iter test : Expr) (option cause : Option Expr) (targets : List Expr)
  (isAsync : Bool) (body orelse final : List Stmt)

theorem marks_of_not_scope {t} (ht : t.isScope = false) :
    marks [t] = (Node.stmt t).marks ++ (t.kind.nodes Node.inScope).flatMap Node.marks := by
  obtain ⟨pos, kind⟩ := t
  simp [marks, Stmt.nodesList, Stmt.nodes, Node.inScope, Node.isScope, ht]

attribute [local simp] StmtKind.nodes Node.marks Node.places Node.globals Node.nonlocals

@[simp] theorem marks_functionDef (fn : FunctionDef) : marks [⟨pos, .functionDef fn⟩] = [.binding fn.name] := rfl

@[simp] theorem marks_ret : marks [⟨pos, .ret option⟩] = [] := by
  rw [marks_of_not_scope rfl]
  simp

@[simp] theorem marks_delete : marks [⟨pos, .delete targets⟩] = Expr.targetsMarks targets := by
  rw [marks_of_not_scope rfl]
  simp

@[simp] theorem marks_assign : marks [⟨pos, .assign targets value⟩] = Expr.targetsMarks targets := by
  rw [marks_of_not_scope rfl]
  simp

@[simp] theorem marks_augAssign (op : BinaryOp) : marks [⟨pos, .augAssign target op value⟩] = target.targetMarks := by
  rw [marks_of_not_scope rfl]
  simp

@[simp] theorem marks_forLoop :
    marks [⟨pos, .forLoop target iter body orelse isAsync⟩] = target.targetMarks ++ marks body ++ marks orelse := by
  rw [marks_of_not_scope rfl]
  simp [marks]

@[simp] theorem marks_whileLoop : marks [⟨pos, .whileLoop test body orelse⟩] = marks body ++ marks orelse := by
  rw [marks_of_not_scope rfl]
  simp [marks]

@[simp] theorem marks_cond : marks [⟨pos, .cond test body orelse⟩] = marks body ++ marks orelse := by
  rw [marks_of_not_scope rfl]
  simp [marks]

@[simp] theorem marks_withBlock (items : List WithItem) : marks [⟨pos, .withBlock items body isAsync⟩] =
    Expr.targetsMarks (items.filterMap WithItem.target) ++ marks body := by
  rw [marks_of_not_scope rfl]
  simp [marks]

@[simp] theorem marks_raise : marks [⟨pos, .raise option cause⟩] = [] := by
  rw [marks_of_not_scope rfl]
  simp

@[simp] theorem marks_tryBlock (handlers : List Handler) : marks [⟨pos, .tryBlock body handlers orelse final⟩] =
    marks body ++ Handler.marks handlers ++ marks orelse ++ marks final := by
  rw [marks_of_not_scope rfl]
  simp [marks, Handler.marks]

@[simp] theorem marks_expr : marks [⟨pos, .expr value⟩] = [] := by
  rw [marks_of_not_scope rfl]
  simp

end Stmt

@[simp] theorem Handler.marks_nil : Handler.marks [] = [] := rfl

@[simp] theorem Handler.marks_cons (h : Handler) (hs : List Handler) :
    Handler.marks (h :: hs) = h.name.toList.map .binding ++ Stmt.marks h.body ++ Handler.marks hs := by
  obtain ⟨pos, type, name, body⟩ := h
  simp [Handler.marks, Handler.nodesList, Node.inScope, Node.isScope, Node.marks, Node.places, Node.globals,
    Node.nonlocals, Stmt.marks]

theorem DeadCode.marks_of_doesNothing {block} (h : doesNothing block = true) : Stmt.marks block = [] := by
  induction block with
  | nil => rfl
  | cons t block ih =>
    obtain ⟨ht, hblock⟩ := Bool.and_eq_true_iff.mp (all_cons.symm.trans h)
    rw [Stmt.marks_cons, ih hblock]
    obtain ⟨pos, kind⟩ := t
    cases kind with
    | pass => rfl
    | _ => cases ht

/-! ### Declarations

The statements of a scope are nodes of the tree, so that what is removed holds no declaration. -/

variable {node : Node} {params : List Ident} {vars : Variables}

theorem Stmt.listed_nodes (t : Stmt) (hnode : node ∈ t.nodes inScope) (hnot : node.isExpr = false) :
    node ∈ t.nodes everywhere := by
  induction t using Stmt.induction_bodies with
  | _ t ih =>
    apply (Stmt.mem_nodes_iff everywhere_handler).mpr
    rcases (Stmt.mem_nodes_iff inScope_handler).mp hnode with
      rfl | ⟨_, hhandler | ⟨e, _, hnode⟩ | ⟨body, hbody, s, hs, hnode⟩⟩
    · exact .inl rfl
    · exact .inr ⟨rfl, .inl hhandler⟩
    · rw [e.isExpr_nodes node hnode] at hnot
      cases hnot
    · exact .inr ⟨rfl, .inr (.inr ⟨body, hbody, s, hs, ih body hbody s hs hnode⟩)⟩

theorem Stmt.listed_nodesList {ts} (hnode : node ∈ Stmt.nodesList inScope ts)
    (hnot : node.isExpr = false) : node ∈ Stmt.nodesList everywhere ts := by
  rw [Stmt.nodesList_eq_flatMap, mem_flatMap] at hnode ⊢
  obtain ⟨t, ht, hnode⟩ := hnode
  exact ⟨t, ht, t.listed_nodes hnode hnot⟩

theorem Handler.listed_nodesList {hs} (hnode : node ∈ Handler.nodesList inScope hs)
    (hnot : node.isExpr = false) : node ∈ Handler.nodesList everywhere hs := by
  rw [(Handler.nodesList_perm inScope_handler hs).mem_iff, mem_append, mem_append] at hnode
  rw [(Handler.nodesList_perm everywhere_handler hs).mem_iff, mem_append, mem_append]
  rcases hnode with (hhandler | hnode) | hnode
  · exact .inl (.inl hhandler)
  · rw [Expr.isExpr_flatMap _ node hnode] at hnot
    cases hnot
  · obtain ⟨body, hbody, hnode⟩ := mem_flatMap.mp hnode
    exact .inr (mem_flatMap.mpr ⟨body, hbody, Stmt.listed_nodesList hnode hnot⟩)

def Mark.declares : Mark → Bool
  | global _ | nonlocal _ => true
  | _ => false

mutual

theorem Expr.declares_targetMarks : (e : Expr) → ∀ m ∈ e.targetMarks, m.declares = false
  | ⟨_, kind⟩ => by
    cases kind with
    | name id => simp [Expr.targetMarks, Mark.declares]
    | tuple items | list items =>
      rw [Expr.targetMarks]
      exact Expr.declares_targetsMarks items
    | starred value =>
      rw [Expr.targetMarks]
      exact Expr.declares_targetMarks value
    | attr | subscript => simp [Expr.targetMarks]
    | _ => simp [Expr.targetMarks, Mark.declares]

theorem Expr.declares_targetsMarks : (es : List Expr) → ∀ m ∈ Expr.targetsMarks es, m.declares = false
  | [] => by simp [Expr.targetsMarks]
  | e :: es => by
    rw [Expr.targetsMarks, forall_mem_append]
    exact ⟨Expr.declares_targetMarks e, Expr.declares_targetsMarks es⟩

end

theorem Node.declares_places (node : Node) : ∀ m ∈ node.places, m.declares = false := by
  have hbindings : ∀ names : List Ident, ∀ m ∈ names.map Mark.binding, m.declares = false := by
    intro names m hm
    obtain ⟨name, _, rfl⟩ := mem_map.mp hm
    rfl
  cases node with
  | handler => exact hbindings _
  | expr => simp [places]
  | stmt s =>
    obtain ⟨pos, kind⟩ := s
    cases kind with
    | functionDef | classDef => exact hbindings [_]
    | assign | delete | withBlock => exact Expr.declares_targetsMarks _
    | augAssign | forLoop => exact Expr.declares_targetMarks _
    | importModules | importFrom => exact hbindings _
    | _ => simp [places]

theorem Node.mustStay_of_declares {m} (hm : m ∈ node.marks) (h : m.declares = true) :
    node.isExpr = false ∧ node.mustStay = true := by
  have hdeclared : node.globals ≠ [] ∨ node.nonlocals ≠ [] := by
    rcases mem_append.mp hm with hm | hm
    · rcases mem_append.mp hm with hm | hm
      · rw [node.declares_places m hm] at h
        cases h
      · exact .inl fun hnil => by simp [hnil] at hm
    · exact .inr fun hnil => by simp [hnil] at hm
  unfold globals nonlocals at hdeclared
  rcases hdeclared with hdeclared | hdeclared
  all_goals
    split at hdeclared
    · exact ⟨rfl, rfl⟩
    · exact absurd rfl hdeclared

namespace DeadCode

theorem not_declares {all : List Node} (h : all.any mustStay = false)
    (hsub : ∀ node ∈ nodes, node.isExpr = false → node ∈ all) : ∀ m ∈ nodes.flatMap marks, m.declares = false := by
  intro m hm
  by_contra hdeclares
  obtain ⟨node, hnode, hm⟩ := mem_flatMap.mp hm
  obtain ⟨hnot, hstay⟩ := mustStay_of_declares hm (by simpa using hdeclares)
  exact any_eq_false.mp h node (hsub node hnode hnot) hstay

theorem not_declares_of_removable {ts} (h : removable ts = true) : ∀ m ∈ Stmt.marks ts, m.declares = false :=
  not_declares (by simpa [removable] using h) fun _ => Stmt.listed_nodesList

theorem not_declares_of_removableHandlers {handlers} (h : removableHandlers handlers = true) :
    ∀ m ∈ Handler.marks handlers, m.declares = false :=
  not_declares (by simpa [removableHandlers] using h) fun _ => Handler.listed_nodesList

end DeadCode

/-! ### The analysis -/

mutual

theorem Expr.marks_of_targetBindings : (e : Expr) → {names : List Ident} → e.targetBindings = .ok names →
    e.targetMarks = names.map .binding
  | ⟨_, kind⟩, names, h => by
    cases kind with
    | name id =>
      rw [Expr.targetBindings] at h
      cases h
      rfl
    | tuple items | list items =>
      rw [Expr.targetBindings] at h
      rw [Expr.targetMarks]
      exact Expr.marks_of_targetsBindings items h
    | starred value =>
      rw [Expr.targetBindings] at h
      rw [Expr.targetMarks]
      exact Expr.marks_of_targetBindings value h
    | attr value _ | subscript value _ =>
      rw [Expr.targetBindings, storeBindings] at h
      split at h
      · cases h
        rw [Expr.targetMarks, map_nil]
      · cases h
    | _ =>
      simp only [Expr.targetBindings] at h
      cases h

theorem Expr.marks_of_targetsBindings : (es : List Expr) → {names : List Ident} →
    Expr.targetsBindings es = .ok names → Expr.targetsMarks es = names.map .binding
  | [], names, h => by
    cases h
    rfl
  | e :: es, names, h => by
    rw [Expr.targetsBindings] at h
    obtain ⟨first, he, h⟩ := bind_eq_ok h
    obtain ⟨rest, hes, h⟩ := bind_eq_ok h
    cases h
    rw [Expr.targetsMarks, Expr.marks_of_targetBindings e he, Expr.marks_of_targetsBindings es hes, map_append]

end

theorem Node.places_of_bindings {names : List Ident} (h : node.bindings = .ok names) :
    node.places = names.map .binding := by
  cases node with
  | handler | expr =>
    cases h
    rfl
  | stmt s =>
    obtain ⟨pos, kind⟩ := s
    cases kind with
    | assign | delete | withBlock => exact Expr.marks_of_targetsBindings _ h
    | augAssign | forLoop => exact Expr.marks_of_targetBindings _ h
    | _ =>
      cases h
      rfl

theorem Node.flatMap_places {sites} (h : nodes.mapM bindings = .ok sites) :
    nodes.flatMap places = sites.flatten.map .binding := by
  have hsites := mapM_eq_ok.mp h
  clear h
  induction hsites with
  | nil => rfl
  | cons hnode _ ih => rw [flatMap_cons, places_of_bindings hnode, ih, flatten_cons, map_append]

theorem Node.perm_marks (nodes : List Node) : (nodes.flatMap marks).Perm
    (nodes.flatMap places ++ ((nodes.flatMap globals).map .global ++
      (nodes.flatMap nonlocals).map .nonlocal)) := by
  have hmarks : marks = fun node => node.places ++ (node.globals.map .global ++ node.nonlocals.map .nonlocal) := by
    funext node
    rw [marks, append_assoc]
  rw [hmarks, map_flatMap, map_flatMap]
  refine (flatMap_append_perm _ _ _).symm.trans ((Perm.refl _).append ?_)
  exact (flatMap_append_perm _ _ _).symm

/-- The variables are those that the marks of a body tell. -/
structure Variables.Describes (vars : Variables) (params : List Ident) (marks : List Mark) : Prop where
  clear : .unclear ∉ marks
  count : ∀ name, vars.bindingCount name = params.count name + marks.count (.binding name)
  mem_globals : ∀ name, name ∈ vars.globals ↔ .global name ∈ marks
  mem_nonlocals : ∀ name, name ∈ vars.nonlocals ↔ .nonlocal name ∈ marks
  mem_locals : ∀ name, name ∈ vars.locals ↔
    (name ∈ params ∨ .binding name ∈ marks) ∧ .global name ∉ marks ∧ .nonlocal name ∉ marks

theorem Variables.describes_ofBody {body} (h : Variables.ofBody body params = .ok vars) :
    vars.Describes params (Stmt.marks body) := by
  obtain ⟨sites, hsites, h⟩ := bind_eq_ok h
  cases h
  have hperm := perm_marks (Stmt.nodesList inScope body)
  rw [flatMap_places hsites] at hperm
  have hmem : ∀ m, m ∈ Stmt.marks body ↔ _ := fun m => hperm.mem_iff
  simp only [mem_append, mem_map] at hmem
  refine ⟨?_, fun name => ?_, fun name => ?_, fun name => ?_, fun name => ?_⟩
  · simp [hmem]
  · have hcount : (Stmt.marks body).count (.binding name) = _ := hperm.count_eq _
    have hzero : ∀ names : List Ident, (names.map Mark.global).count (.binding name) = 0 ∧
        (names.map Mark.nonlocal).count (.binding name) = 0 := fun names => by simp [count_eq_zero]
    rw [hcount, count_append, count_append, (hzero _).1, (hzero _).2,
      count_map_of_injective _ _ (fun _ _ h => by simpa using h)]
    simp [Variables.bindingCount, Variables.ofBindings]
  · simp [hmem, Variables.ofBindings]
  · simp [hmem, Variables.ofBindings]
  · simp only [hmem, Variables.ofBindings, mem_filter, mem_append]
    simp

theorem Variables.count_release {rest removed} (h : vars.release? removed = some rest) :
    ∀ name ∈ vars.locals, 0 < vars.bindingCount name →
      0 < rest.bindingCount name ∧ rest.bindingCount name + removed.count name = vars.bindingCount name := by
  unfold Variables.release? at h
  split at h
  · cases h
  rename_i hany
  cases h
  intro name hlocal hpos
  have hcount : (removed.foldl List.erase vars.bindings).count name =
      vars.bindings.count name - removed.count name := by
    rw [← diff_eq_foldl, count_diff]
  unfold Variables.bindingCount at hpos ⊢
  dsimp only
  rw [hcount]
  by_cases hmem : name ∈ removed
  · have hlt : removed.count name < vars.bindings.count name := by
      by_contra hle
      refine hany (any_eq_true.mpr ⟨name, hmem, ?_⟩)
      exact Bool.and_eq_true_iff.mpr ⟨contains_iff_mem.mpr hlocal, decide_eq_true (Nat.le_of_not_lt hle)⟩
    omega
  · rw [count_eq_zero_of_not_mem hmem]
    omega

/-! ### Balance -/

/-- The scope has more local variables of a certain kind, and perhaps other counts of places, but the same names
besides. -/
structure Scope.Extends (extra : Ident → Prop) (old new : Scope) : Prop where
  kind : new.kind = old.kind
  globals : new.vars.globals = old.vars.globals
  nonlocals : new.vars.nonlocals = old.vars.nonlocals
  reboundByNested : new.vars.reboundByNested = old.vars.reboundByNested
  locals : old.vars.locals ⊆ new.vars.locals
  added : ∀ name ∈ new.vars.locals, name ∈ old.vars.locals ∨ extra name

section Extra

variable {extra : Ident → Prop}

namespace Scope.Extends

variable {old mid new : Scope}

theorem of_vars (hkind : new.kind = old.kind) (hvars : new.vars = old.vars) : old.Extends extra new :=
  ⟨hkind, by rw [hvars], by rw [hvars], by rw [hvars], by rw [hvars]; exact Subset.refl _,
    fun _ hname => .inl (hvars ▸ hname)⟩

theorem refl (scope : Scope) : scope.Extends extra scope := .of_vars rfl rfl

theorem trans (h : old.Extends extra mid) (h' : mid.Extends extra new) : old.Extends extra new where
  kind := h'.kind.trans h.kind
  globals := h'.globals.trans h.globals
  nonlocals := h'.nonlocals.trans h.nonlocals
  reboundByNested := h'.reboundByNested.trans h.reboundByNested
  locals _ hname := h'.locals (h.locals hname)
  added name hname := (h'.added name hname).elim (h.added name) .inr

theorem of_releases {removed} (h : s.Releases removed s') : s.scope.Extends extra s'.scope := by
  obtain ⟨log, vars, rfl, hvars⟩ := h
  split at hvars
  · obtain ⟨freed, _, hrelease⟩ := hvars
    unfold Variables.release? at hrelease
    split at hrelease
    · cases hrelease
    · cases hrelease
      exact ⟨rfl, rfl, rfl, rfl, Subset.refl _, fun _ hname => .inl hname⟩
  · exact .of_vars rfl hvars

end Scope.Extends

/-- The marks of a part of the body before and after a visit, and the places that the scope counts meanwhile.  Only
extra names have new places, declarations are kept, and a local variable of a function loses as many places in the
counts as among the marks, but not the last one. -/
structure Mark.Balanced (extra : Ident → Prop) (s : State) (olds news : List Mark) (s' : State) : Prop where
  scope : s.scope.Extends extra s'.scope
  sub : .unclear ∉ olds → ∀ m ∈ news, m ∈ olds ∨ ∃ name, m = .binding name ∧ extra name
  declared : .unclear ∉ olds → ∀ m ∈ olds, m.declares = true → m ∈ news
  counted : .unclear ∉ olds → s.scope.kind = .function → ∀ name ∈ s.scope.vars.locals,
    0 < s.scope.vars.bindingCount name → 0 < s'.scope.vars.bindingCount name ∧
      s'.scope.vars.bindingCount name + olds.count (.binding name) ≤
        s.scope.vars.bindingCount name + news.count (.binding name)

def Mark.correspondence (extra : Ident → Prop) : Correspondence where
  expr s _ _ s' := Balanced extra s [] [] s'
  target s e new s' := Balanced extra s e.targetMarks new.targetMarks s'
  stmts s ts news s' := Balanced extra s (Stmt.marks ts) (Stmt.marks news) s'

namespace Mark.Balanced

variable {s₁ : State} {olds' mids news' : List Mark}

theorem of_count_le (hkind : s'.scope.kind = s.scope.kind) (hvars : s'.scope.vars = s.scope.vars)
    (hsub : ∀ m ∈ news, m ∈ olds) (hcount : ∀ m, olds.count m ≤ news.count m) : Balanced extra s olds news s' := by
  refine ⟨.of_vars hkind hvars, fun _ m hm => .inl (hsub m hm), fun _ m hm _ => ?_, fun _ _ name _ hpos => ?_⟩
  · have hpos := count_pos_iff.mpr hm
    exact count_pos_iff.mp (Nat.lt_of_lt_of_le hpos (hcount m))
  · have hle := hcount (.binding name)
    rw [hvars]
    omega

theorem of_scope (hkind : s'.scope.kind = s.scope.kind) (hvars : s'.scope.vars = s.scope.vars) (marks : List Mark) :
    Balanced extra s marks marks s' :=
  .of_count_le hkind hvars (fun _ h => h) fun _ => Nat.le_refl _

theorem of_frame (h : s.Frame s') (marks : List Mark) : Balanced extra s marks marks s' :=
  .of_scope h.kind h.vars marks

theorem of_unclear (h : s.Frame s') (hmem : .unclear ∈ olds) : Balanced extra s olds news s' :=
  ⟨.of_vars h.kind h.vars, fun hnot => absurd hmem hnot, fun hnot => absurd hmem hnot, fun hnot => absurd hmem hnot⟩

theorem refl (s : State) (marks : List Mark) : Balanced extra s marks marks s := .of_scope rfl rfl marks

theorem clear (h : Balanced extra s olds news s') (hnot : .unclear ∉ olds) : .unclear ∉ news := by
  intro hmem
  rcases h.sub hnot _ hmem with hold | ⟨name, heq, _⟩
  · exact hnot hold
  · cases heq

theorem trans (h : Balanced extra s olds mids s₁) (h' : Balanced extra s₁ mids news s') :
    Balanced extra s olds news s' := by
  refine ⟨h.scope.trans h'.scope, fun hnot m hm => ?_, fun hnot m hm hdeclares => ?_,
    fun hnot hkind name hname hpos => ?_⟩
  · rcases h'.sub (h.clear hnot) m hm with hm | hextra
    · exact h.sub hnot m hm
    · exact .inr hextra
  · exact h'.declared (h.clear hnot) m (h.declared hnot m hm hdeclares) hdeclares
  · obtain ⟨hpos1, hle1⟩ := h.counted hnot hkind name hname hpos
    obtain ⟨hpos2, hle2⟩ := h'.counted (h.clear hnot) (h.scope.kind.trans hkind) name (h.scope.locals hname) hpos1
    exact ⟨hpos2, by omega⟩

theorem append (h : Balanced extra s olds news s₁) (h' : Balanced extra s₁ olds' news' s') :
    Balanced extra s (olds ++ olds') (news ++ news') s' := by
  refine ⟨h.scope.trans h'.scope, fun hnot m hm => ?_, fun hnot m hm hdeclares => ?_,
    fun hnot hkind name hname hpos => ?_⟩
  all_goals
    simp only [mem_append, not_or] at hnot
  · rcases mem_append.mp hm with hm | hm
    · exact (h.sub hnot.1 m hm).imp_left (mem_append_left _)
    · exact (h'.sub hnot.2 m hm).imp_left (mem_append_right _)
  · rcases mem_append.mp hm with hm | hm
    · exact mem_append_left _ (h.declared hnot.1 m hm hdeclares)
    · exact mem_append_right _ (h'.declared hnot.2 m hm hdeclares)
  · obtain ⟨hpos1, hle1⟩ := h.counted hnot.1 hkind name hname hpos
    obtain ⟨hpos2, hle2⟩ := h'.counted hnot.2 (h.scope.kind.trans hkind) name (h.scope.locals hname) hpos1
    rw [count_append, count_append]
    exact ⟨hpos2, by omega⟩

theorem known (ns ns' : Namespace) (h : Balanced extra s olds news s') :
    Balanced extra { s with known := ns } olds news { s' with known := ns' } :=
  ⟨h.scope, h.sub, h.declared, h.counted⟩

theorem of_releases {removed} (hs : s.Releases removed s')
    (hcount : ∀ m, olds.count m = news.count m + (Stmt.marks removed).count m)
    (hdeclares : ∀ m ∈ Stmt.marks removed, m.declares = false) : Balanced extra s olds news s' := by
  refine ⟨.of_releases hs, fun _ m hm => .inl ?_, fun _ m hm hm' => ?_, fun _ hkind name hname hpos => ?_⟩
  · have hpos := count_pos_iff.mpr hm
    exact count_pos_iff.mp (by rw [hcount]; omega)
  · have hpos := count_pos_iff.mpr hm
    have hzero : (Stmt.marks removed).count m = 0 := by
      refine count_eq_zero.mpr fun hmem => ?_
      rw [hdeclares m hmem] at hm'
      cases hm'
    rw [hcount, hzero] at hpos
    exact count_pos_iff.mp hpos
  · obtain ⟨log, vars, rfl, hvars⟩ := hs
    rw [if_pos hkind] at hvars
    obtain ⟨freed, hfreed, hrelease⟩ := hvars
    obtain ⟨hpos', hrest⟩ := Variables.count_release hrelease name hname hpos
    -- the analysis of the removed statements has counted their marks
    have hremoved := (Variables.describes_ofBody hfreed).count name
    have hmarks := hcount (.binding name)
    unfold Variables.bindingCount at hremoved
    rw [count_nil, Nat.zero_add] at hremoved
    dsimp only
    exact ⟨hpos', by omega⟩

/-! ### Putting parts together -/

theorem bodies : (correspondence extra).Bodies where
  refl s ts := refl s _
  trans h1 h2 := trans h1 h2
  append h1 h2 := by
    change Balanced extra _ _ _ _
    rw [Stmt.marks_append, Stmt.marks_append]
    exact append h1 h2
  trims h hs := by
    change Balanced extra _ _ _ _
    cases h with
    | none ts => exact of_releases hs (by simp) (by simp)
    | rest before dropped _ hremovable =>
      refine of_releases hs (fun m => ?_) (not_declares_of_removable hremovable)
      rw [Stmt.marks_append, Stmt.marks_append, Stmt.marks_cons]
      simp only [count_append, Nat.add_assoc]
  filled h := h

variable (hexpr : (correspondence extra).Exprs v bad ctx)
  (hstmt : ∀ t s, Ensures (v.stmt t) bad ((correspondence extra).stmts s [t]) ctx s)
include hexpr

theorem ensures_optional (e : Option Expr) : Ensures (e.mapM v.expr) bad (fun _ => Balanced extra s [] []) ctx s := by
  cases e with
  | none => exact refl s []
  | some e => exact (hexpr.expr e s).bind fun _ _ h => .pure h

theorem ensures_targets (es : List Expr) :
    Ensures (v.targets es) bad
      (fun news => Balanced extra s (Expr.targetsMarks es) (Expr.targetsMarks news)) ctx s := by
  induction es generalizing s with
  | nil => exact refl s []
  | cons e es ih =>
    rw [Visitor.targets]
    refine (hexpr.target e s).bind fun e' s₁ h1 => ih.bind fun es' s2 h2 => ?_
    exact .pure (append h1 h2)

theorem ensures_withItems (items : List WithItem) : Ensures (items.mapM v.withItem) bad (fun news =>
    Balanced extra s (Expr.targetsMarks (items.filterMap WithItem.target))
      (Expr.targetsMarks (news.filterMap WithItem.target))) ctx s := by
  induction items generalizing s with
  | nil => exact refl s []
  | cons item items ih =>
    obtain ⟨context, target⟩ := item
    rw [mapM_cons, Visitor.withItem, bind_assoc]
    refine (hexpr.expr context s).bind fun context' s₁ h1 => ?_
    cases target with
    | none =>
      refine ih.bind fun news s2 h2 => .pure ?_
      have h := append h1 h2
      exact h
    | some e =>
      have htarget : Ensures ((some e).mapM v.target) bad
          (fun new s2 => ∃ e', new = some e' ∧ Balanced extra s₁ e.targetMarks e'.targetMarks s2) ctx s₁ :=
        (hexpr.target e s₁).bind fun e' s2 h2 => .pure ⟨e', rfl, h2⟩
      rw [bind_assoc]
      refine htarget.bind fun new s2 h2 => ?_
      obtain ⟨e', rfl, h2⟩ := h2
      refine ih.bind fun news s3 h3 => .pure ?_
      have h := append h1 (append h2 h3)
      exact h

include hstmt

theorem ensures_handlers (handlers : List Handler) :
    Ensures (handlers.mapM v.handler) bad
      (fun news => Balanced extra s (Handler.marks handlers) (Handler.marks news)) ctx s := by
  induction handlers generalizing s with
  | nil => exact refl s []
  | cons h handlers ih =>
    rw [mapM_cons, Visitor.handler, bind_assoc]
    refine (ensures_optional hexpr h.type).bind fun type s₁ h1 => ?_
    rw [bind_assoc]
    refine (Correspondence.ensures_body bodies hstmt true h.body).bind fun body s2 h2 => ?_
    refine ih.bind fun news s3 h3 => .pure ?_
    rw [Handler.marks_cons, Handler.marks_cons]
    exact append (append (append h1 (refl s₁ _)) h2) h3

theorem stmtChildren (t : Stmt) :
    Ensures (v.stmtChildren t) bad (fun new => (correspondence extra).stmts s [t] [new]) ctx s := by
  obtain ⟨pos, kind⟩ := t
  have hbody : ∀ required ts s, Ensures (v.body required ts) bad
      (fun new => Balanced extra s (Stmt.marks ts) (Stmt.marks new)) ctx s :=
    fun required ts s => Correspondence.ensures_body bodies hstmt required ts
  have hconditional : ∀ required ts s, Ensures (conditionally (v.body required ts)) bad
      (fun new => Balanced extra s (Stmt.marks ts) (Stmt.marks new)) ctx s := by
    intro required ts s
    rw [ensures_conditionally]
    refine (hbody required ts _).imp fun news s₁ h1 => ?_
    have h := known s.known (s₁.known.leaveCond s.known.conditional) h1
    exact h
  have hput : ∀ {t new olds news s s'}, Stmt.marks [t] = olds → Stmt.marks [new] = news →
      Balanced extra s olds news s' → (correspondence extra).stmts s [t] [new] s' := by
    rintro t new _ _ s s' rfl rfl h
    exact h
  unfold Visitor.stmtChildren
  cases kind with
  | ret value =>
    refine (ensures_optional hexpr value).bind fun new s₁ h1 => .pure ?_
    exact hput (Stmt.marks_ret ..) (Stmt.marks_ret ..) h1
  | delete targets =>
    refine (ensures_targets hexpr targets).bind fun new s₁ h1 => .pure ?_
    exact hput (Stmt.marks_delete ..) (Stmt.marks_delete ..) h1
  | assign targets value =>
    refine (hexpr.expr value s).bind fun value' s₁ h1 => (ensures_targets hexpr targets).bind fun new s2 h2 => ?_
    exact .pure (hput (Stmt.marks_assign ..) (Stmt.marks_assign ..) (append h1 h2))
  | augAssign target op value =>
    refine (hexpr.target target s).bind fun target' s₁ h1 => (hexpr.expr value s₁).bind fun value' s2 h2 => ?_
    refine .pure (hput (Stmt.marks_augAssign ..) (Stmt.marks_augAssign ..) ?_)
    simpa using append h1 h2
  | forLoop target iter body orelse isAsync =>
    refine (hexpr.expr iter s).bind fun iter' s₁ h1 => ?_
    rw [ensures_conditionally]
    refine (hexpr.target target _).bind fun target' s2 h2 => (hbody true body s2).bind fun body' s3 h3 => ?_
    refine (hbody false orelse s3).bind fun orelse' s4 h4 => .pure ?_
    have hparts := known s₁.known (s4.known.leaveCond s₁.known.conditional) (append (append h2 h3) h4)
    have h := append h1 hparts
    exact hput (Stmt.marks_forLoop ..) (Stmt.marks_forLoop ..) h
  | whileLoop test body orelse =>
    rw [ensures_conditionally]
    refine (hexpr.expr test _).bind fun test' s₁ h1 => (hbody true body s₁).bind fun body' s2 h2 => ?_
    refine (hbody false orelse s2).bind fun orelse' s3 h3 => .pure ?_
    have hparts := known s.known (s3.known.leaveCond s.known.conditional) (append (append h1 h2) h3)
    exact hput (Stmt.marks_whileLoop ..) (Stmt.marks_whileLoop ..) hparts
  | cond test body orelse =>
    refine (hexpr.expr test s).bind fun test' s₁ h1 => (hconditional true body s₁).bind fun body' s2 h2 => ?_
    refine (hconditional false orelse s2).bind fun orelse' s3 h3 => .pure ?_
    exact hput (Stmt.marks_cond ..) (Stmt.marks_cond ..) (append (append h1 h2) h3)
  | withBlock items body isAsync =>
    refine (ensures_withItems hexpr items).bind fun items' s₁ h1 => ?_
    refine (hconditional true body s₁).bind fun body' s2 h2 => .pure ?_
    exact hput (Stmt.marks_withBlock ..) (Stmt.marks_withBlock ..) (append h1 h2)
  | raise exc cause =>
    refine (ensures_optional hexpr exc).bind fun exc' s₁ h1 => ?_
    refine (ensures_optional hexpr cause).bind fun cause' s2 h2 => .pure ?_
    exact hput (Stmt.marks_raise ..) (Stmt.marks_raise ..) (trans h1 h2)
  | tryBlock body handlers orelse final =>
    rw [ensures_bind_iff, ensures_conditionally]
    refine (hbody true body _).bind fun body' s₁ h1 => ?_
    refine (ensures_handlers hexpr hstmt handlers).bind fun handlers' s2 h2 => ?_
    refine (hbody false orelse s2).bind fun orelse' s3 h3 => .pure ?_
    refine (hbody true final _).bind fun final' s4 h4 => .pure ?_
    -- the `finally` block is no longer a conditional region
    have hparts := known s.known (s3.known.leaveCond s.known.conditional) (append (append h1 h2) h3)
    exact hput (Stmt.marks_tryBlock ..) (Stmt.marks_tryBlock ..) (append hparts h4)
  | expr value =>
    refine (hexpr.expr value s).bind fun new s₁ h1 => .pure ?_
    exact hput (Stmt.marks_expr ..) (Stmt.marks_expr ..) h1
  | functionDef | classDef | importModules | importFrom | globals | nonlocals | pass | brk | cont =>
    exact .pure (refl s _)

theorem visitStmt (hpasses : (correspondence extra).Passes bad ctx) (hbad : Unlocated bad) {t}
    (ht : t.isScope = false) : Ensures (v.visitStmt t) bad ((correspondence extra).stmts s [t]) ctx s :=
  bodies.visitStmt hstmt hpasses (fun t _ => stmtChildren hexpr hstmt t) hbad ht

end Mark.Balanced

/-! ### What the passes do -/

theorem Iterable.steady_rangeTuple (iter : Expr) : Steady (rangeTuple iter) := by
  unfold rangeTuple
  split
  · refine .bind (.isBuiltin _) fun isBuiltin => ?_
    split
    · exact .pure _
    refine .bind .config fun config => ?_
    dsimp only
    split
    · exact .bind (.addGuard _) fun _ => .pure _
    · exact .pure _
  · exact .pure _

/-- The passes keep a correspondence that holds whatever they do: a statement is kept while the known values change,
its iterable is replaced, it is unrolled, or parts of it are discarded. -/
theorem Correspondence.passes_of_steps {K : Correspondence}
    (hkeep : ∀ {s s' : State} t, s.Tracks s' → K.step s t .keep s')
    (hiterable : ∀ {s s' : State} {t step}, Iterable.Replaces (fun _ _ => True) t step → s.Frame s' →
      K.step s t step s')
    (hunroll : ∀ {s s' : State} {limits t step}, Unrolling.Unrolls limits t step → s.Logs s' → K.step s t step s')
    (hdiscard : ∀ {s s' : State} {t removed step}, DeadCode.Discards t removed step → s.Releases removed s' →
      K.step s t step s') (ctx : Context) : K.Passes (fun _ => True) ctx := by
  intro p hp t s
  have hidle : Ensures (pure StmtStep.keep) (fun _ => True) (K.step s t) ctx s := .pure (hkeep t (.refl s))
  have hiter : ∀ {simplify : Expr → Visit (Option Expr)}, (∀ iter, Steady (simplify iter)) →
      Ensures (Iterable.leaveStmt simplify t) (fun _ => True) (K.step s t) ctx s := by
    intro simplify hsimplify
    refine (Iterable.ensures_leaveStmt (R := fun _ _ => True) (State.Frame.refl s) fun iter => ?_).imp
      fun step s' h =>
      hiterable h.1 h.2
    exact (hsimplify iter).ensures_frame.imp fun _ _ h => ⟨fun _ _ => trivial, h⟩
  refine ctx.stage.forall_leaveStmt (P := fun leave => Ensures (leave t) (fun _ => True) (K.step s t) ctx s) hidle ?_
    (hiter fun iter => .bind .config fun _ => .pure _) (Unrolling.ensures_leaveStmt.imp fun step s' h =>
      hunroll h.1 h.2)
    (DeadCode.ensures_leaveStmt.imp fun step s' h => ?_) (hiter Iterable.steady_rangeTuple) p hp
  · exact Tracking.tracks_leaveStmt.bind fun _ s' h => .pure (hkeep t h)
  · cases h with
    | kept hs => exact hkeep t hs.tracks
    | discarded h hs => exact hdiscard h hs

namespace Mark

/-! ### Visits of expressions and targets -/

section Visits

variable {bad : Failure → Prop}

theorem targetMarks_rules : Expr.TargetRules (fun _ _ => True) fun e new =>
    .unclear ∈ e.targetMarks ∨ new.targetMarks = e.targetMarks := by
  have hitems : ∀ {items items'},
      Forall₂ (fun e new => .unclear ∈ e.targetMarks ∨ new.targetMarks = e.targetMarks) items items' →
      .unclear ∈ Expr.targetsMarks items ∨ Expr.targetsMarks items' = Expr.targetsMarks items := by
    intro items items' h
    induction h with
    | nil => exact .inr rfl
    | cons hfirst _ ih =>
      simp only [Expr.targetsMarks, mem_append]
      rcases hfirst with hmem | hfirst
      · exact .inl (.inl hmem)
      · rcases ih with hmem | hrest
        · exact .inl (.inr hmem)
        · exact .inr (by rw [hfirst, hrest])
  constructor
  case name => exact .inr rfl
  case tuple | list => exact fun h => by simpa only [Expr.targetMarks] using hitems h
  case starred => exact fun h => by simpa only [Expr.targetMarks] using h
  case attr => exact fun _ => .inr (by simp only [Expr.targetMarks])
  case subscript => exact fun _ _ => .inr (by simp only [Expr.targetMarks])
  case other =>
    rintro ⟨pos, kind⟩ new he _
    cases kind with
    | name | tuple | list | starred | attr | subscript => cases he
    | _ => exact .inl (by simp [Expr.targetMarks])

theorem exprs_correspondence (n : Nat) (ctx : Context) :
    (correspondence extra).Exprs (visitor n) (fun _ => True) ctx := by
  have hframe : ∀ e s, Ensures ((visitor n).expr e) (fun _ => True) (fun _ s' => State.Frame s s') ctx s :=
    fun e s => (visitor_steady n e).ensures_frame
  refine ⟨fun e s => (hframe e s).imp fun _ _ h => .of_frame h [], fun e s => ?_⟩
  have hvisits : ∀ e, True → Logic.Visits (I := Unit) (fun x post ctx s => Ensures (x ()) (fun _ => True) post ctx s)
      (fun _ => visitor n) (fun _ _ => True) s.Frame ctx e :=
    fun e _ s₁ hs1 => (hframe e s₁).imp fun _ _ h => ⟨trivial, hs1.trans h⟩
  refine ((logic_ensures _).target (fun _ _ _ _ => trivial) targetMarks_rules hvisits trivial (.refl s)).imp
    fun new s' h => ?_
  rcases h.1 with hmem | hmarks
  · exact .of_unclear h.2 hmem
  · change Balanced extra s e.targetMarks new.targetMarks s'
    rw [hmarks]
    exact .of_frame h.2 _

/-! ### The passes -/

theorem correspondence_step_keep (h : s.Tracks s') (t : Stmt) : (correspondence extra).step s t .keep s' := by
  obtain ⟨log, known, rfl⟩ := h
  refine Balanced.of_scope ?_ ?_ _
  · rfl
  · rfl

variable {t : Stmt} {step : StmtStep}

theorem correspondence_step_inPlaceOf {body} (h : Balanced extra s (Stmt.marks [t]) (Stmt.marks body) s') :
    (correspondence extra).step s t (inPlaceOf t body) s' := by
  unfold inPlaceOf
  split
  · rename_i hempty
    rw [isEmpty_iff.mp hempty] at h
    exact h
  · exact h

theorem correspondence_step_discards {removed} (h : DeadCode.Discards t removed step)
    (hs : s.Releases removed s') : (correspondence extra).step s t step s' := by
  cases h with
  | always _ _ hremovable =>
    refine correspondence_step_inPlaceOf (.of_releases hs (fun m => ?_) (not_declares_of_removable hremovable))
    rw [Stmt.marks_cond, count_append]
  | never _ _ hremovable | idleWhile _ _ hremovable =>
    refine correspondence_step_inPlaceOf (.of_releases hs (fun m => ?_) (not_declares_of_removable hremovable))
    simp only [Stmt.marks_cond, Stmt.marks_whileLoop, count_append]
    omega
  | idleFor _ hremovable =>
    refine correspondence_step_inPlaceOf (.of_releases hs (fun m => ?_) ?_)
    · simp only [Stmt.marks_forLoop, count_append, Stmt.marks_nil, count_nil]
      omega
    · simp only [Stmt.marks_forLoop, Stmt.marks_nil, append_nil, forall_mem_append]
      exact ⟨Expr.declares_targetMarks _, not_declares_of_removable hremovable⟩
  | negated hbody | condElse hbody | whileElse hbody | forElse hbody | tryWithoutElse hbody =>
    refine Balanced.of_releases hs (fun m => ?_) (by simp)
    simp [marks_of_doesNothing hbody]
  | tryFinal hbody hother hremovable | tryElse hbody hother hremovable =>
    refine correspondence_step_inPlaceOf (.of_releases hs (fun m => ?_) ?_)
    · simp only [Stmt.marks_tryBlock, marks_of_doesNothing hbody, marks_of_doesNothing hother,
        count_append, Stmt.marks_nil, count_nil]
      omega
    · simpa using not_declares_of_removableHandlers hremovable
  | tryMoved hbody hremovable =>
    refine Balanced.of_releases hs (fun m => ?_) ?_
    · simp only [Stmt.marks_tryBlock, marks_of_doesNothing hbody, Handler.marks_nil, count_append,
        Stmt.marks_nil, count_nil]
      omega
    · simpa using not_declares_of_removableHandlers hremovable

theorem marks_iterations (t : Stmt) (target : Expr) (body : List Stmt) (literals : List Expr) :
    Stmt.marks (Unrolling.iterations t target body literals) =
      literals.flatMap fun _ => target.targetMarks ++ Stmt.marks body := by
  induction literals with
  | nil => rfl
  | cons l literals ih =>
    have hcons : Unrolling.iterations t target body (l :: literals) =
        t.withKind (.assign [target] l) :: body ++ Unrolling.iterations t target body literals := rfl
    rw [hcons, Stmt.marks_append, Stmt.marks_cons, Stmt.withKind, Stmt.marks_assign, ih]
    simp [Expr.targetsMarks]

theorem correspondence_step_unrolls {limits} (h : Unrolling.Unrolls limits t step) (hs : s.Logs s') :
    (correspondence extra).step s t step s' := by
  cases h with
  | keep => exact correspondence_step_keep hs.tracks t
  | unroll _ _ hitems hliterals =>
    rename_i pos target iter id body orelse items literals _ _ _
    obtain ⟨l, literals, rfl⟩ := exists_cons_of_ne_nil (ne_nil_of_mapM hliterals hitems)
    obtain ⟨log, rfl⟩ := hs
    refine Balanced.of_count_le rfl rfl (fun m hm => ?_) fun m => ?_
    · simp only [Stmt.marks_append, marks_iterations, mem_append, mem_flatMap] at hm
      rw [Stmt.marks_forLoop, mem_append, mem_append]
      rcases hm with ⟨_, _, hm⟩ | hm
      · exact .inl hm
      · exact .inr hm
    · simp only [Stmt.marks_append, marks_iterations, Stmt.marks_forLoop, flatMap_cons, count_append]
      omega

theorem correspondence_step_replaces {R : Expr → Expr → Prop} (h : Iterable.Replaces R t step) (hs : s.Frame s') :
    (correspondence extra).step s t step s' := by
  cases h with
  | keep => exact Balanced.of_frame hs _
  | iter =>
    change Balanced _ _ _ _ _
    rw [Stmt.marks_forLoop, Stmt.marks_forLoop]
    exact .of_frame hs _

theorem passes_correspondence (ctx : Context) : (correspondence extra).Passes (fun _ => True) ctx :=
  Correspondence.passes_of_steps (fun t h => correspondence_step_keep h t) correspondence_step_replaces
    correspondence_step_unrolls correspondence_step_discards ctx

/-! ### Definitions -/

theorem ensures_stmtHeader (hv : v.Steady) (ht : t.isScope = true) :
    Ensures (v.stmtHeader t) (fun _ => True) (fun new s' => new.isScope = true ∧ s.Frame s' ∧
      Stmt.marks [new] = Stmt.marks [t]) ctx s := by
  refine ((Steady.closed.stmtHeader hv t).ensures_frame.and (v.ensures_rebuildsHeader ht)).mono
    (fun _ _ => trivial) ?_
  rintro new s' ⟨hs, h⟩
  cases h with
  | function | classDef => exact ⟨rfl, hs, rfl⟩

theorem ensures_definition (hv : v.Steady) (ht : t.isScope = true)
    (hinside : ∀ new s, new.isScope = true → Ensures (v.stmtInside new) (fun _ => True)
      (fun r s' => Visitor.Gives (fun news => Balanced extra s (Stmt.marks [new]) (Stmt.marks news) s') r) ctx s) :
    Ensures (v.visitStmt t) (fun _ => True) ((correspondence extra).stmts s [t]) ctx s := by
  refine Visitor.ensures_visitDefinition (fun _ _ _ _ => trivial) ((ensures_stmtHeader hv ht).imp fun new s₁ h1 => ?_)
  obtain ⟨hscope, hframe, hmarks⟩ := h1
  refine (Pass.ensures_enterAll new).imp fun _ s2 h2 => ?_
  have hbefore : Balanced extra s (Stmt.marks [t]) (Stmt.marks [new]) s2 := by
    rw [hmarks]
    exact .of_scope (h2.1.1.trans hframe.kind) (h2.1.2.trans hframe.vars) _
  refine (hinside new s2 hscope).imp fun r s3 h3 => ?_
  cases r with
  | inl inner => exact ⟨h3.1, hbefore.trans h3.2⟩
  | inr ts => exact hbefore.trans h3

theorem visitor_restricted (n : Nat) (hstage : ctx.stage = .restricted) (t : Stmt) (s : State) :
    Ensures ((visitor n).stmt t) (fun _ => True) ((correspondence fun _ => False).stmts s [t]) ctx s := by
  induction n generalizing t s with
  | zero => exact trivial
  | succ n ih =>
    cases ht : t.isScope with
    | false =>
      exact Balanced.visitStmt (exprs_correspondence n ctx) ih (passes_correspondence ctx) (fun _ _ _ _ => trivial) ht
    | true =>
      have hstays : ctx.stage.entersScopes ≠ true := by
        rw [hstage]
        decide
      refine ensures_definition (visitor_steady n) ht fun new s hscope => ?_
      exact Visitor.ensures_stmtInside hscope ⟨hscope, .refl s _⟩ (fun h => absurd h hstays) fun h => absurd h hstays

end Visits

end Mark

end Extra

/-! ### The first stage of a function -/

/-- The variables have the same names as local, global and nonlocal ones. -/
structure Variables.SameNames (vars vars' : Variables) : Prop where
  locals : ∀ name, name ∈ vars'.locals ↔ name ∈ vars.locals
  globals : ∀ name, name ∈ vars'.globals ↔ name ∈ vars.globals
  nonlocals : ∀ name, name ∈ vars'.nonlocals ↔ name ∈ vars.nonlocals

/-- The scope counts all the places of the body at first.  So if fewer are lost than it counts, one is left. -/
theorem Variables.Describes.keeps_local {vars' : Variables} (h : vars.Describes params olds)
    (h' : vars'.Describes params news) {name : Ident} (hlocal : name ∈ vars.locals) (hglobal : .global name ∉ news)
    (hnonlocal : .nonlocal name ∉ news) {count : Nat} (hcount : 0 < vars.bindingCount name → 0 < count ∧
      count + olds.count (.binding name) ≤ vars.bindingCount name + news.count (.binding name)) :
    name ∈ vars'.locals := by
  refine (h'.mem_locals name).mpr ⟨?_, hglobal, hnonlocal⟩
  rw [h.count] at hcount
  by_cases hparam : name ∈ params
  · exact .inl hparam
  · have hzero := count_eq_zero_of_not_mem hparam
    have hmark : .binding name ∈ olds := ((h.mem_locals name).mp hlocal).1.resolve_left hparam
    have hpos := count_pos_iff.mpr hmark
    obtain ⟨hleft, hle⟩ := hcount (by omega)
    exact .inr (count_pos_iff.mp (by omega))

theorem Variables.Describes.sameNames {vars' s s'} (h : vars.Describes params olds)
    (h' : vars'.Describes params news) (hbalanced : Mark.Balanced (fun _ => False) s olds news s')
    (hkind : s.scope.kind = .function)
    (hvars : s.scope.vars = vars) :
    vars.SameNames vars' := by
  have hsub : ∀ m ∈ news, m ∈ olds := fun m hm => (hbalanced.sub h.clear m hm).resolve_right (by simp)
  have hglobal : ∀ name, .global name ∈ news ↔ .global name ∈ olds :=
    fun name => ⟨hsub _, fun hm => hbalanced.declared h.clear _ hm rfl⟩
  have hnonlocal : ∀ name, .nonlocal name ∈ news ↔ .nonlocal name ∈ olds :=
    fun name => ⟨hsub _, fun hm => hbalanced.declared h.clear _ hm rfl⟩
  refine ⟨fun name => ⟨fun hlocal => ?_, fun hlocal => ?_⟩, fun name => ?_, fun name => ?_⟩
  · rw [h'.mem_locals, hglobal, hnonlocal] at hlocal
    exact (h.mem_locals name).mpr ⟨hlocal.1.imp_right (hsub _), hlocal.2⟩
  · obtain ⟨_, hnotGlobal, hnotNonlocal⟩ := (h.mem_locals name).mp hlocal
    subst hvars
    refine h.keeps_local h' hlocal ?_ ?_ (hbalanced.counted h.clear hkind name hlocal)
    · rwa [hglobal]
    · rwa [hnonlocal]
  · rw [h.mem_globals, h'.mem_globals, hglobal]
  · rw [h.mem_nonlocals, h'.mem_nonlocals, hnonlocal]

theorem Visitor.ensures_sameNames (n : Nat) {ctx s fn} (hvars : Variables.ofBody fn.body fn.params.names = .ok vars) :
    Ensures ((visitor n).functionStage .restricted false { kind := .function, vars := vars } fn) (fun _ => True)
      (fun r _ => r.1 = { fn with body := r.1.body } ∧
        ∀ vars', Variables.ofBody r.1.body r.1.params.names = .ok vars' → vars.SameNames vars') ctx s := by
  refine Visitor.ensures_functionStage_of_ok hvars ?_
  refine (Correspondence.ensures_body Mark.Balanced.bodies (Mark.visitor_restricted n rfl) true fn.body).imp
    fun body s' h => ⟨rfl, fun vars' hvars' => ?_⟩
  exact (Variables.describes_ofBody hvars).sameNames (Variables.describes_ofBody hvars') h rfl rfl

def Regime.ofFunction (c : Config) (fn : FunctionDef) : Regime := .ofCode c (fn.Steady c)

/-- The first stage of a function leaves its names as they are: the analysis of the new body, with the same
parameters, finds the same local, global and nonlocal names.  Or the analysis fails because of a store that has become
one that cannot be analyzed; this does not happen if the function is steady and nothing is inlined. -/
theorem functionStage_classification (n : Nat) (ctx : Context) (s : State) (fn : FunctionDef) (vars : Variables)
    (hvars : Variables.ofBody fn.body fn.params.names = .ok vars)
    (hdepth : ctx.config.inlining = false → Stmt.depthList ctx.config.limits.literalDepth fn.body ≤ n) :
    Ensures ((visitor n).functionStage .restricted false { kind := .function, vars := vars } fn)
      (Regime.ofFunction ctx.config fn).Allows (fun r _ => r.1 = { fn with body := r.1.body } ∧
        ((∃ vars', Variables.ofBody r.1.body r.1.params.names = .ok vars' ∧ vars.SameNames vars') ∨
          (∃ target line, Variables.ofBody r.1.body r.1.params.names = .error (.complexAssignment target line)) ∧
            ¬ (ctx.config.inlining = false ∧ fn.Steady ctx.config))) ctx s := by
  -- an analyzed function that is steady has a settled body
  obtain ⟨V, hV, hsettled⟩ : ∃ V, (∀ id, ctx.config.Replaces id → V id) ∧
      ((Regime.ofFunction ctx.config fn).sure → Stmt.SettledList ctx.config True V fn.body) := by
    by_cases hsteady : fn.Steady ctx.config
    · rcases FunctionDef.steady_iff.mp hsteady with ⟨cause, hcause⟩ | ⟨V, hV, hsettled⟩
      · rw [hvars] at hcause
        cases hcause
      · exact ⟨V, hV, fun _ => hsettled⟩
    · exact ⟨fun _ => True, fun _ _ => trivial, fun hsure => absurd hsure.2 hsteady⟩
  let inner : Context :=
    { ctx with stage := .restricted, allowGuards := false, enclosing := s.scope :: ctx.enclosing }
  let start : State := { s with scope := { kind := .function, vars := vars }, known := {} }
  have hholds : (Regime.ofFunction ctx.config fn).Holds V inner start :=
    ⟨rfl, hV, fun _ p hp => by simp [start] at hp, fun _ p hp => by simp [start] at hp⟩
  have htame := (visitor_tame n).body (fun _ => .inl trivial) hholds true hdepth hsettled
  have hstage : Ensures ((visitor n).functionStage .restricted false { kind := .function, vars := vars } fn)
      (Regime.ofFunction ctx.config fn).Allows (fun r _ => (Regime.ofFunction ctx.config fn).sure →
        ∃ vars', Variables.ofBody r.1.body r.1.params.names = .ok vars') ctx s :=
    Visitor.ensures_functionStage_of_ok hvars (htame.imp fun body s' h hsure =>
      Variables.ofBody_of_settled (h.1.settled hsure) fn.params.names)
  refine (hstage.and (Visitor.ensures_sameNames n hvars)).mono (fun _ h => h.1) fun r s' h => ?_
  obtain ⟨hok, hheader, hnames⟩ := h
  refine ⟨hheader, ?_⟩
  cases hnew : Variables.ofBody r.1.body r.1.params.names with
  | ok vars' => exact .inl ⟨vars', rfl, hnames vars' hnew⟩
  | error cause =>
    obtain ⟨target, line, rfl⟩ := Variables.cause_of_ofBody hnew
    refine .inr ⟨⟨target, line, rfl⟩, fun hsure => ?_⟩
    obtain ⟨vars', hok⟩ := hok hsure
    rw [hnew] at hok
    cases hok

set_option maxRecDepth 100000 in
/-- In a function whose body is `x = 5` and `x.y.z = 1`, the value of `x` is put into the second store. -/
theorem functionStage_classification_propagated :
    let x : Expr := ⟨{}, .name "x"⟩
    let f : FunctionDef := ⟨"f", ⟨[], none, [], [], none, []⟩, [⟨{}, .assign [x] ⟨{}, .const (.int 5)⟩⟩,
      ⟨{}, .assign [⟨{}, .attr ⟨{}, .attr x "y"⟩ "z"⟩] ⟨{}, .const (.int 1)⟩⟩], [], false⟩
    let vars : Variables := { locals := ["x"], bindings := ["x"] }
    let ctx : Context := ⟨{}, "m.py", [], .generic, false, []⟩
    let s : State := ⟨{ kind := .module, vars := {} }, {}, [], [], false⟩
    Variables.ofBody f.body f.params.names = .ok vars ∧ ∃ new s' target line,
      (visitor 200).functionStage .restricted false { kind := .function, vars := vars } f ctx s = .ok new s' ∧
        Variables.ofBody new.1.body new.1.params.names = .error (.complexAssignment target line) := by
  intro x f vars ctx s
  have hvars : Variables.ofBody f.body f.params.names = .ok vars := rfl
  have hfails : (match (visitor 200).functionStage .restricted false { kind := .function, vars := vars } f ctx s with
      | .ok new _ => (Variables.ofBody new.1.body new.1.params.names).toOption.isSome
      | .error _ _ => true) = false := by decide +kernel
  have hdepth : Stmt.depthList ctx.config.limits.literalDepth f.body ≤ 200 := by decide +kernel
  have hstage := functionStage_classification 200 ctx s f vars hvars fun _ => hdepth
  refine ⟨hvars, ?_⟩
  cases hrun : (visitor 200).functionStage .restricted false { kind := .function, vars := vars } f ctx s with
  | ok new s' =>
    rw [hrun] at hfails
    rcases (hstage.of_ok hrun).2 with ⟨vars', hok, _⟩ | ⟨⟨target, line, herror⟩, _⟩
    · dsimp only at hfails
      rw [hok] at hfails
      cases hfails
    · exact ⟨new, s', target, line, rfl, herror⟩
  | error failure s' =>
    rw [hrun] at hfails
    cases hfails

end Speculator
