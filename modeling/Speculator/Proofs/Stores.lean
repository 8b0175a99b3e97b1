import Speculator.Optimize
import Speculator.Proofs.Literals

/-!
# Stores that stay analyzable

The body of a function is analyzed again after it has been rewritten.  A store into an object is analyzable when the
object is reached from a variable or a display, and rewriting may put a literal in the place of that variable.  Here
are the stores for which this cannot happen.

`U` are the names whose reads may be replaced: the variables that may have a known value, and the names for which the
optimizer has values of its own (`Config.Replaces`).  A reference is anchored if it starts at another name, or at a
display that is not subscripted directly.  `Stmt.Settled` says this of every store of a function, and of the functions
inside of a statement.
-/

namespace Speculator

open List

def Expr.isAttr (e : Expr) : Bool :=
  match e.kind with
  | .attr .. => true
  | _ => false

/-- A reference whatever values the names `U` have; a display only if `display`. -/
def Expr.Anchored (U : Ident → Prop) (display : Bool) : Expr → Prop
  | ⟨_, .name id⟩ => ¬ U id
  | ⟨_, .list _⟩ | ⟨_, .dict _ _⟩ => display = true
  | ⟨_, .attr value _⟩ | ⟨_, .starred value⟩ => value.Anchored U true
  | ⟨_, .call ⟨_, .attr value _⟩ _ _⟩ => value.Anchored U true
  | ⟨_, .subscript value _⟩ => value.Anchored U false
  | _ => False

/-- The object of a store; a name is never replaced there. -/
def Expr.SafeBase (U : Ident → Prop) (e : Expr) : Prop :=
  match e.kind with
  | .name _ => True
  | _ => e.Anchored U true

mutual

/-- The target of an assignment can be analyzed whatever values the names `U` have. -/
def Expr.SafeTarget (U : Ident → Prop) : Expr → Prop
  | ⟨_, .name _⟩ => True
  | ⟨_, .tuple items⟩ | ⟨_, .list items⟩ => Expr.SafeTargets U items
  | ⟨_, .starred value⟩ => value.SafeTarget U
  | ⟨_, .attr value _⟩ | ⟨_, .subscript value _⟩ => value.SafeBase U
  | _ => False

def Expr.SafeTargets (U : Ident → Prop) : List Expr → Prop
  | [] => True
  | e :: es => e.SafeTarget U ∧ Expr.SafeTargets U es

end

/-- Whether the value of the expression is never known: the expression does not become a constant. -/
def Expr.staysOpen (catalog : Catalog) (e : Expr) : Bool :=
  match e.kind with
  | .const _ | .name _ | .binOp .. | .unaryOp .. | .tuple _ | .compare .. | .subscript .. => false
  | .call func _ _ => !func.isAttr && func.name?.all fun id => (catalog.builtin? id).isNone
  | _ => true

/-! ### Statements -/

def Config.Copies (c : Config) (id : Ident) : Prop :=
  c.copyBuiltinToConstant = true ∧ c.copyBuiltinNames.contains id = true

/-- The names whose reads the optimizer replaces by itself: `__debug__`, its variables for slow versions, and the
builtins that are copied to constants. -/
def Config.Replaces (c : Config) (id : Ident) : Prop :=
  id = "__debug__" ∨ id = "_ast_optimized" ∨ (∃ n : Nat, id = "_ast_optimized" ++ toString n) ∨ c.Copies id

mutual

/-- The stores of a statement stay analyzable, if `strict`, and so do those of the functions in it. -/
def Stmt.Settled (c : Config) (strict : Prop) (U : Ident → Prop) : Stmt → Prop
  | ⟨_, .functionDef fn⟩ => (strict → U fn.name) ∧ fn.Steady c
  | ⟨_, .classDef ⟨_, _, _, body, _⟩⟩ => Stmt.SettledList c False (fun _ => True) body
  | ⟨_, .delete targets⟩ => strict → Expr.SafeTargets U targets
  | ⟨_, .assign targets value⟩ =>
    strict → Expr.SafeTargets U targets ∧
      (value.staysOpen c.catalog = true ∨ ∀ t ∈ targets, ∀ id, t.name? = some id → U id)
  | ⟨_, .augAssign target _ _⟩ => strict → target.SafeTarget U
  | ⟨_, .forLoop target _ body orelse _⟩ =>
    (strict → target.SafeTarget U ∧ ∀ id, target.name? = some id → U id) ∧ Stmt.SettledList c strict U body ∧
      Stmt.SettledList c strict U orelse
  | ⟨_, .whileLoop _ body orelse⟩ | ⟨_, .cond _ body orelse⟩ =>
    Stmt.SettledList c strict U body ∧ Stmt.SettledList c strict U orelse
  | ⟨_, .withBlock items body _⟩ =>
    (strict → Expr.SafeTargets U (items.filterMap WithItem.target)) ∧ Stmt.SettledList c strict U body
  | ⟨_, .tryBlock body handlers orelse final⟩ =>
    (Stmt.SettledList c strict U body ∧ Handler.SettledList c strict U handlers) ∧
      Stmt.SettledList c strict U orelse ∧ Stmt.SettledList c strict U final
  | _ => True

def FunctionDef.Steady (c : Config) : FunctionDef → Prop
  | ⟨_, params, body, _, _⟩ =>
    (∃ cause, Variables.ofBody body params.names = .error cause) ∨
      ∃ U, (∀ id, c.Replaces id → U id) ∧ Stmt.SettledList c True U body

def Stmt.SettledList (c : Config) (strict : Prop) (U : Ident → Prop) : List Stmt → Prop
  | [] => True
  | s :: ss => s.Settled c strict U ∧ Stmt.SettledList c strict U ss

def Handler.SettledList (c : Config) (strict : Prop) (U : Ident → Prop) : List Handler → Prop
  | [] => True
  | ⟨_, _, _, body⟩ :: hs => Stmt.SettledList c strict U body ∧ Handler.SettledList c strict U hs

end

def Module.Settled (c : Config) (m : Module) : Prop := Stmt.SettledList c False (fun _ => True) m.body

variable {U : Ident → Prop} {c : Config} {strict : Prop}

theorem FunctionDef.steady_iff {fn : FunctionDef} : fn.Steady c ↔
    (∃ cause, Variables.ofBody fn.body fn.params.names = .error cause) ∨
      ∃ U, (∀ id, c.Replaces id → U id) ∧ Stmt.SettledList c True U fn.body := by
  obtain ⟨name, params, body, decorators, isAsync⟩ := fn
  rw [FunctionDef.Steady]

theorem Stmt.settledList_iff {ss} : Stmt.SettledList c strict U ss ↔ ∀ s ∈ ss, s.Settled c strict U := by
  induction ss with
  | nil => simp [Stmt.SettledList]
  | cons s ss ih => simp [Stmt.SettledList, ih]

/-! ### Anchored references -/

theorem Expr.isReference_of_anchored {display : Bool} : (e : Expr) → e.Anchored U display → e.isReference = true
  | ⟨_, .name _⟩, _ | ⟨_, .list _⟩, _ | ⟨_, .dict _ _⟩, _ => by simp [Expr.isReference]
  | ⟨_, .attr value _⟩, h | ⟨_, .starred value⟩, h | ⟨_, .subscript value _⟩, h
  | ⟨_, .call ⟨_, .attr value _⟩ _ _⟩, h => by
    rw [Expr.Anchored] at h
    rw [Expr.isReference]
    exact Expr.isReference_of_anchored value h

theorem Expr.anchored_call {pos func args keywords} {display : Bool} :
    (⟨pos, .call func args keywords⟩ : Expr).Anchored U display ↔ func.isAttr = true ∧ func.Anchored U true := by
  obtain ⟨fpos, kind⟩ := func
  cases kind <;> simp [Expr.Anchored, Expr.isAttr]

variable {e : Expr} {t : Stmt} {body : List Stmt} {es : List Expr} {cause : Cause}

theorem Expr.isReference_of_safeBase (h : e.SafeBase U) : e.isReference = true := by
  unfold Expr.SafeBase at h
  split at h
  · rename_i hk
    obtain ⟨_, kind⟩ := e
    cases hk
    simp [Expr.isReference]
  · exact Expr.isReference_of_anchored e h

theorem Expr.literal?_of_anchored (h : e.Anchored U false) : e.literal? = none := by
  obtain ⟨pos, kind⟩ := e
  cases kind with
  | name | attr | starred | call | subscript => simp [Expr.literal?, ExprKind.scalar?]
  | _ => simp [Expr.Anchored] at h

mutual

theorem Expr.targetBindings_of_safe : (e : Expr) → e.SafeTarget U → ∃ names, e.targetBindings = .ok names
  | ⟨_, .name id⟩, _ => ⟨[id], by rw [Expr.targetBindings]⟩
  | ⟨_, .tuple items⟩, h | ⟨_, .list items⟩, h => by
    rw [Expr.SafeTarget] at h
    rw [Expr.targetBindings]
    exact Expr.targetsBindings_of_safe items h
  | ⟨_, .starred value⟩, h => by
    rw [Expr.SafeTarget] at h
    rw [Expr.targetBindings]
    exact Expr.targetBindings_of_safe value h
  | ⟨_, .attr value _⟩, h | ⟨_, .subscript value _⟩, h => by
    rw [Expr.SafeTarget] at h
    rw [Expr.targetBindings, storeBindings, if_pos (Expr.isReference_of_safeBase h)]
    exact ⟨[], rfl⟩

theorem Expr.targetsBindings_of_safe :
    (es : List Expr) → Expr.SafeTargets U es → ∃ names, Expr.targetsBindings es = .ok names
  | [], _ => ⟨[], rfl⟩
  | e :: es, h => by
    obtain ⟨first, hfirst⟩ := Expr.targetBindings_of_safe e h.1
    obtain ⟨rest, hrest⟩ := Expr.targetsBindings_of_safe es h.2
    rw [Expr.targetsBindings, hfirst, hrest]
    exact ⟨_, rfl⟩

end

theorem Expr.constant?_of_staysOpen {catalog} (h : e.staysOpen catalog = true) : e.constant? = none := by
  obtain ⟨pos, kind⟩ := e
  cases kind with
  | const | name | binOp | unaryOp | tuple | compare | subscript => simp [Expr.staysOpen] at h
  | _ => simp [Expr.constant?, ExprKind.scalar?]

/-! ### The analysis of settled bodies -/

def Node.isExpr : Node → Bool
  | .expr _ => true
  | _ => false

def Node.Analyzable (node : Node) : Prop := ∃ names, node.bindings = .ok names

section Nodes

variable {enters : Node → Bool}

theorem Expr.isExpr_nodes (e : Expr) : ∀ node ∈ e.nodes enters, node.isExpr = true := by
  induction e using Expr.induction_parts with
  | _ e ih =>
    obtain ⟨pos, kind⟩ := e
    rw [Expr.nodes, ExprKind.nodes_eq_parts enters pos]
    intro node hnode
    rcases mem_cons.mp hnode with rfl | hnode
    · rfl
    · split at hnode
      · obtain ⟨c, hc, hnode⟩ := mem_flatMap.mp hnode
        exact ih c hc node hnode
      · cases hnode

theorem Expr.isExpr_flatMap (es : List Expr) : ∀ node ∈ es.flatMap (Expr.nodes enters), node.isExpr = true := by
  intro node hnode
  obtain ⟨e, _, hnode⟩ := mem_flatMap.mp hnode
  exact e.isExpr_nodes node hnode

theorem Expr.isExpr_nodesOption (e : Option Expr) : ∀ node ∈ Expr.nodesOption enters e, node.isExpr = true := by
  rw [Expr.nodesOption_eq_flatMap]
  exact Expr.isExpr_flatMap _

theorem Expr.isExpr_nodesList (es : List Expr) : ∀ node ∈ Expr.nodesList enters es, node.isExpr = true := by
  rw [Expr.nodesList_eq_flatMap]
  exact Expr.isExpr_flatMap es

theorem Node.bindings_of_isExpr {node : Node} (h : node.isExpr = true) : node.bindings = .ok [] := by
  cases node with
  | expr => rfl
  | stmt | handler => cases h

theorem Expr.analyzable_nodes (e : Expr) : ∀ node ∈ e.nodes enters, node.Analyzable :=
  fun node hnode => ⟨[], Node.bindings_of_isExpr (e.isExpr_nodes node hnode)⟩

end Nodes

variable {hs : List Handler} {params : List Ident} {T : Expr → Expr → Prop}

theorem Handler.settledList_iff :
    Handler.SettledList c strict U hs ↔ ∀ h ∈ hs, Stmt.SettledList c strict U h.body := by
  induction hs with
  | nil => simp [Handler.SettledList]
  | cons h hs ih =>
    obtain ⟨pos, type, name, body⟩ := h
    simp [Handler.SettledList, ih]

theorem Stmt.Settled.of_body (h : t.Settled c strict U) (hscope : t.isScope = false) (hbody : body ∈ t.bodies) :
    Stmt.SettledList c strict U body := by
  obtain ⟨pos, kind⟩ := t
  cases kind with
  | functionDef | classDef => cases hscope
  | forLoop | whileLoop | cond | withBlock =>
    rw [Stmt.Settled] at h
    simp only [Stmt.bodies, Stmt.blocks, mem_cons, not_mem_nil, or_false] at hbody
    grind
  | tryBlock body handlers orelse final =>
    rw [Stmt.Settled, Handler.settledList_iff] at h
    simp only [Stmt.bodies, Stmt.blocks, cons_append, mem_cons, mem_append, mem_map, not_mem_nil, or_false] at hbody
    grind
  | _ => cases hbody

theorem Stmt.Settled.analyzable (h : t.Settled c True U) : (Node.stmt t).Analyzable := by
  obtain ⟨pos, kind⟩ := t
  cases kind with
  | delete targets =>
    rw [Stmt.Settled] at h
    exact Expr.targetsBindings_of_safe targets (h trivial)
  | assign targets value =>
    rw [Stmt.Settled] at h
    exact Expr.targetsBindings_of_safe targets (h trivial).1
  | augAssign target op value =>
    rw [Stmt.Settled] at h
    exact Expr.targetBindings_of_safe target (h trivial)
  | forLoop target iter body orelse isAsync =>
    rw [Stmt.Settled] at h
    exact Expr.targetBindings_of_safe target (h.1 trivial).1
  | withBlock items body isAsync =>
    rw [Stmt.Settled] at h
    exact Expr.targetsBindings_of_safe _ (h.1 trivial)
  | _ => exact ⟨_, rfl⟩

theorem Stmt.analyzable_nodes (t : Stmt) (h : t.Settled c True U) :
    ∀ node ∈ t.nodes Node.inScope, node.Analyzable := by
  induction t using Stmt.induction_bodies with
  | _ t ih =>
    intro node hnode
    rcases (Stmt.mem_nodes_iff Node.inScope_handler).mp hnode with
      rfl | ⟨henters, ⟨handler, _, rfl⟩ | ⟨e, _, hnode⟩ | ⟨body, hbody, s, hs, hnode⟩⟩
    · exact h.analyzable
    · exact ⟨_, rfl⟩
    · exact e.analyzable_nodes node hnode
    · have hscope : t.isScope = false := by simpa [Node.inScope, Node.isScope] using henters
      exact ih body hbody s hs (Stmt.settledList_iff.mp (h.of_body hscope hbody) s hs) node hnode

theorem Variables.ofBody_of_analyzable (hnodes : ∀ node ∈ Stmt.nodesList Node.inScope body, node.Analyzable)
    (params : List Ident) :
    ∃ vars, Variables.ofBody body params = .ok vars := by
  have hsites : ∃ sites, (Stmt.nodesList Node.inScope body).mapM Node.bindings = .ok sites := by
    generalize Stmt.nodesList Node.inScope body = nodes at hnodes
    induction nodes with
    | nil => exact ⟨[], rfl⟩
    | cons node nodes ih =>
      obtain ⟨names, hnames⟩ := hnodes node (by simp)
      obtain ⟨sites, hsites⟩ := ih fun n hn => hnodes n (by simp [hn])
      rw [mapM_cons, hnames, hsites]
      exact ⟨_, rfl⟩
  obtain ⟨sites, hsites⟩ := hsites
  simp only [Variables.ofBody, hsites]
  exact ⟨_, rfl⟩

/-- The analysis of a settled body succeeds. -/
theorem Variables.ofBody_of_settled (h : Stmt.SettledList c True U body) (params : List Ident) :
    ∃ vars, Variables.ofBody body params = .ok vars := by
  refine Variables.ofBody_of_analyzable (fun node hnode => ?_) params
  rw [Stmt.nodesList_eq_flatMap, mem_flatMap] at hnode
  obtain ⟨s, hs, hnode⟩ := hnode
  exact s.analyzable_nodes (Stmt.settledList_iff.mp h s hs) node hnode

theorem Variables.analyzable_of_ofBody {vars} (h : Variables.ofBody body params = .ok vars) :
    ∀ node ∈ Stmt.nodesList Node.inScope body, node.Analyzable := by
  obtain ⟨sites, hsites, _⟩ := bind_eq_ok h
  intro node hnode
  obtain ⟨names, _, hnames⟩ := exists_of_forall₂ (mapM_eq_ok.mp hsites).flip hnode
  exact ⟨names, hnames⟩

/-! ### Analyzable bodies -/

def Stmt.Analyzable (ts : List Stmt) : Prop := ∀ node ∈ Stmt.nodesList Node.inScope ts, node.Analyzable

def Handler.Analyzable (hs : List Handler) : Prop := ∀ node ∈ Handler.nodesList Node.inScope hs, node.Analyzable

namespace Stmt

attribute [local simp] Node.Analyzable Node.bindings bodies blocks

theorem analyzable_nil : Analyzable [] := fun node hnode => by cases hnode

variable {ts : List Stmt}

theorem analyzable_cons : Analyzable (t :: ts) ↔ Analyzable [t] ∧ Analyzable ts := by
  simp only [Analyzable, Stmt.nodesList, append_nil, forall_mem_append]

theorem analyzable_append {us} : Analyzable (ts ++ us) ↔ Analyzable ts ∧ Analyzable us := by
  induction ts with
  | nil => exact ⟨fun h => ⟨analyzable_nil, h⟩, And.right⟩
  | cons t ts ih => rw [cons_append, analyzable_cons, ih, ← and_assoc, ← analyzable_cons]

variable {pos : Position} {test : Expr} {body orelse final : List Stmt}

theorem analyzable_iff : Analyzable ts ↔ ∀ t ∈ ts, ∀ node ∈ t.nodes Node.inScope, node.Analyzable := by
  simp only [Analyzable, Stmt.nodesList_eq_flatMap, forall_mem_flatMap]

theorem analyzable_of_not_scope (ht : t.isScope = false) :
    Analyzable [t] ↔ (Node.stmt t).Analyzable ∧ ∀ body ∈ t.bodies, Analyzable body := by
  have henters : Node.inScope (.stmt t) = true := by simp [Node.inScope, Node.isScope, ht]
  have hnodes {node : Node} := @Stmt.mem_nodes_iff t node _ Node.inScope_handler
  rw [analyzable_iff, forall_mem_singleton]
  constructor
  · refine fun h => ⟨h _ (hnodes.mpr (.inl rfl)), fun body hbody => analyzable_iff.mpr fun s hs node hnode => ?_⟩
    exact h node (hnodes.mpr (.inr ⟨henters, .inr (.inr ⟨body, hbody, s, hs, hnode⟩)⟩))
  · rintro ⟨hself, hbodies⟩ node hnode
    rcases hnodes.mp hnode with rfl | ⟨_, ⟨handler, _, rfl⟩ | ⟨e, _, hnode⟩ | ⟨body, hbody, s, hs, hnode⟩⟩
    · exact hself
    · exact ⟨_, rfl⟩
    · exact e.analyzable_nodes node hnode
    · exact analyzable_iff.mp (hbodies body hbody) s hs node hnode

theorem analyzable_of_scope (ht : t.isScope = true) : Analyzable [t] := by
  obtain ⟨pos, kind⟩ := t
  have hself : (Node.stmt ⟨pos, kind⟩).Analyzable := by
    cases kind with
    | functionDef | classDef => exact ⟨_, rfl⟩
    | _ => cases ht
  simpa [Analyzable, Stmt.nodesList, Stmt.nodes, Node.inScope, Node.isScope, ht] using hself

theorem analyzable_cond : Analyzable [⟨pos, .cond test body orelse⟩] ↔ Analyzable body ∧ Analyzable orelse := by
  rw [analyzable_of_not_scope rfl]
  simp

theorem analyzable_whileLoop :
    Analyzable [⟨pos, .whileLoop test body orelse⟩] ↔ Analyzable body ∧ Analyzable orelse := by
  rw [analyzable_of_not_scope rfl]
  simp

variable {isAsync : Bool} {targets : List Expr} {value : Expr}

theorem analyzable_forLoop {target iter} : Analyzable [⟨pos, .forLoop target iter body orelse isAsync⟩] ↔
      (∃ names, target.targetBindings = .ok names) ∧ Analyzable body ∧ Analyzable orelse := by
  rw [analyzable_of_not_scope rfl]
  simp

theorem analyzable_withBlock {items} : Analyzable [⟨pos, .withBlock items body isAsync⟩] ↔
      (∃ names, Expr.targetsBindings (items.filterMap WithItem.target) = .ok names) ∧ Analyzable body := by
  rw [analyzable_of_not_scope rfl]
  simp

theorem analyzable_handlers : Handler.Analyzable hs ↔ ∀ h ∈ hs, Analyzable h.body := by
  simp only [Handler.Analyzable, (Handler.nodesList_perm Node.inScope_handler hs).mem_iff,
    forall_mem_append, forall_mem_map, forall_mem_flatMap]
  exact ⟨fun h => h.2, fun h => ⟨⟨fun _ _ => ⟨_, rfl⟩, fun _ _ e _ => e.analyzable_nodes⟩, h⟩⟩

theorem analyzable_tryBlock {handlers} : Analyzable [⟨pos, .tryBlock body handlers orelse final⟩] ↔
      Analyzable body ∧ Handler.Analyzable handlers ∧ Analyzable orelse ∧ Analyzable final := by
  rw [analyzable_of_not_scope rfl, analyzable_handlers]
  simp [or_imp, forall_and]

theorem analyzable_assign :
    Analyzable [⟨pos, .assign targets value⟩] ↔ ∃ names, Expr.targetsBindings targets = .ok names := by
  rw [analyzable_of_not_scope rfl]
  simp

theorem analyzable_delete :
    Analyzable [⟨pos, .delete targets⟩] ↔ ∃ names, Expr.targetsBindings targets = .ok names := by
  rw [analyzable_of_not_scope rfl]
  simp

theorem analyzable_expr : Analyzable [⟨pos, .expr value⟩] :=
  (analyzable_of_not_scope rfl).mpr ⟨⟨[], rfl⟩, fun _ h => by cases h⟩

theorem analyzable_pass : Analyzable [⟨pos, .pass⟩] :=
  (analyzable_of_not_scope rfl).mpr ⟨⟨[], rfl⟩, fun _ h => by cases h⟩

end Stmt

theorem Handler.analyzable_nil : Handler.Analyzable [] := Stmt.analyzable_handlers.mpr fun _ h => by cases h

theorem Handler.analyzable_cons {h} :
    Handler.Analyzable (h :: hs) ↔ Stmt.Analyzable h.body ∧ Handler.Analyzable hs := by
  simp only [Stmt.analyzable_handlers, forall_mem_cons]

/-! ### Failures of the analysis -/

theorem Expr.targetsBindings_eq_error (h : Expr.targetsBindings es = .error cause) :
    ∃ e ∈ es, e.targetBindings = .error cause := by
  induction es with
  | nil => cases h
  | cons e es ih =>
    rw [Expr.targetsBindings] at h
    rcases bind_eq_error h with h | ⟨_, _, h⟩
    · exact ⟨e, mem_cons_self, h⟩
    rcases bind_eq_error h with h | ⟨_, _, h⟩
    · obtain ⟨e', he', h⟩ := ih h
      exact ⟨e', mem_cons_of_mem _ he', h⟩
    · cases h

theorem Expr.cause_of_targetBindings (h : e.targetBindings = .error cause) :
    ∃ target line, cause = .complexAssignment target line := by
  induction e using Expr.induction_parts with
  | _ e ih =>
    obtain ⟨pos, kind⟩ := e
    cases kind with
    | name id =>
      rw [Expr.targetBindings] at h
      cases h
    | tuple items | list items =>
      rw [Expr.targetBindings] at h
      obtain ⟨item, hitem, h⟩ := Expr.targetsBindings_eq_error h
      exact ih item hitem h
    | starred value =>
      rw [Expr.targetBindings] at h
      exact ih value mem_cons_self h
    | attr value _ | subscript value _ =>
      rw [Expr.targetBindings, storeBindings] at h
      split at h
      · cases h
      · cases h
        exact ⟨_, _, rfl⟩
    | _ =>
      simp only [Expr.targetBindings] at h
      cases h
      exact ⟨_, _, rfl⟩

theorem Expr.cause_of_targetsBindings (h : Expr.targetsBindings es = .error cause) :
    ∃ target line, cause = .complexAssignment target line := by
  obtain ⟨e, _, he⟩ := Expr.targetsBindings_eq_error h
  exact Expr.cause_of_targetBindings he

theorem Node.cause_of_bindings {node : Node} (h : node.bindings = .error cause) :
    ∃ target line, cause = .complexAssignment target line := by
  unfold Node.bindings at h
  split at h
  · cases h
  · cases h
  · split at h
    case h_3 | h_4 | h_7 => exact Expr.cause_of_targetsBindings h
    case h_5 | h_6 => exact Expr.cause_of_targetBindings h
    all_goals cases h

theorem Variables.cause_of_ofComprehension {gens} (h : Variables.ofComprehension gens = .error cause) :
    ∃ target line, cause = .complexAssignment target line := by
  unfold Variables.ofComprehension at h
  cases hb : Expr.targetsBindings (gens.map Generator.target) with
  | ok names =>
    rw [hb] at h
    cases h
  | error cause' =>
    rw [hb] at h
    cases h
    exact Expr.cause_of_targetsBindings hb

theorem Variables.cause_of_ofBody (h : Variables.ofBody body params = .error cause) :
    ∃ target line, cause = .complexAssignment target line := by
  rcases bind_eq_error h with h | ⟨sites, _, h⟩
  · obtain ⟨node, _, hnode⟩ := mapM_eq_error h
    exact Node.cause_of_bindings hnode
  · cases h

/-! ### Statements with other parts -/

theorem Expr.SafeTargets.of_forall₂ (hT : ∀ {e new}, T e new → e.SafeTarget U → new.SafeTarget U) {news}
    (h : Forall₂ T es news) (hes : Expr.SafeTargets U es) : Expr.SafeTargets U news := by
  induction h with
  | nil => trivial
  | cons hfirst _ ih => exact ⟨hT hfirst hes.1, ih hes.2⟩

/-- A target stays safe if the objects of its stores stay anchored. -/
theorem Expr.safeTarget_rules {R : Expr → Expr → Prop}
    (hR : ∀ {e new}, R e new → e.Anchored U true → new.Anchored U true) :
    Expr.TargetRules R fun e new => e.SafeTarget U → new.SafeTarget U := by
  have hbase : ∀ {value value' : Expr}, value' = value ∨ value.name? = none ∧ R value value' →
      value.SafeBase U → value'.SafeBase U := by
    rintro ⟨pos, kind⟩ value' (rfl | ⟨hname, h⟩) hb
    · exact hb
    have hanchored : value'.Anchored U true := by
      cases kind with
      | name => cases hname
      | _ => exact hR h hb
    unfold Expr.SafeBase
    split
    · trivial
    · exact hanchored
  refine ⟨id, fun h => .of_forall₂ id h, fun h => .of_forall₂ id h, id, hbase, fun h _ => hbase h,
    fun {e _} he _ hs => ?_⟩
  obtain ⟨pos, kind⟩ := e
  cases kind with
  | name | tuple | list | starred | attr | subscript => cases he
  | _ => simp [Expr.SafeTarget] at hs

theorem Stmt.Rebuilds.settled {R : Expr → Expr → Prop} {B : List Stmt → List Stmt → Prop} {new}
    (hR : ∀ {e new}, R e new → e.staysOpen c.catalog = true → new.staysOpen c.catalog = true)
    (hT : ∀ {e new}, T e new → (e.SafeTarget U → new.SafeTarget U) ∧ ∀ id, new.name? = some id → e.name? = some id)
    (hB : ∀ {ts us}, B ts us → Stmt.SettledList c strict U ts → Stmt.SettledList c strict U us)
    (h : t.Rebuilds R T B new) (ht : t.Settled c strict U) : new.Settled c strict U := by
  have hsafe : ∀ {es news}, Forall₂ T es news → Expr.SafeTargets U es → Expr.SafeTargets U news :=
    Expr.SafeTargets.of_forall₂ fun h => (hT h).1
  cases h with
  | same => exact ht
  | header h =>
    cases h with
    | function _ hparams =>
      rw [Stmt.Settled, FunctionDef.Steady] at ht ⊢
      rw [hparams.names]
      exact ht
    | classDef =>
      rw [Stmt.Settled] at ht ⊢
      exact ht
  | delete h =>
    rw [Stmt.Settled] at ht ⊢
    exact fun hstrict => hsafe h (ht hstrict)
  | assign htargets hvalue =>
    rw [Stmt.Settled] at ht ⊢
    refine fun hstrict =>
      ⟨hsafe htargets (ht hstrict).1, (ht hstrict).2.imp (hR hvalue) fun hU target htarget id hid => ?_⟩
    obtain ⟨old, hold, htarget⟩ := exists_of_forall₂ htargets htarget
    exact hU old hold id ((hT htarget).2 id hid)
  | augAssign htarget =>
    rw [Stmt.Settled] at ht ⊢
    exact fun hstrict => (hT htarget).1 (ht hstrict)
  | forLoop htarget _ hbody horelse =>
    rw [Stmt.Settled] at ht ⊢
    refine ⟨fun hstrict => ⟨(hT htarget).1 (ht.1 hstrict).1, fun id hid => ?_⟩, hB hbody ht.2.1, hB horelse ht.2.2⟩
    exact (ht.1 hstrict).2 id ((hT htarget).2 id hid)
  | whileLoop _ hbody horelse | cond _ hbody horelse =>
    rw [Stmt.Settled] at ht ⊢
    exact ⟨hB hbody ht.1, hB horelse ht.2⟩
  | withBlock hitems hbody =>
    rw [Stmt.Settled] at ht ⊢
    refine ⟨fun hstrict => hsafe ?_ (ht.1 hstrict), hB hbody ht.2⟩
    rw [filterMap_eq_flatMap_toList, filterMap_eq_flatMap_toList]
    exact rel_flatMap hitems fun _ _ h => forall₂_toList h.target
  | tryBlock hbody hhandlers horelse hfinal =>
    rw [Stmt.Settled, Handler.settledList_iff] at ht ⊢
    refine ⟨⟨hB hbody ht.1.1, fun handler hhandler => ?_⟩, hB horelse ht.2.1, hB hfinal ht.2.2⟩
    obtain ⟨old, hold, hrebuilt⟩ := exists_of_forall₂ hhandlers hhandler
    exact hB hrebuilt.body (ht.1.2 old hold)
  | ret | raise | expr =>
    rw [Stmt.Settled]
    all_goals simp

/-! ### Placeholders

Substituting literals for names of `U` leaves everything settled. -/

section Substitution

variable {table : List (Ident × Expr)} (ht : ∀ p ∈ table, U p.1 ∧ ∃ v, p.2.kind = .const v)

include ht

theorem replacement_eq (id : Ident) :
    replacement table id = .name id ∨ U id ∧ ∃ v, replacement table id = .const v := by
  unfold replacement
  split
  · rename_i e he
    obtain ⟨l1, l2, rfl, _⟩ := lookup_eq_some_iff.mp he
    exact .inr (ht (id, e) (by simp))
  · exact .inl rfl

theorem Expr.anchored_substitute :
    (e : Expr) → {display : Bool} → e.Anchored U display → (e.substitute table).Anchored U display
  | ⟨_, .name id⟩, _, h => by
    rw [Expr.Anchored] at h
    rw [Expr.substitute, ExprKind.substitute]
    rcases replacement_eq ht id with hr | ⟨hU, _⟩
    · rw [hr, Expr.Anchored]
      exact h
    · exact (h hU).elim
  | ⟨_, .list _⟩, _, h | ⟨_, .dict _ _⟩, _, h => by
    rw [Expr.Anchored] at h
    rw [Expr.substitute, ExprKind.substitute, Expr.Anchored]
    exact h
  | ⟨_, .attr value _⟩, _, h | ⟨_, .starred value⟩, _, h | ⟨_, .subscript value _⟩, _, h => by
    rw [Expr.Anchored] at h
    rw [Expr.substitute, ExprKind.substitute, Expr.Anchored]
    exact Expr.anchored_substitute value h
  | ⟨_, .call ⟨_, .attr value _⟩ _ _⟩, _, h => by
    rw [Expr.Anchored] at h
    rw [Expr.substitute, ExprKind.substitute, Expr.substitute, ExprKind.substitute, Expr.Anchored]
    exact Expr.anchored_substitute value h

theorem Expr.safeTarget_substitute (e : Expr) : e.SafeTarget U → (e.substituteTarget table).SafeTarget U :=
  (Expr.safeTarget_rules (R := fun e new => e.Anchored U true → new.Anchored U true) fun h => h).substituted
    (fun _ => Expr.anchored_substitute ht _) e

omit ht in
theorem Expr.name?_substituteTarget {id} (h : (e.substituteTarget table).name? = some id) : e.name? = some id := by
  obtain ⟨pos, kind⟩ := e
  cases kind <;> simp_all [Expr.substituteTarget, Expr.name?, Expr.substitute, ExprKind.substitute]

theorem Expr.staysOpen_substitute {catalog} (h : e.staysOpen catalog = true) :
    (e.substitute table).staysOpen catalog = true := by
  obtain ⟨pos, kind⟩ := e
  cases kind with
  | const | name | binOp | unaryOp | tuple | compare | subscript => simp [Expr.staysOpen] at h
  | call func args keywords =>
    simp only [Expr.staysOpen, Bool.and_eq_true] at h
    simp only [Expr.substitute, ExprKind.substitute, Expr.staysOpen, Bool.and_eq_true]
    obtain ⟨fpos, fkind⟩ := func
    cases fkind with
    | name id =>
      rcases replacement_eq ht id with hr | ⟨_, v, hr⟩
      · simp only [Expr.substitute, ExprKind.substitute, hr]
        exact h
      · simp [Expr.substitute, ExprKind.substitute, hr, Expr.isAttr, Expr.name?]
    | attr => simp [Expr.isAttr] at h
    | _ => simp [Expr.substitute, ExprKind.substitute, Expr.isAttr, Expr.name?]
  | _ => simp [Expr.substitute, ExprKind.substitute, Expr.staysOpen]

theorem Stmt.settled_substitute (t : Stmt) (hsettled : t.Settled c strict U) :
    (t.substitute table).Settled c strict U := by
  induction t using Stmt.induction_bodies with
  | _ t ih =>
    refine Stmt.Rebuilds.settled (fun h => h) (fun h => h) (fun h => h) (Stmt.rebuilds_substitute
      (fun e => Expr.staysOpen_substitute ht) (fun e => ⟨Expr.safeTarget_substitute ht e,
      fun id => Expr.name?_substituteTarget⟩) fun ts hts hsettled => ?_) hsettled
    rw [Stmt.substituteList_eq_map, Stmt.settledList_iff, forall_mem_map]
    exact fun s hs => ih ts hts s hs (Stmt.settledList_iff.mp hsettled s hs)

theorem Stmt.settledList_substitute (ts : List Stmt) (hsettled : Stmt.SettledList c strict U ts) :
    Stmt.SettledList c strict U (Stmt.substituteList table ts) := by
  rw [Stmt.substituteList_eq_map, Stmt.settledList_iff, forall_mem_map]
  exact fun s hs => Stmt.settled_substitute ht s (Stmt.settledList_iff.mp hsettled s hs)

end Substitution

end Speculator
