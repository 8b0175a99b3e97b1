import Speculator.Proofs.Classification

/-!
# Binding sites

The places of a body that bind names, said without the walk of the analysis: the statements of the scope are those of
the body and of its blocks (`Stmt.ownList`); each of them binds the names that its targets are made of, the names of
definitions, imports and handlers, and nothing else.  The analysis of a body finds exactly these places
(`Variables.ofBody_exact`).
-/

namespace Speculator

open List Node

mutual

/-- What a target is made of, through tuples, lists and stars. -/
def Expr.leaves : Expr → List Expr
  | ⟨_, .tuple items⟩ | ⟨_, .list items⟩ => Expr.leavesList items
  | ⟨_, .starred value⟩ => value.leaves
  | e => [e]

def Expr.leavesList : List Expr → List Expr
  | [] => []
  | e :: es => e.leaves ++ Expr.leavesList es

end

/-- Where a chain of attributes, items, stars and method calls starts. -/
def Expr.base : Expr → Expr
  | ⟨_, .attr value _⟩ | ⟨_, .subscript value _⟩ | ⟨_, .starred value⟩ => value.base
  | ⟨_, .call ⟨_, .attr value _⟩ _ _⟩ => value.base
  | e => e

/-- Whether storing into an object that is reached from the expression only reads names. -/
def ExprKind.isOrigin : ExprKind → Bool
  | .name _ | .list _ | .dict _ _ => true
  | _ => false

/-- A name, or an attribute or item of an object that is reached from a name, a list or a dictionary. -/
def Expr.isPlace (leaf : Expr) : Bool :=
  match leaf.kind with
  | .name _ => true
  | .attr value _ | .subscript value _ => value.base.kind.isOrigin
  | _ => false

def Expr.Decomposes (target : Expr) : Prop := ∀ leaf ∈ target.leaves, leaf.isPlace = true

instance (target : Expr) : Decidable target.Decomposes :=
  inferInstanceAs (Decidable (∀ leaf ∈ target.leaves, leaf.isPlace = true))

/-! ### Statements -/

mutual

def Stmt.own : Stmt → List Stmt
  | ⟨pos, kind⟩ => ⟨pos, kind⟩ :: kind.own

def StmtKind.own : StmtKind → List Stmt
  | .forLoop _ _ body orelse _ | .whileLoop _ body orelse | .cond _ body orelse =>
    Stmt.ownList body ++ Stmt.ownList orelse
  | .withBlock _ body _ => Stmt.ownList body
  | .tryBlock body handlers orelse final =>
    Stmt.ownList body ++ Handler.ownList handlers ++ Stmt.ownList orelse ++ Stmt.ownList final
  | _ => []

def Stmt.ownList : List Stmt → List Stmt
  | [] => []
  | t :: ts => t.own ++ Stmt.ownList ts

def Handler.ownList : List Handler → List Stmt
  | [] => []
  | ⟨_, _, _, body⟩ :: hs => Stmt.ownList body ++ Handler.ownList hs

end

/-- The statements of a body and of everything nested in it. -/
inductive Stmt.Inside : List Stmt → Stmt → Prop
  | here {ts t} (ht : t ∈ ts) : Inside ts t
  | nested {ts body t u} (ht : t ∈ ts) (hbody : body ∈ t.bodies) (hu : Inside body u) : Inside ts u

namespace Stmt

def targets (t : Stmt) : List Expr :=
  match t.kind with
  | .assign targets _ | .delete targets => targets
  | .augAssign target _ _ | .forLoop target _ _ _ _ => [target]
  | .withBlock items _ _ => items.filterMap WithItem.target
  | _ => []

def introduced (t : Stmt) : List Ident :=
  match t.kind with
  | .functionDef fn => [fn.name]
  | .classDef cls => [cls.name]
  | .importModules names | .importFrom _ names _ => (names.filter fun a => !a.isStar).map Alias.binding
  | .tryBlock _ handlers _ _ => handlers.filterMap Handler.name
  | _ => []

/-- One name for each place of the statement that binds it. -/
def sites (t : Stmt) : List Ident := t.targets.flatMap (fun e => e.leaves.filterMap Expr.name?) ++ t.introduced

def declarations (t : Stmt) : List Ident :=
  match t.kind with
  | .globals names | .nonlocals names => names
  | _ => []

def scopeBody? (t : Stmt) : Option (List Stmt) :=
  match t.kind with
  | .functionDef fn => some fn.body
  | .classDef cls => some cls.body
  | _ => none

end Stmt

/-! ### The analysis of targets -/

theorem Expr.isReference_eq (e : Expr) : e.isReference = e.base.kind.isOrigin := by
  fun_induction Expr.isReference e with
  | case8 e =>
    obtain ⟨pos, kind⟩ := e
    cases kind <;> simp_all [Expr.base, ExprKind.isOrigin]
  | _ => simp_all [Expr.base, ExprKind.isOrigin]

variable {names : List Ident} {ts : List Stmt}

theorem storeBindings_eq_ok {target object} :
    storeBindings target object = .ok names ↔ object.base.kind.isOrigin = true ∧ [] = names := by
  rw [storeBindings, Expr.isReference_eq]
  split <;> simp_all

mutual

theorem Expr.targetBindings_eq_ok : (e : Expr) → {names : List Ident} → (e.targetBindings = .ok names ↔
    e.Decomposes ∧ e.leaves.filterMap Expr.name? = names)
  | ⟨_, kind⟩, names => by
    cases kind with
    | tuple items | list items =>
      rw [Expr.targetBindings, Expr.Decomposes, Expr.leaves]
      exact Expr.targetsBindings_eq_ok items
    | starred value =>
      rw [Expr.targetBindings, Expr.Decomposes, Expr.leaves]
      exact Expr.targetBindings_eq_ok value
    | attr value _ | subscript value _ =>
      simp [Expr.targetBindings, Expr.Decomposes, Expr.leaves, storeBindings_eq_ok, Expr.isPlace, Expr.name?,
        filterMap_cons]
    | _ => simp [Expr.targetBindings, Expr.Decomposes, Expr.leaves, Expr.isPlace, Expr.name?, filterMap_cons]

theorem Expr.targetsBindings_eq_ok : (es : List Expr) → {names : List Ident} → (Expr.targetsBindings es = .ok names ↔
    (∀ leaf ∈ Expr.leavesList es, leaf.isPlace = true) ∧ (Expr.leavesList es).filterMap Expr.name? = names)
  | [], names => by simp [Expr.targetsBindings, Expr.leavesList]
  | e :: es, names => by
    rw [Expr.targetsBindings, Expr.leavesList, forall_mem_append, filterMap_append]
    constructor
    · intro h
      obtain ⟨first, hfirst, h⟩ := bind_eq_ok h
      obtain ⟨rest, hrest, h⟩ := bind_eq_ok h
      obtain ⟨he, rfl⟩ := (Expr.targetBindings_eq_ok e).mp hfirst
      obtain ⟨hes, rfl⟩ := (Expr.targetsBindings_eq_ok es).mp hrest
      exact ⟨⟨he, hes⟩, Except.ok.inj h⟩
    · rintro ⟨⟨he, hes⟩, rfl⟩
      rw [(Expr.targetBindings_eq_ok e).mpr ⟨he, rfl⟩, (Expr.targetsBindings_eq_ok es).mpr ⟨hes, rfl⟩]
      rfl

end

theorem Expr.leavesList_eq_flatMap (es : List Expr) : Expr.leavesList es = es.flatMap Expr.leaves := by
  induction es with
  | nil => rfl
  | cons e es ih => rw [Expr.leavesList, ih, flatMap_cons]

/-! ### The statements of a scope -/

theorem Stmt.ownList_eq_flatMap (ts : List Stmt) : Stmt.ownList ts = ts.flatMap Stmt.own := by
  induction ts with
  | nil => rfl
  | cons t ts ih => rw [Stmt.ownList, ih, flatMap_cons]

theorem Stmt.own_eq_blocks (t : Stmt) : t.own = t :: t.blocks.flatMap Stmt.ownList := by
  have hhandlers : ∀ hs : List Handler, Handler.ownList hs = (hs.map Handler.body).flatMap Stmt.ownList := by
    intro hs
    induction hs with
    | nil => rfl
    | cons h hs ih =>
      obtain ⟨pos, type, name, body⟩ := h
      rw [Handler.ownList, ih, map_cons, flatMap_cons]
  obtain ⟨pos, kind⟩ := t
  cases kind <;> simp [Stmt.own, StmtKind.own, Stmt.blocks, hhandlers]

theorem Node.flatMap_of_isExpr {α : Type} {f : Node → List α} (hf : ∀ e, f (.expr e) = []) {nodes : List Node}
    (h : ∀ node ∈ nodes, node.isExpr = true) : nodes.flatMap f = [] := by
  refine flatMap_eq_nil_iff.mpr fun node hnode => ?_
  cases node with
  | expr e => exact hf e
  | stmt | handler => cases h _ hnode

section Told

variable {α : Type} {f : Node → List α} (hf : ∀ e, f (.expr e) = [])
include hf

/-- What is told of the nodes of a scope other than expressions is told of its statements and their handlers. -/
theorem Stmt.flatMap_nodes_perm (t : Stmt) : ((t.nodes Node.inScope).flatMap f).Perm
    (t.own.flatMap fun u => f (.stmt u) ++ u.handlers.flatMap fun h => f (.handler h)) := by
  induction t using Stmt.induction_bodies with
  | _ t ih =>
    cases hscope : t.isScope with
    | true =>
      obtain ⟨pos, kind⟩ := t
      cases kind with
      | functionDef | classDef =>
        simp [Stmt.nodes, Node.inScope, Node.isScope, hscope, Stmt.own, StmtKind.own, Stmt.handlers]
      | _ => cases hscope
    | false =>
      have hnodes : t.nodes Node.inScope = .stmt t :: t.kind.nodes Node.inScope := by
        cases t
        simp [Stmt.nodes, Node.inScope, Node.isScope, hscope]
      have hblocks : t.bodies = t.blocks := by
        obtain ⟨pos, kind⟩ := t
        cases kind with
        | functionDef | classDef => cases hscope
        | _ => rfl
      rw [hnodes, Stmt.own_eq_blocks, flatMap_cons, flatMap_cons, append_assoc, ← hblocks]
      refine Perm.append_left _ (((t.nodes_perm Node.inScope_handler).flatMap_right f).trans ?_)
      rw [flatMap_append, flatMap_append, Node.flatMap_of_isExpr hf (Expr.isExpr_flatMap _), append_nil,
        flatMap_map, flatMap_assoc, flatMap_assoc]
      refine Perm.append_left _ (Perm.flatMap_left _ fun body hbody => ?_)
      rw [Stmt.nodesList_eq_flatMap, Stmt.ownList_eq_flatMap, flatMap_assoc, flatMap_assoc]
      exact Perm.flatMap_left _ fun s hs => ih body hbody s hs

theorem Stmt.flatMap_nodesList_perm (ts : List Stmt) : ((Stmt.nodesList inScope ts).flatMap f).Perm
    ((Stmt.ownList ts).flatMap fun u => f (.stmt u) ++ u.handlers.flatMap fun h => f (.handler h)) := by
  rw [Stmt.nodesList_eq_flatMap, Stmt.ownList_eq_flatMap, flatMap_assoc, flatMap_assoc]
  exact Perm.flatMap_left _ fun t _ => t.flatMap_nodes_perm hf

theorem Stmt.mem_flatMap_nodesList (hhandler : ∀ h, f (.handler h) = []) {ts} {a : α} :
    a ∈ (Stmt.nodesList inScope ts).flatMap f ↔ ∃ t ∈ Stmt.ownList ts, a ∈ f (.stmt t) := by
  simp [(Stmt.flatMap_nodesList_perm hf ts).mem_iff, hhandler]

end Told

theorem Stmt.inside_iff {u} : Stmt.Inside ts u ↔ .stmt u ∈ Stmt.nodesList everywhere ts := by
  rw [Stmt.nodesList_eq_flatMap, mem_flatMap]
  constructor
  · intro h
    induction h with
    | here ht => exact ⟨_, ht, (Stmt.mem_nodes_iff everywhere_handler).mpr (.inl rfl)⟩
    | nested ht hbody _ ih =>
      exact ⟨_, ht, (Stmt.mem_nodes_iff everywhere_handler).mpr (.inr ⟨rfl, .inr (.inr ⟨_, hbody, ih⟩)⟩)⟩
  · rintro ⟨t, ht, h⟩
    induction t using Stmt.induction_bodies generalizing ts with
    | _ t ih =>
      rcases (Stmt.mem_nodes_iff everywhere_handler).mp h with
        heq | ⟨_, ⟨_, _, heq⟩ | ⟨e, _, hnode⟩ | ⟨body, hbody, s, hs, hnode⟩⟩
      · cases heq
        exact .here ht
      · cases heq
      · cases e.isExpr_nodes _ hnode
      · exact .nested ht hbody (ih body hbody s hs hs hnode)

/-! ### The analysis of bodies -/

/-- The places of a node itself that bind names, if its targets are made of places. -/
def Node.sites : Node → List Ident
  | .handler h => h.name.toList
  | .expr _ => []
  | .stmt t => t.targets.flatMap (fun e => e.leaves.filterMap Expr.name?) ++
    match t.kind with
    | .tryBlock .. => []
    | _ => t.introduced

theorem Stmt.sites_eq (t : Stmt) :
    t.sites = (Node.stmt t).sites ++ t.handlers.flatMap fun h => (Node.handler h).sites := by
  obtain ⟨pos, kind⟩ := t
  cases kind <;> simp [Stmt.sites, Node.sites, Stmt.targets, Stmt.introduced, Stmt.handlers,
    filterMap_eq_flatMap_toList]

/-- The targets of a node are made of places. -/
def Node.Followed : Node → Prop
  | .stmt t => ∀ target ∈ t.targets, target.Decomposes
  | _ => True

theorem Expr.targetsBindings_eq_ok_iff {es : List Expr} : Expr.targetsBindings es = .ok names ↔
    (∀ e ∈ es, e.Decomposes) ∧ es.flatMap (fun e => e.leaves.filterMap Expr.name?) = names := by
  rw [Expr.targetsBindings_eq_ok, Expr.leavesList_eq_flatMap, forall_mem_flatMap, filterMap_flatMap]
  rfl

theorem Node.bindings_eq_ok {node : Node} : node.bindings = .ok names ↔ node.Followed ∧ node.sites = names := by
  cases node with
  | handler | expr => simp [bindings, Node.Followed, sites]
  | stmt t =>
    obtain ⟨pos, kind⟩ := t
    cases kind <;>
      simp [bindings, Node.Followed, sites, Stmt.targets, Stmt.introduced, Expr.targetsBindings_eq_ok_iff,
        Expr.targetBindings_eq_ok]

theorem Variables.ofBody_eq_ok {body params vars} :
    ofBody body params = .ok vars ↔ (∀ node ∈ Stmt.nodesList Node.inScope body, node.Followed) ∧
      { ofBindings (params ++ (Stmt.nodesList Node.inScope body).flatMap Node.sites)
          ((Stmt.nodesList Node.inScope body).flatMap Node.globals)
          ((Stmt.nodesList Node.inScope body).flatMap Node.nonlocals) with
        reboundByNested := (Stmt.nodesList Node.inScope body).flatMap Node.nestedDeclarations
        dynamic := (Stmt.nodesList Node.inScope body).any Node.importsAll ||
          (Stmt.nodesList Node.everywhere body).any Node.isAccessor } = vars := by
  have hsites : ∀ {nodes : List Node} {sites : List (List Ident)}, nodes.mapM Node.bindings = .ok sites ↔
      (∀ node ∈ nodes, node.Followed) ∧ nodes.map Node.sites = sites := by
    intro nodes sites
    rw [mapM_eq_ok]
    simp only [Node.bindings_eq_ok, forall₂_and_left]
    rw [← forall₂_map_left_iff (R := Eq), forall₂_eq_eq_eq]
  unfold ofBody
  constructor
  · intro h
    obtain ⟨sites, hmap, h⟩ := bind_eq_ok h
    obtain ⟨hall, rfl⟩ := hsites.mp hmap
    exact ⟨hall, Except.ok.inj h⟩
  · rintro ⟨hall, rfl⟩
    simp only [hsites.mpr ⟨hall, rfl⟩]
    rfl

theorem Stmt.forall_nodesList_followed : (∀ node ∈ Stmt.nodesList inScope ts, node.Followed) ↔
    ∀ t ∈ Stmt.ownList ts, ∀ target ∈ t.targets, target.Decomposes := by
  have hmem : ∀ t, .stmt t ∈ Stmt.nodesList inScope ts ↔ t ∈ Stmt.ownList ts := by
    intro t
    have h := @Stmt.mem_flatMap_nodesList _ (fun node => node.stmt?.toList) (fun _ => rfl) (fun _ => rfl) ts t
    have hstmt : ∀ node : Node, node.stmt? = some t ↔ node = .stmt t := by
      intro node
      cases node <;> simp [stmt?]
    simpa [hstmt] using h
  refine ⟨fun h t ht => h (.stmt t) ((hmem t).mpr ht), fun h node hnode => ?_⟩
  cases node with
  | stmt t => exact h t ((hmem t).mp hnode)
  | handler | expr => trivial

theorem Stmt.declarations_eq (t : Stmt) : t.declarations = (stmt t).globals ++ (stmt t).nonlocals := by
  obtain ⟨pos, kind⟩ := t
  cases kind <;> simp [Stmt.declarations, globals, nonlocals]

theorem Stmt.mem_declaredNames {name} : name ∈ declaredNames ts ↔ ∃ u, Stmt.Inside ts u ∧ name ∈ u.declarations := by
  rw [declaredNames, mem_flatMap]
  constructor
  · rintro ⟨node, hnode, hname⟩
    cases node with
    | stmt u =>
      exact ⟨u, Stmt.inside_iff.mpr hnode, u.declarations_eq ▸ hname⟩
    | handler | expr => cases hname
  · rintro ⟨u, hu, hname⟩
    exact ⟨_, Stmt.inside_iff.mp hu, u.declarations_eq ▸ hname⟩

theorem Stmt.mem_nestedDeclarations {t name} : name ∈ (stmt t).nestedDeclarations ↔
    ∃ inner, t.scopeBody? = some inner ∧ ∃ u, Stmt.Inside inner u ∧ name ∈ u.declarations := by
  simp only [← Stmt.mem_declaredNames]
  obtain ⟨pos, kind⟩ := t
  cases kind <;> simp [nestedDeclarations, Stmt.scopeBody?]

/-- The analysis of a body succeeds if and only if all targets of the scope are made of places.  Then the local
variables are the parameters and the names with a binding site that are not declared otherwise, each with the number
of its sites, and the names that nested definitions may bind are those that one of them declares, at any depth. -/
theorem Variables.ofBody_exact (body : List Stmt) (params : List Ident) :
    ((∃ vars, ofBody body params = .ok vars) ↔
      ∀ t ∈ Stmt.ownList body, ∀ target ∈ t.targets, target.Decomposes) ∧
    ∀ vars, ofBody body params = .ok vars →
      (∀ name, name ∈ vars.locals ↔ (name ∈ params ∨ ∃ t ∈ Stmt.ownList body, name ∈ t.sites) ∧
        ∀ t ∈ Stmt.ownList body, name ∉ t.declarations) ∧
      (∀ name, vars.bindingCount name = params.count name + ((Stmt.ownList body).flatMap Stmt.sites).count name) ∧
      ∀ name, name ∈ vars.reboundByNested ↔ ∃ t ∈ Stmt.ownList body, ∃ inner, t.scopeBody? = some inner ∧
        ∃ u, Stmt.Inside inner u ∧ name ∈ u.declarations := by
  have hsites : ((Stmt.nodesList Node.inScope body).flatMap Node.sites).Perm
      ((Stmt.ownList body).flatMap Stmt.sites) := by
    simpa only [← Stmt.sites_eq] using Stmt.flatMap_nodesList_perm (f := Node.sites) (fun _ => rfl) body
  refine ⟨?_, fun vars hvars => ?_⟩
  · simp only [ofBody_eq_ok, exists_and_left, exists_eq', and_true]
    exact Stmt.forall_nodesList_followed
  · obtain ⟨_, rfl⟩ := ofBody_eq_ok.mp hvars
    refine ⟨fun name => ?_, fun name => ?_, fun name => ?_⟩
    · simp only [ofBindings, List.mem_filter, List.mem_append, hsites.mem_iff,
        List.mem_flatMap (l := Stmt.ownList body)]
      refine and_congr_right fun _ => ?_
      have hglobals := @Stmt.mem_flatMap_nodesList _ Node.globals (fun _ => rfl) (fun _ => rfl) body name
      have hnonlocals := @Stmt.mem_flatMap_nodesList _ Node.nonlocals (fun _ => rfl) (fun _ => rfl) body name
      rw [Bool.and_eq_true, Bool.not_eq_true', Bool.not_eq_true', List.contains_eq_mem, List.contains_eq_mem,
        decide_eq_false_iff_not, decide_eq_false_iff_not, hglobals, hnonlocals]
      simp only [Stmt.declarations_eq, List.mem_append, not_or, not_exists, not_and, forall_and]
    · simp [bindingCount, ofBindings, hsites.count_eq]
    · rw [Stmt.mem_flatMap_nodesList (fun _ => rfl) fun _ => rfl]
      simp only [Stmt.mem_nestedDeclarations]

/-- In `a, *b = c` and `def f(): class C: nonlocal n`, after `global b`, a parameter `a` has two places, `b` is no
local variable, and `n` may be bound by the class. -/
theorem Variables.ofBody_exact_nested :
    let cls : ClassDef := ⟨"C", [], [], [⟨{}, .nonlocals ["n"]⟩], []⟩
    let fn : FunctionDef := ⟨"f", ⟨[], none, [], [], none, []⟩, [⟨{}, .classDef cls⟩], [], false⟩
    let target : Expr := ⟨{}, .tuple [⟨{}, .name "a"⟩, ⟨{}, .starred ⟨{}, .name "b"⟩⟩]⟩
    let body : List Stmt := [⟨{}, .globals ["b"]⟩, ⟨{}, .assign [target] ⟨{}, .name "c"⟩⟩, ⟨{}, .functionDef fn⟩]
    ∃ vars, ofBody body ["a"] = .ok vars ∧ vars.bindingCount "a" = 2 ∧ "b" ∉ vars.locals ∧
      "n" ∈ vars.reboundByNested := by
  intro cls fn target body
  obtain ⟨hok, h⟩ := ofBody_exact body ["a"]
  obtain ⟨vars, hvars⟩ := hok.mpr (by decide)
  obtain ⟨hlocals, hcount, hrebound⟩ := h vars hvars
  refine ⟨vars, hvars, (hcount "a").trans (by decide), mt (hlocals "b").mp (by decide), (hrebound "n").mpr ?_⟩
  exact ⟨⟨{}, .functionDef fn⟩, by simp [body, Stmt.ownList, Stmt.own], fn.body, rfl, ⟨{}, .nonlocals ["n"]⟩,
    .nested (List.mem_singleton_self _) (List.mem_singleton_self _) (.here (List.mem_singleton_self _)), by decide⟩

end Speculator
