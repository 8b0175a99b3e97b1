import Speculator.Proofs.Temporaries
import Speculator.Proofs.Tracing

/-!
# What persists of the names of a scope

Visits make no new declarations and, whatever the stage, keep the marks of a body as far as names are concerned.
-/

namespace Speculator

open List Visit

variable {t : Stmt} {v : Visitor}

/-! ### Declared names -/

/-- The names that a node itself declares, or that are declared in the scope that it opens. -/
def Node.declared (own : Bool) (node : Node) : List Ident :=
  if own then node.globals ++ node.nonlocals else node.nestedDeclarations

/-- The names that statements declare, or only those that they declare in nested scopes. -/
def Stmt.declared (own : Bool) (ts : List Stmt) : List Ident :=
  (Stmt.nodesList (if own then Node.everywhere else Node.inScope) ts).flatMap (Node.declared own)

namespace Stmt

variable {own : Bool} {name : Ident} {ts : List Stmt} {node : Node}

theorem mem_declared_iff : name ∈ declared own ts ↔ ∃ t ∈ ts, name ∈ declared own [t] := by
  simp only [declared, nodesList_eq_flatMap, flatMap_assoc, mem_flatMap, mem_singleton, exists_eq_left]

/-- Only statements declare names, and what is inside of a scope is told by the statement that opens it. -/
theorem mem_declared_one : name ∈ declared own [t] ↔ name ∈ (Node.stmt t).declared own ∨
    (own = true ∨ t.isScope = false) ∧ ∃ body ∈ t.bodies, name ∈ declared own body := by
  have hhandler : ∀ h, (if own then Node.everywhere else Node.inScope) (.handler h) = true := by
    cases own <;> exact fun _ => rfl
  have henters : (if own then Node.everywhere else Node.inScope) (.stmt t) = true ↔ own =
      true ∨ t.isScope = false := by
    cases own <;> simp [Node.everywhere, Node.inScope, Node.isScope]
  simp only [declared, nodesList_eq_flatMap, mem_flatMap, mem_singleton, exists_eq_left,
    mem_nodes_iff (t := t) hhandler,
    henters]
  constructor
  · rintro ⟨node, rfl | ⟨hgo, ⟨h, _, rfl⟩ | ⟨e, _, hnode⟩ | ⟨body, hbody, s, hs, hnode⟩⟩, hname⟩
    · exact .inl hname
    · cases own <;> cases hname
    · have hexpr := e.isExpr_nodes node hnode
      cases node <;> cases own <;> cases hexpr <;> cases hname
    · exact .inr ⟨hgo, body, hbody, node, ⟨s, hs, hnode⟩, hname⟩
  · rintro (hname | ⟨hgo, body, hbody, node, ⟨s, hs, hnode⟩, hname⟩)
    · exact ⟨_, .inl rfl, hname⟩
    · exact ⟨node, .inr ⟨hgo, .inr (.inr ⟨body, hbody, s, hs, hnode⟩)⟩, hname⟩

theorem isScope_eq_isSome (t : Stmt) : t.isScope = t.definition?.isSome := by
  obtain ⟨pos, kind⟩ := t
  cases kind <;> rfl

theorem mem_declared_definition (ht : t.isScope = true) :
    name ∈ declared own [t] ↔ name ∈ declared true t.inside := by
  rw [mem_declared_one, ht]
  obtain ⟨pos, kind⟩ := t
  cases kind with
  | functionDef | classDef =>
    cases own with
    | true => simp [Node.declared, Node.globals, Node.nonlocals, bodies, inside]
    | false => simp [Node.declared, Node.nestedDeclarations, declaredNames, declared, inside]
  | _ => cases ht

theorem mem_declared_of_body (ht : t.isScope = false) {body} (hbody : body ∈ t.bodies)
    (hname : name ∈ declared own body) : name ∈ declared own [t] :=
  mem_declared_one.mpr (.inr ⟨.inr ht, body, hbody, hname⟩)

theorem mem_marks_iff {m} : m ∈ marks ts ↔ ∃ t ∈ ts, ∃ node ∈ t.nodes Node.inScope, m ∈ node.marks := by
  simp only [marks, nodesList_eq_flatMap, flatMap_assoc, mem_flatMap]

theorem mem_marks_of_body (ht : t.isScope = false) {body} (hbody : body ∈ t.bodies) {m} (hm : m ∈ marks body) :
    m ∈ marks [t] := by
  obtain ⟨s, hs, node, hnode, hm⟩ := mem_marks_iff.mp hm
  refine mem_marks_iff.mpr ⟨t, mem_singleton_self t, node, ?_, hm⟩
  refine (mem_nodes_iff Node.inScope_handler).mpr (.inr ⟨?_, .inr (.inr ⟨body, hbody, s, hs, hnode⟩)⟩)
  simp [Node.inScope, Node.isScope, ht]

/-- What statements declare they declare in their own scope or in nested ones. -/
def Splits (ts : List Stmt) : Prop :=
  ∀ name ∈ declared true ts, (.global name ∈ marks ts ∨ .nonlocal name ∈ marks ts) ∨ name ∈ declared false ts

theorem Splits.of_each (h : ∀ t ∈ ts, Splits [t]) : Splits ts := by
  intro name hname
  obtain ⟨t, ht, hname⟩ := mem_declared_iff.mp hname
  have hmarks : ∀ {m}, m ∈ marks [t] → m ∈ marks ts := fun hm => by
    obtain ⟨s, hs, hnode⟩ := mem_marks_iff.mp hm
    exact mem_marks_iff.mpr ⟨s, mem_singleton.mp hs ▸ ht, hnode⟩
  exact (h t ht name hname).imp (Or.imp hmarks hmarks) fun hnested => mem_declared_iff.mpr ⟨t, ht, hnested⟩

theorem splits (ts : List Stmt) : Splits ts := by
  refine .of_each fun t ht => ?_
  clear ht
  induction t using Stmt.induction_bodies with
  | _ t ih =>
    intro name hname
    cases ht : t.isScope with
    | true => exact .inr ((mem_declared_definition ht).mpr ((mem_declared_definition ht).mp hname))
    | false =>
      rcases mem_declared_one.mp hname with hname | ⟨_, body, hbody, hname⟩
      · rw [marks_of_not_scope ht]
        exact .inl ((mem_append.mp hname).imp (fun h => mem_append_left _ (by simp [Node.marks, h])) fun h =>
          mem_append_left _ (by simp [Node.marks, h]))
      · have hup : ∀ {m}, m ∈ marks body → m ∈ marks [t] := mem_marks_of_body ht hbody
        exact (Splits.of_each (ih body hbody) name hname).imp (Or.imp hup hup) (mem_declared_of_body ht hbody)

end Stmt

/-! ### No new declarations -/

/-- The new statements declare no names that the old ones do not declare, in nested scopes or at all. -/
def Stmt.Covers (olds news : List Stmt) : Prop := ∀ own, Stmt.declared own news ⊆ Stmt.declared own olds

namespace Stmt.Covers

theorem block (ht : t.isScope = false) {block} (h : block ∈ t.blocks) : Covers [t] block :=
  fun _ _ hname => mem_declared_of_body ht (mem_bodies_of_block h).2 hname

theorem traces : Traces (fun _ _ => True) Covers where
  refl _ _ := Subset.refl _
  trans h h' own := Subset.trans (h' own) (h own)
  mono hsub h own name hname := by
    obtain ⟨t, ht, hname⟩ := mem_declared_iff.mp (h own hname)
    exact mem_declared_iff.mpr ⟨t, hsub ht, hname⟩
  each h own name hname := by
    obtain ⟨u, hu, hname⟩ := mem_declared_iff.mp hname
    exact h u hu own hname
  block ht h := block ht h
  of_blocks {ts new} hnew h own name hname := by
    obtain ⟨pos, kind⟩ := new
    rcases mem_declared_one.mp hname with hown | ⟨_, body, hbody, hname'⟩
    · cases kind with
      | functionDef | classDef | globals | nonlocals => cases hnew
      | _ => cases own <;> cases hown
    · cases kind with
      | functionDef | classDef => cases hnew
      | _ => exact h body hbody own hname'
  definition {old new} hold hnew own name hname := by
    have hscope : new.isScope = true := by rw [isScope_eq_isSome, hnew.definition, ← isScope_eq_isSome, hold]
    exact (mem_declared_definition hold).mpr (hnew.inside.2 true ((mem_declared_definition hscope).mp hname))
  insideRefl _ := trivial
  insideTrans _ _ := trivial
  insideSubstitute _ _ := trivial

end Stmt.Covers

/-- The names that statements declare global or nonlocal, in nested scopes or at all, are declared by the statements
that they take the place of. -/
theorem visitor_covers (n : Nat) (ctx : Context) (t : Stmt) (s : State) :
    Ensures ((visitor n).stmt t) (fun _ => True) (fun news _ => Stmt.Covers [t] news) ctx s :=
  Stmt.Covers.traces.visitor (fun _ _ _ _ => Visitor.ensures_any) n ctx t s

theorem visitor_covers_inside (n : Nat) (ctx : Context) (t : Stmt) (s : State) :
    Ensures ((visitor n).stmtInside t) (fun _ => True)
      (fun r _ => Stmt.Covers [t] (r.elim (fun new => [new]) id)) ctx s := by
  have hcovers := Stmt.Covers.traces
  cases ht : t.isScope with
  | false =>
    rw [Visitor.stmtInside_of_not_scope _ ht]
    exact (hcovers.rebuilding.stmtChildren ⟨fun e s => Visitor.ensures_any, fun e s => Visitor.ensures_any⟩
      (visitor_covers n ctx) t).bind fun new s1 h => .pure h
  | true =>
    refine (Expr.congruence_any.stmtInside trivial (fun ts => ⟨trivial, hcovers.refl ts⟩)
      (fun h h' => ⟨trivial, hcovers.trans h.2 h'.2⟩) (fun ctx s ts _ => hcovers.ensures_inside
        (fun _ _ _ _ => Visitor.ensures_any) (visitor_covers n) ctx s ts) ht).imp fun r s' h => ?_
    cases r with
    | inl new => exact hcovers.of_redefines h.1.2
    | inr ts => exact hcovers.of_redefines h.1

/-! ### The names of a scope -/

open Specialize (IsTemporary)

namespace Scope.Extends

variable {s s' : State}

theorem of_temporary (scope : Scope) {name} (h : IsTemporary name) :
    scope.Extends IsTemporary { scope with vars := { scope.vars with locals := name :: scope.vars.locals } } := by
  refine ⟨rfl, rfl, rfl, rfl, subset_cons_self _ _, fun id hid => ?_⟩
  rcases mem_cons.mp hid with rfl | hid
  · exact .inr h
  · exact .inl hid

theorem ensures_specialize {scope slow fast ctx} :
    Ensures (Specialize.specialize scope slow fast) (fun _ => True)
      (fun _ s' => s.scope.Extends IsTemporary s'.scope) ctx s :=
  Specialize.ensures_definitions fun _ => of_temporary _ (Specialize.isTemporary_freshText _)

end Scope.Extends

namespace Mark.Balanced

variable {s s' : State} {ctx : Context} {pos : Position}

theorem ensures_specialize {name slow fast scope} (hslow : slow.name = name) (hfast : fast.name = name) :
    Ensures (Specialize.specialize scope ⟨pos, .functionDef slow⟩ fast) (fun _ => True)
      (fun ts s' => Balanced IsTemporary s [.binding name] (Stmt.marks ts) s') ctx s := by
  have htemporary := Specialize.isTemporary_freshText s.scope.vars.locals
  refine Specialize.ensures_definitions fun log =>
    ⟨.of_temporary _ htemporary, fun _ m hm => ?_, fun _ m hm hdeclares => ?_,
    fun _ _ id _ hpos => ⟨hpos, Nat.add_le_add_left ?_ _⟩⟩
  · rcases (Specialize.mem_marks_definitions m).mp hm with rfl | rfl | rfl
    · exact .inl (by rw [hslow]; exact mem_singleton.mpr rfl)
    · exact .inl (by rw [hfast]; exact mem_singleton.mpr rfl)
    · exact .inr ⟨_, rfl, htemporary⟩
  · rw [mem_singleton.mp hm] at hdeclares
    cases hdeclares
  · by_cases hid : id = name
    · rw [hid, count_singleton_self]
      exact count_pos_iff.mpr ((Specialize.mem_marks_definitions _).mpr (.inl (by rw [hslow])))
    · rw [count_eq_zero_of_not_mem (by simpa using hid)]
      exact Nat.zero_le _

theorem ensures_function {fn} : Ensures (v.function ⟨pos, .functionDef fn⟩ fn) (fun _ => True)
      (fun r s' =>
        Visitor.Gives (fun news => Balanced IsTemporary s [.binding fn.name] (Stmt.marks news) s') r) ctx s := by
  have hone : ∀ {version : FunctionDef} {s'}, version.name = fn.name → s'.scope = s.scope →
      Balanced IsTemporary s [.binding fn.name] (Stmt.marks [⟨pos, .functionDef version⟩]) s' := by
    intro version s' hname hscope
    rw [Stmt.marks_functionDef, hname]
    exact .of_scope (by rw [hscope]) (by rw [hscope]) _
  refine Visitor.ensures_function_of_stages (I := fun version _ s' => version.name = fn.name ∧ s'.scope = s.scope) ?_
    (fun _ _ => ⟨rfl, rfl⟩) (fun stage allowGuards h => ?_) ?_ fun hslow hfast => ?_
  · rintro _ ⟨log, rfl⟩
    exact ⟨rfl, hone rfl rfl⟩
  · refine (Visitor.ensures_version (P := fun _ _ => True) fun vars => Visitor.ensures_any).imp fun r s' hr => ?_
    obtain ⟨body, _, heq⟩ := hr.1
    exact ⟨by rw [heq, ← h.1], hr.2.trans h.2⟩
  · rintro version scope s' _ h ⟨log, rfl⟩
    exact ⟨rfl, hone h.1 h.2⟩
  · refine (ensures_specialize hslow.1 hfast.1).imp fun ts s'' h => ?_
    exact (of_scope (by rw [hfast.2]) (by rw [hfast.2]) _).trans h

theorem ensures_classBody {cls} : Ensures (v.classBody ⟨pos, .classDef cls⟩ cls) (fun _ => True)
      (fun new s' => new.isScope = true ∧
        Balanced IsTemporary s [.binding cls.name] (Stmt.marks [new]) s') ctx s := by
  refine Visitor.ensures_classBody (fun s' hs' => ?_) fun vars => Visitor.ensures_any.imp fun body s' _ => ⟨rfl, ?_⟩
  · obtain ⟨log, rfl⟩ := hs'
    exact ⟨rfl, .of_scope (by rfl) (by rfl) [.binding cls.name]⟩
  · exact .of_scope (by rfl) (by rfl) [.binding cls.name]

end Mark.Balanced

/-- There are new places only for temporary variables, which are local ones from then on, and a local variable of a
function keeps a place. -/
theorem visitor_balanced (n : Nat) (ctx : Context) (t : Stmt) (s : State) :
    Ensures ((visitor n).stmt t) (fun _ => True) ((Mark.correspondence IsTemporary).stmts s [t]) ctx s := by
  induction n generalizing t s ctx with
  | zero => exact trivial
  | succ n ih =>
    cases ht : t.isScope with
    | false =>
      exact Mark.Balanced.visitStmt (Mark.exprs_correspondence n ctx) (ih ctx) (Mark.passes_correspondence ctx)
        (fun _ _ _ _ => trivial) ht
    | true =>
      refine Mark.ensures_definition (visitor_steady n) ht fun new s hscope => ?_
      refine Visitor.ensures_stmtInside hscope ⟨hscope, .refl _ _⟩ (fun _ heq => ?_) fun _ heq => ?_
      · subst heq
        exact Mark.Balanced.ensures_function
      · subst heq
        exact Mark.Balanced.ensures_classBody

end Speculator
