import Speculator.Proofs.InlinedCalls
import Speculator.Proofs.Outcome.Modules
import Speculator.Proofs.Redefinition

/-!
# Well-formed modules

In a well-formed module no required block is empty, `break`, `continue`, `return` and imports from `__future__` only
stand where they may stand, and operators, keys and targets are there in the right number (`Module.isWellFormed`).
Statements are dropped, spliced, copied and inserted at every level.  So optimizing a well-formed module gives a
well-formed module (`optimize_wellFormed`).
-/

namespace Speculator

open List Visit

variable {around : Nesting} {t : Stmt} {ctx : Context} {s s' : State}

variable {fn : FunctionDef} {limits : Limits}

/-! ### Well-formed statements -/

def Shape.consistent : Shape where
  check kind :=
    match kind with
    | .compare _ ops comparators => !ops.isEmpty && ops.length == comparators.length
    | .dict keys values => keys.length == values.length
    | _ => true
  rebuilt h := by
    cases h with
    | compare _ h => simp only [h.length_eq]
    | dict hkeys hvalues => simp only [hkeys.length_eq, hvalues.length_eq]
    | _ => rfl
  negated _ := rfl
  const _ := rfl
  tuple _ := rfl
  list _ := rfl
  set _ := rfl
  dict h := by simpa using h

/-- What a statement stands in. -/
structure Nesting where
  inLoop : Bool
  inFunction : Bool

namespace Nesting

/-- The statements of a module stand in nothing. -/
def top : Nesting := ⟨false, false⟩

def function : Nesting := ⟨false, true⟩

def classBody (around : Nesting) : Nesting := { around with inLoop := false }

def loop (around : Nesting) : Nesting := { around with inLoop := true }

end Nesting

def Stmt.enablesFeatures (t : Stmt) : Bool :=
  match t.kind with
  | .importFrom module _ level => module == some "__future__" && level == 0
  | _ => false

mutual

/-- Whether a statement is well formed where it stands.  Imports from `__future__`, which only stand at the beginning
of a module, do not count here. -/
def Stmt.isWellFormed (around : Nesting) : Stmt → Bool
  | ⟨_, kind⟩ => kind.isWellFormed around

def StmtKind.isWellFormed (around : Nesting) : StmtKind → Bool
  | .functionDef ⟨_, params, body, decorators, _⟩ =>
    decide ((∀ e ∈ decorators, e.All .consistent) ∧ (∀ e ∈ params.parts, e.All .consistent) ∧ body ≠ [] ∧
      Stmt.areWellFormed .function body = true)
  | .classDef ⟨_, bases, keywords, body, decorators⟩ =>
    decide ((∀ e ∈ decorators, e.All .consistent) ∧ (∀ e ∈ bases, e.All .consistent) ∧
      (∀ k ∈ keywords, k.value.All .consistent) ∧ body ≠ [] ∧ Stmt.areWellFormed around.classBody body = true)
  | .ret value => decide ((∀ e ∈ value.toList, e.All .consistent) ∧ around.inFunction = true)
  | .delete targets => decide ((∀ e ∈ targets, e.All .consistent) ∧ targets ≠ [])
  | .assign targets value => decide ((∀ e ∈ targets, e.All .consistent) ∧ targets ≠ [] ∧ value.All .consistent)
  | .augAssign target _ value => decide (target.All .consistent ∧ value.All .consistent)
  | .forLoop target iter body orelse _ =>
    decide (target.All .consistent ∧ iter.All .consistent ∧ body ≠ [] ∧
      Stmt.areWellFormed around.loop body = true ∧ Stmt.areWellFormed around orelse = true)
  | .whileLoop test body orelse =>
    decide (test.All .consistent ∧ body ≠ [] ∧ Stmt.areWellFormed around.loop body = true ∧
      Stmt.areWellFormed around orelse = true)
  | .cond test body orelse =>
    decide (test.All .consistent ∧ body ≠ [] ∧ Stmt.areWellFormed around body = true ∧
      Stmt.areWellFormed around orelse = true)
  | .withBlock items body _ =>
    decide ((∀ item ∈ items, item.context.All .consistent ∧ ∀ e ∈ item.target.toList, e.All .consistent) ∧ body ≠ [] ∧
      Stmt.areWellFormed around body = true)
  | .raise exc cause => decide ((∀ e ∈ exc.toList, e.All .consistent) ∧ ∀ e ∈ cause.toList, e.All .consistent)
  | .tryBlock body handlers orelse final =>
    decide ((body ≠ [] ∧ (handlers ≠ [] ∨ final ≠ []) ∧ (orelse ≠ [] → handlers ≠ [])) ∧
      Stmt.areWellFormed around body = true ∧ Handler.areWellFormed around handlers = true ∧
      Stmt.areWellFormed around orelse = true ∧ Stmt.areWellFormed around final = true)
  | .importFrom module _ level => decide ¬ (module = some "__future__" ∧ level = 0)
  | .expr value => decide (value.All .consistent)
  | .brk | .cont => around.inLoop
  | .importModules _ | .globals _ | .nonlocals _ | .pass => true

def Stmt.areWellFormed (around : Nesting) : List Stmt → Bool
  | [] => true
  | t :: ts => t.isWellFormed around && Stmt.areWellFormed around ts

def Handler.areWellFormed (around : Nesting) : List Handler → Bool
  | [] => true
  | ⟨_, type, _, body⟩ :: hs =>
    decide ((∀ e ∈ type.toList, e.All .consistent) ∧ body ≠ [] ∧ Stmt.areWellFormed around body = true ∧
      Handler.areWellFormed around hs = true)

end

/-- Whether statements are well formed at the beginning of a module, after its documentation. -/
def Stmt.openWell (body : List Stmt) : Bool := Stmt.areWellFormed .top (body.dropWhile Stmt.enablesFeatures)

def Module.isWellFormed (m : Module) : Bool :=
  match m.body with
  | [] => true
  | t :: ts => Stmt.openWell (if t.isText then ts else t :: ts)

attribute [local simp] Stmt.blocks

section Lists

variable {ts us : List Stmt}

theorem Stmt.areWellFormed_iff : Stmt.areWellFormed around ts = true ↔ ∀ t ∈ ts, t.isWellFormed around = true := by
  induction ts with
  | nil => simp [Stmt.areWellFormed]
  | cons t ts ih => rw [Stmt.areWellFormed, Bool.and_eq_true, ih, forall_mem_cons]

theorem Stmt.areWellFormed_append : Stmt.areWellFormed around (ts ++ us) = true ↔
    Stmt.areWellFormed around ts = true ∧ Stmt.areWellFormed around us = true := by
  simp only [Stmt.areWellFormed_iff, forall_mem_append]

theorem Stmt.areWellFormed_single : Stmt.areWellFormed around [t] = true ↔ t.isWellFormed around = true := by
  rw [Stmt.areWellFormed_iff, forall_mem_singleton]

theorem Stmt.areWellFormed_of_subset (hsub : us ⊆ ts) (h : Stmt.areWellFormed around ts = true) :
    Stmt.areWellFormed around us = true :=
  Stmt.areWellFormed_iff.mpr fun t ht => Stmt.areWellFormed_iff.mp h t (hsub ht)

theorem Handler.areWellFormed_iff {hs} : Handler.areWellFormed around hs = true ↔ ∀ h ∈ hs,
    (∀ e ∈ h.type.toList, e.All .consistent) ∧ h.body ≠ [] ∧ Stmt.areWellFormed around h.body = true := by
  induction hs with
  | nil => simp [Handler.areWellFormed]
  | cons h hs ih =>
    obtain ⟨pos, type, name, body⟩ := h
    rw [Handler.areWellFormed, decide_eq_true_eq, ih, forall_mem_cons, and_assoc, and_assoc]

theorem Stmt.areWellFormed_block (h : t.isWellFormed around = true) (hts : ts ∈ t.blocks) :
    ∃ inner, Stmt.areWellFormed inner ts = true := by
  obtain ⟨pos, kind⟩ := t
  cases kind with
  | forLoop | whileLoop | cond | withBlock =>
    have hblocks := of_decide_eq_true h
    simp only [Stmt.blocks, mem_cons, not_mem_nil, or_false] at hts
    grind
  | tryBlock body handlers orelse final =>
    obtain ⟨_, hbody, hall, horelse, hfinal⟩ := of_decide_eq_true h
    simp only [Stmt.blocks, cons_append, mem_cons, mem_append, not_mem_nil, or_false] at hts
    rcases hts with rfl | hmem | rfl | rfl
    · exact ⟨around, hbody⟩
    · obtain ⟨handler, hhandler, rfl⟩ := mem_map.mp hmem
      exact ⟨around, (Handler.areWellFormed_iff.mp hall handler hhandler).2.2⟩
    · exact ⟨around, horelse⟩
    · exact ⟨around, hfinal⟩
  | _ => cases hts

theorem Stmt.isWellFormed_pass (pos : Position) : Stmt.isWellFormed around ⟨pos, .pass⟩ = true := rfl

end Lists

/-! ### Leaving a loop -/

section Outside

variable (inLoop : Bool)

theorem Stmt.isWellFormed_of_not_stops {t : Stmt} (hstops : ∀ node ∈ t.nodes Node.inScope, node.stopsLoop = false)
    (h : t.isWellFormed around = true) : t.isWellFormed { around with inLoop := inLoop } = true := by
  induction t using Stmt.induction_bodies with
  | _ t ih =>
    have hblock : ∀ ts ∈ t.blocks, Stmt.areWellFormed around ts = true →
        Stmt.areWellFormed { around with inLoop := inLoop } ts = true := by
      intro ts hts hall
      obtain ⟨hscope, hbody⟩ := Stmt.mem_bodies_of_block hts
      refine Stmt.areWellFormed_iff.mpr fun u hu => ih ts hbody u hu (fun node hnode => hstops node ?_)
        (Stmt.areWellFormed_iff.mp hall u hu)
      have henters : Node.inScope (.stmt t) = true := by simp [Node.inScope, Node.isScope, hscope]
      exact (Stmt.mem_nodes_iff Node.inScope_handler).mpr (.inr ⟨henters, .inr (.inr ⟨ts, hbody, u, hu, hnode⟩)⟩)
    obtain ⟨pos, kind⟩ := t
    cases kind with
    | forLoop =>
      obtain ⟨htarget, hiter, hne, hbody, horelse⟩ := of_decide_eq_true h
      exact decide_eq_true ⟨htarget, hiter, hne, hbody, hblock _ (by simp) horelse⟩
    | whileLoop =>
      obtain ⟨htest, hne, hbody, horelse⟩ := of_decide_eq_true h
      exact decide_eq_true ⟨htest, hne, hbody, hblock _ (by simp) horelse⟩
    | cond =>
      obtain ⟨htest, hne, hbody, horelse⟩ := of_decide_eq_true h
      exact decide_eq_true ⟨htest, hne, hblock _ (by simp) hbody,
        hblock _ (by simp) horelse⟩
    | withBlock =>
      obtain ⟨hitems, hne, hbody⟩ := of_decide_eq_true h
      exact decide_eq_true ⟨hitems, hne, hblock _ (by simp) hbody⟩
    | tryBlock =>
      obtain ⟨hblocks, hbody, hhandlers, horelse, hfinal⟩ := of_decide_eq_true h
      refine decide_eq_true ⟨hblocks, hblock _ (by simp) hbody, Handler.areWellFormed_iff.mpr ?_,
        hblock _ (by simp) horelse, hblock _ (by simp) hfinal⟩
      intro handler hhandler
      obtain ⟨htype, hne, hbody⟩ := Handler.areWellFormed_iff.mp hhandlers handler hhandler
      refine ⟨htype, hne, hblock _ ?_ hbody⟩
      exact mem_append_left _ (mem_cons_of_mem _ (mem_map_of_mem hhandler))
    | functionDef definition | classDef definition =>
      cases definition
      exact h
    | brk | cont => cases hstops _ mem_cons_self
    | _ => exact h

end Outside

/-! ### Other parts -/

namespace WellFormed

/-- The statements are well formed, and there are some if and only if there were some. -/
structure Keeps (around : Nesting) (ts us : List Stmt) : Prop where
  wellFormed : Stmt.areWellFormed around us = true
  nil_iff : us = [] ↔ ts = []

def Becomes (ts us : List Stmt) : Prop := ∀ around, Stmt.areWellFormed around ts = true → Keeps around ts us

theorem Becomes.refl (ts : List Stmt) : Becomes ts ts := fun _ h => ⟨h, Iff.rfl⟩

theorem Becomes.trans {ts us vs} (h : Becomes ts us) (h' : Becomes us vs) : Becomes ts vs := by
  intro around hts
  have hus := h around hts
  have hvs := h' around hus.wellFormed
  exact ⟨hvs.wellFormed, hvs.nil_iff.trans hus.nil_iff⟩

theorem Becomes.append {ts ts' us us'} (h : Becomes ts us) (h' : Becomes ts' us') :
    Becomes (ts ++ ts') (us ++ us') := by
  intro around hall
  obtain ⟨hts, hts'⟩ := Stmt.areWellFormed_append.mp hall
  have hus := h around hts
  have hus' := h' around hts'
  refine ⟨Stmt.areWellFormed_append.mpr ⟨hus.wellFormed, hus'.wellFormed⟩, ?_⟩
  rw [append_eq_nil_iff, append_eq_nil_iff, hus.nil_iff, hus'.nil_iff]

section Rebuilt

variable {R T : Expr → Expr → Prop} {new : Stmt} (hR : ∀ {e new}, R e new → e.All .consistent → new.All .consistent)
include hR

theorem areWellFormed_handlers {handlers news} (h : Forall₂ (Handler.Rebuilds R Becomes) handlers news)
    (hhandlers : Handler.areWellFormed around handlers = true) : Handler.areWellFormed around news = true := by
  refine Handler.areWellFormed_iff.mpr fun new hnew => ?_
  obtain ⟨old, hold, hrebuilt⟩ := exists_of_forall₂ h hnew
  obtain ⟨htype, hne, hbody⟩ := Handler.areWellFormed_iff.mp hhandlers old hold
  have hkeeps := hrebuilt.body around hbody
  exact ⟨Expr.all_of_forall₂ hR (forall₂_toList hrebuilt.type) htype, mt hkeeps.nil_iff.mp hne, hkeeps.wellFormed⟩

theorem isWellFormed_header (h : t.RebuildsHeader R new) (ht : t.isWellFormed around = true) :
    new.isWellFormed around = true := by
  have hall : ∀ {es news}, Forall₂ R es news → (∀ e ∈ es, e.All .consistent) → ∀ e ∈ news, e.All .consistent :=
    Expr.all_of_forall₂ hR
  cases h with
  | function hdecorators hparams =>
    obtain ⟨hdecorators', hparams', hbody⟩ := of_decide_eq_true ht
    exact decide_eq_true ⟨hall hdecorators hdecorators', hall hparams.parts hparams', hbody⟩
  | classDef hdecorators hbases hkeywords =>
    obtain ⟨hdecorators', hbases', hkeywords', hbody⟩ := of_decide_eq_true ht
    refine decide_eq_true ⟨hall hdecorators hdecorators', hall hbases hbases', ?_, hbody⟩
    exact forall_mem_map.mp (hall (Keyword.forall₂_values hkeywords) (forall_mem_map.mpr hkeywords'))

theorem isWellFormed_rebuilt (hT : ∀ {e new}, T e new → e.All .consistent → new.All .consistent)
    (h : t.Rebuilds R T Becomes new) (ht : t.isWellFormed around = true) : new.isWellFormed around = true := by
  have hoption : ∀ {o o'}, Option.Rel R o o' → (∀ e ∈ o.toList, e.All .consistent) → ∀ e ∈ o'.toList,
      e.All .consistent :=
    fun h => Expr.all_of_forall₂ hR (forall₂_toList h)
  have hne : ∀ {α β : Type} {Q : α → β → Prop} {as bs}, Forall₂ Q as bs → (bs = [] ↔ as = []) :=
    fun h => by cases h <;> simp
  cases h with
  | same => exact ht
  | header h => exact isWellFormed_header hR h ht
  | ret h =>
    obtain ⟨hvalue, hin⟩ := of_decide_eq_true ht
    exact decide_eq_true ⟨hoption h hvalue, hin⟩
  | delete h =>
    obtain ⟨htargets, htarget⟩ := of_decide_eq_true ht
    exact decide_eq_true ⟨Expr.all_of_forall₂ hT h htargets, mt (hne h).mp htarget⟩
  | assign h hnew =>
    obtain ⟨htargets, htarget, hvalue⟩ := of_decide_eq_true ht
    exact decide_eq_true ⟨Expr.all_of_forall₂ hT h htargets, mt (hne h).mp htarget, hR hnew hvalue⟩
  | augAssign h hnew =>
    obtain ⟨htarget, hvalue⟩ := of_decide_eq_true ht
    exact decide_eq_true ⟨hT h htarget, hR hnew hvalue⟩
  | forLoop h hnew hbody horelse =>
    obtain ⟨htarget, hiter, hsome, hbody', horelse'⟩ := of_decide_eq_true ht
    have hkeeps := hbody around.loop hbody'
    exact decide_eq_true ⟨hT h htarget, hR hnew hiter, mt hkeeps.nil_iff.mp hsome, hkeeps.wellFormed,
      (horelse around horelse').wellFormed⟩
  | whileLoop h hbody horelse | cond h hbody horelse =>
    obtain ⟨htest, hsome, hbody', horelse'⟩ := of_decide_eq_true ht
    have hkeeps := hbody _ hbody'
    exact decide_eq_true ⟨hR h htest, mt hkeeps.nil_iff.mp hsome, hkeeps.wellFormed,
      (horelse around horelse').wellFormed⟩
  | withBlock h hbody =>
    obtain ⟨hitems, hsome, hbody'⟩ := of_decide_eq_true ht
    have hkeeps := hbody around hbody'
    refine decide_eq_true ⟨fun item hitem => ?_, mt hkeeps.nil_iff.mp hsome, hkeeps.wellFormed⟩
    obtain ⟨old, hold, hnew⟩ := exists_of_forall₂ h hitem
    exact ⟨hR hnew.context (hitems old hold).1, Expr.all_of_forall₂ hT (forall₂_toList hnew.target)
      (hitems old hold).2⟩
  | raise hexc hcause =>
    obtain ⟨hexc', hcause'⟩ := of_decide_eq_true ht
    exact decide_eq_true ⟨hoption hexc hexc', hoption hcause hcause'⟩
  | tryBlock hbody hhandlers horelse hfinal =>
    obtain ⟨hblocks, hbody', hhandlers', horelse', hfinal'⟩ := of_decide_eq_true ht
    have hkeeps := hbody around hbody'
    have hkeeps' := horelse around horelse'
    have hkeeps'' := hfinal around hfinal'
    refine decide_eq_true ⟨?_, hkeeps.wellFormed, areWellFormed_handlers hR hhandlers hhandlers', hkeeps'.wellFormed,
      hkeeps''.wellFormed⟩
    simpa only [ne_eq, hkeeps.nil_iff, hne hhandlers, hkeeps'.nil_iff, hkeeps''.nil_iff] using hblocks
  | expr h => exact decide_eq_true (hR h (of_decide_eq_true ht))

theorem becomes_rebuilt (hT : ∀ {e new}, T e new → e.All .consistent → new.All .consistent)
    (h : t.Rebuilds R T Becomes new) : Becomes [t] [new] := fun around ht =>
  ⟨Stmt.areWellFormed_single.mpr (isWellFormed_rebuilt hR hT h (Stmt.areWellFormed_single.mp ht)), by simp⟩

end Rebuilt

theorem becomes_substitute {table} (htable : ∀ p ∈ table, p.2.All .consistent) (ts : List Stmt) :
    Becomes ts (Stmt.substituteList table ts) := by
  have hexpr : ∀ e : Expr, e.All .consistent → (e.substitute table).All .consistent := fun e h => h.substitute htable
  exact Stmt.related_substituteList hexpr
    ((Expr.TargetRules.of_rebuilds (fun _ h => h) (Expr.Rebuilds.all id)).substituted
    hexpr) (Becomes.refl []) Becomes.append (becomes_rebuilt id id) ts

end WellFormed

/-! ### Expressions -/

/-- The results of the functions that are recorded in the scopes are consistent. -/
def State.Sound (ctx : Context) (s : State) : Prop :=
  ∀ scope ∈ s.scope :: ctx.enclosing, ∀ p ∈ scope.functions, ∀ result, Inlining.result? p.2 = some result →
    result.All .consistent

namespace State.Sound

theorem frame (h : State.Sound ctx s) (hs : s'.scope.functions = s.scope.functions) : State.Sound ctx s' := by
  unfold State.Sound at h ⊢
  rw [forall_mem_cons] at h ⊢
  rw [hs]
  exact h

theorem inside (h : State.Sound ctx s) (stage : Stage) (allowGuards : Bool) {scope} (hscope : scope.functions = []) :
    State.Sound (ctx.inside s.scope stage allowGuards) (s.inside scope) := by
  refine forall_mem_cons.mpr ⟨fun p hp => ?_, h⟩
  rw [hscope] at hp
  cases hp

theorem define (h : State.Sound ctx s) (hfn : ∀ result, Inlining.result? fn = some result → result.All .consistent) :
    State.Sound ctx { s with scope := s.scope.define fn } := by
  unfold State.Sound at h
  rw [forall_mem_cons] at h
  refine forall_mem_cons.mpr ⟨forall_mem_cons.mpr ⟨hfn, fun p hp => ?_⟩, h.2⟩
  exact h.1 p (mem_filter.mp hp).1

end State.Sound

theorem Inlining.exists_scope_of_callee? {chain} {allowGuards : Bool} {id callee}
    (h : callee? chain allowGuards id = some callee) : ∃ scope ∈ chain, (id, callee.fn) ∈ scope.functions := by
  obtain ⟨scope, rest, rfl, hlookup, hwhere⟩ := callee?_cases h
  have hmem : (id, callee.fn) ∈ callee.functions := by
    obtain ⟨before, after, hfunctions, _⟩ := lookup_eq_some_iff.mp hlookup
    rw [hfunctions]
    exact mem_append_right _ mem_cons_self
  rcases hwhere with ⟨_, hfunctions, _⟩ | ⟨_, _, module, hmodule, hfunctions⟩
  · exact ⟨scope, mem_cons_self, hfunctions ▸ hmem⟩
  · exact ⟨module, mem_of_getLast? hmodule, hfunctions ▸ hmem⟩

/-- A consistent expression stays one, and a constant stays what it is. -/
structure Expr.StaysSound (e new : Expr) : Prop where
  all : e.All .consistent → new.All .consistent
  const : ∀ v, e.kind = .const v → new = e

theorem Expr.congruence_staysSound : Congruence Expr.StaysSound State.Sound where
  refl _ := ⟨id, fun _ _ => rfl⟩
  trans h h' := by
    refine ⟨fun ha => h'.all (h.all ha), fun v hv => ?_⟩
    have hb := h.const v hv
    rw [h'.const v (by rw [hb, hv]), hb]
  rebuilt h := by
    refine ⟨h.all Expr.StaysSound.all, fun v hv => ?_⟩
    cases h with
    | const => rfl
    | _ => cases hv
  replaced h := by
    cases h with
    | debug => exact ⟨fun _ => Expr.all_const rfl, fun v hv => by cases hv⟩
    | known _ _ hnew | method _ hnew | builtin _ _ _ hnew =>
      exact ⟨fun _ => Limits.all_literal? hnew, fun v hv => by cases hv⟩
    | folded hnew =>
      refine ⟨hnew.all, fun v hv => ?_⟩
      cases hnew <;> cases hv
  revisited hs h := by
    cases h with
    | inlined _ hnew =>
      obtain ⟨callee, result, table, hinlines, htable, _, rfl⟩ := Inlining.inlined?_eq_some hnew
      obtain ⟨scope, hscope, hmem⟩ := Inlining.exists_scope_of_callee? hinlines.found
      have hresult := hs scope hscope _ hmem result hinlines.returns
      refine ⟨fun he => (hresult.substitute fun q hq => ?_).at _, fun v hv => by cases hv⟩
      -- the operands of the call are parts of it
      have hoperand := (Inlining.perm_of_bindArguments? htable).mem_iff.mp (mem_map_of_mem hq)
      exact (Expr.all_iff.mp he).2 q.2 (mem_cons_of_mem _ hoperand)
  unrolled h := by
    refine ⟨h.all, fun v hv => ?_⟩
    cases h <;> cases hv
  frame hs h := hs.frame h
  inside stage allowGuards _ hs hscope := hs.inside stage allowGuards hscope

/-! ### Statements -/

namespace WellFormed

def correspondence (ctx : Context) : Correspondence where
  expr s e new s' := State.Sound ctx s → e.StaysSound new ∧ State.Sound ctx s'
  target s e new s' := State.Sound ctx s → e.StaysSound new ∧ State.Sound ctx s'
  stmts s ts us s' := ∀ around, State.Sound ctx s → Stmt.areWellFormed around ts = true →
    Keeps around ts us ∧ State.Sound ctx s'

theorem rebuilding (ctx : Context) : (correspondence ctx).Rebuilding (fun (_ : Unit) s => State.Sound ctx s)
    (fun ts => ∃ around, Stmt.areWellFormed around ts = true) Expr.StaysSound Expr.StaysSound Becomes where
  expr := ⟨fun h _ => h, fun h => h ()⟩
  target := ⟨fun h _ => h, fun h => h ()⟩
  stmts := by
    refine ⟨fun h _ hs hts => ⟨fun around hts => (h around hs hts).1, ?_⟩, fun h around hs hts => ?_⟩
    · obtain ⟨around, hts⟩ := hts
      exact (h around hs hts).2
    · obtain ⟨hbecomes, hs'⟩ := h () hs ⟨around, hts⟩
      exact ⟨hbecomes around hts, hs'⟩
  known _ hs := hs.frame rfl
  releases h hs := by
    obtain ⟨log, vars, rfl⟩ := h.frees
    exact hs.frame rfl
  fit_block h hblock := by
    obtain ⟨around, ht⟩ := h
    exact Stmt.areWellFormed_block (Stmt.areWellFormed_single.mp ht) hblock
  fit_append h := by
    obtain ⟨around, hts⟩ := h
    exact (Stmt.areWellFormed_append.mp hts).imp (fun h => ⟨around, h⟩) fun h => ⟨around, h⟩
  fit_of hbecomes h := by
    obtain ⟨around, hts⟩ := h
    exact ⟨around, (hbecomes around hts).wellFormed⟩
  refl := Becomes.refl
  trans := Becomes.trans
  append := Becomes.append
  rebuilt := becomes_rebuilt Expr.StaysSound.all Expr.StaysSound.all
  trims h around hts := by
    cases h with
    | none => exact ⟨hts, Iff.rfl⟩
    | rest before dropped => exact ⟨Stmt.areWellFormed_of_subset (by simp) hts, by simp⟩
  filled h hbecomes := by
    obtain ⟨around, hts⟩ := h
    cases (hbecomes around hts).nil_iff.mp rfl

/-! ### The passes -/

def Steps (t : Stmt) (step : StmtStep) : Prop :=
  ∀ around, t.isWellFormed around = true → Stmt.areWellFormed around (step.stmts t) = true ∧ step.stmts t ≠ []

variable {step : StmtStep}

theorem steps_replace {new} (h : ∀ around, t.isWellFormed around = true → new.isWellFormed around = true) :
    Steps t (.replace new) := fun around ht =>
  ⟨Stmt.areWellFormed_single.mpr (h around ht), by simp [StmtStep.stmts]⟩

theorem steps_keep (t : Stmt) : Steps t .keep := fun _ ht =>
  ⟨Stmt.areWellFormed_single.mpr ht, by simp [StmtStep.stmts]⟩

theorem steps_inPlaceOf {body} (h : ∀ around, t.isWellFormed around = true → Stmt.areWellFormed around body = true) :
    Steps t (DeadCode.inPlaceOf t body) := by
  unfold DeadCode.inPlaceOf
  split
  · exact steps_replace fun _ _ => Stmt.isWellFormed_pass _
  · rename_i hne
    exact fun around ht => ⟨h around ht, by simpa [StmtStep.stmts] using hne⟩

theorem ne_nil_of_not_doesNothing {block} (h : DeadCode.doesNothing block = false) : block ≠ [] := by
  rintro rfl
  cases h

theorem steps_discards {removed} (h : DeadCode.Discards t removed step) : Steps t step := by
  cases h with
  | always =>
    refine steps_inPlaceOf fun around ht => ?_
    obtain ⟨_, _, hbody, _⟩ := of_decide_eq_true ht
    exact hbody
  | never | idleWhile =>
    refine steps_inPlaceOf fun around ht => ?_
    obtain ⟨_, _, _, horelse⟩ := of_decide_eq_true ht
    exact horelse
  | negated _ hne =>
    refine steps_replace fun around ht => ?_
    obtain ⟨htest, _, _, horelse⟩ := of_decide_eq_true ht
    refine decide_eq_true ⟨Expr.all_iff.mpr ⟨rfl, fun c hc => ?_⟩, ne_nil_of_not_doesNothing hne, horelse, rfl⟩
    rw [mem_singleton.mp hc]
    exact htest
  | condElse | whileElse =>
    refine steps_replace fun around ht => ?_
    obtain ⟨htest, hne, hbody, _⟩ := of_decide_eq_true ht
    exact decide_eq_true ⟨htest, hne, hbody, rfl⟩
  | idleFor | tryFinal =>
    refine steps_inPlaceOf fun around ht => ?_
    obtain ⟨_, _, _, _, hlast⟩ := of_decide_eq_true ht
    exact hlast
  | forElse =>
    refine steps_replace fun around ht => ?_
    obtain ⟨htarget, hiter, hne, hbody, _⟩ := of_decide_eq_true ht
    exact decide_eq_true ⟨htarget, hiter, hne, hbody, rfl⟩
  | tryElse =>
    refine steps_inPlaceOf fun around ht => ?_
    obtain ⟨_, _, _, horelse, _⟩ := of_decide_eq_true ht
    exact horelse
  | tryMoved _ _ _ hne hidle =>
    refine steps_replace fun around ht => ?_
    obtain ⟨_, _, _, horelse, hfinal⟩ := of_decide_eq_true ht
    have hblocks := ne_nil_of_not_doesNothing hidle
    exact decide_eq_true ⟨⟨hne, .inr hblocks, fun h => absurd rfl h⟩, horelse, rfl, rfl, hfinal⟩
  | tryWithoutElse =>
    refine steps_replace fun around ht => ?_
    obtain ⟨⟨hne, hhandled, _⟩, hbody, hhandlers, _, hfinal⟩ := of_decide_eq_true ht
    exact decide_eq_true ⟨⟨hne, hhandled, fun h => absurd rfl h⟩, hbody, hhandlers, rfl, hfinal⟩

theorem steps_unrolls (h : Unrolling.Unrolls limits t step) : Steps t step := by
  cases h with
  | keep => exact steps_keep t
  | @unroll pos target iter id body orelse items literals _ _ hitems hliterals hstops =>
    intro around ht
    obtain ⟨htarget, _, hne, hbody, horelse⟩ := of_decide_eq_true ht
    have hbody' : Stmt.areWellFormed { around.loop with inLoop := around.inLoop } body = true := by
      refine Stmt.areWellFormed_iff.mpr fun u hu =>
        Stmt.isWellFormed_of_not_stops around.inLoop (fun node hnode => ?_) (Stmt.areWellFormed_iff.mp hbody u hu)
      refine hstops node (mem_cons_of_mem _ (mem_append_left _ (mem_append_right _ ?_)))
      rw [Stmt.nodesList_eq_flatMap]
      exact mem_flatMap.mpr ⟨u, hu, hnode⟩
    have hassign : ∀ l ∈ literals, Stmt.isWellFormed around ⟨pos, .assign [target] l⟩ = true := by
      intro l hl
      obtain ⟨item, _, hitem⟩ := mem_of_mapM hliterals hl
      exact decide_eq_true ⟨forall_mem_singleton.mpr htarget, by simp, Limits.all_literal? hitem⟩
    constructor
    · refine Stmt.areWellFormed_append.mpr ⟨Stmt.areWellFormed_iff.mpr fun u hu => ?_, horelse⟩
      obtain ⟨l, hl, hu⟩ := mem_flatMap.mp hu
      rcases mem_cons.mp hu with rfl | hu
      · exact hassign l hl
      · exact Stmt.areWellFormed_iff.mp hbody' u hu
    · obtain ⟨l, others, rfl⟩ := exists_cons_of_ne_nil (ne_nil_of_mapM hliterals hitems)
      simp [StmtStep.stmts, Unrolling.iterations]

theorem steps_changes (h : t.Changes limits step) : Steps t step := by
  cases h with
  | keep => exact steps_keep t
  | iterable h =>
    cases h with
    | keep => exact steps_keep t
    | iter hnew =>
      refine steps_replace fun around ht => ?_
      obtain ⟨htarget, _, hrest⟩ := of_decide_eq_true ht
      refine decide_eq_true ⟨htarget, ?_, hrest⟩
      cases hnew with
      | display hnew | range _ hnew => exact Limits.all_literal? hnew
  | unrolled h => exact steps_unrolls h
  | discarded h => exact steps_discards h

theorem passes_correspondence (ctx : Context) : (correspondence ctx).Passes (fun _ => True) ctx := by
  intro p hp t s
  refine (ctx.stage.changes_leaveStmt hp).imp fun step s' h => ?_
  rw [Correspondence.step_iff]
  intro around hs ht
  obtain ⟨hwellFormed, hne⟩ := steps_changes h.1 around (Stmt.areWellFormed_single.mp ht)
  exact ⟨⟨hwellFormed, by simp [hne]⟩, hs.frame h.2⟩

/-! ### Definitions -/

theorem isWellFormed_version {pos new} (h : fn.HasVersion Becomes new)
    (ht : Stmt.isWellFormed around ⟨pos, .functionDef fn⟩ = true) :
    Stmt.isWellFormed around ⟨pos, .functionDef new⟩ = true := by
  obtain ⟨body, hbody, rfl⟩ := h
  obtain ⟨name, params, old, decorators, isAsync⟩ := fn
  obtain ⟨hdecorators, hparams, hne, hold⟩ := of_decide_eq_true ht
  have hkeeps := hbody .function hold
  exact decide_eq_true ⟨hdecorators, hparams, mt hkeeps.nil_iff.mp hne, hkeeps.wellFormed⟩

theorem Shape.admitsCalls_consistent : Shape.consistent.AdmitsCalls :=
  ⟨fun _ => rfl, fun _ _ => rfl, fun _ _ _ => rfl⟩

theorem isWellFormed_auxiliary (h : Specialize.Auxiliary .consistent t) : t.isWellFormed around = true := by
  cases h with
  | assign htarget hvalue => exact decide_eq_true ⟨forall_mem_singleton.mpr htarget, by simp, hvalue⟩
  | delete htarget => exact decide_eq_true ⟨forall_mem_singleton.mpr htarget, by simp⟩
  | expr hvalue => exact decide_eq_true hvalue

theorem keeps_redefines {news} (h : t.Redefines Becomes news) (ht : t.isWellFormed around = true) :
    Keeps around [t] news := by
  cases h with
  | function hversion => exact ⟨Stmt.areWellFormed_single.mpr (isWellFormed_version hversion ht), by simp⟩
  | @classDef pos cls body hbody =>
    obtain ⟨name, bases, keywords, old, decorators⟩ := cls
    obtain ⟨hdecorators, hbases, hkeywords, hne, hold⟩ := of_decide_eq_true ht
    have hkeeps := hbody around.classBody hold
    refine ⟨Stmt.areWellFormed_single.mpr ?_, by simp⟩
    exact decide_eq_true ⟨hdecorators, hbases, hkeywords, mt hkeeps.nil_iff.mp hne, hkeeps.wellFormed⟩
  | @pair pos fn slow fast guards copied kept hslow hfast =>
    refine ⟨Stmt.areWellFormed_iff.mpr fun u hu => ?_, by simp [Specialize.definitions]⟩
    rcases Specialize.cases_definitions Shape.admitsCalls_consistent hu with rfl | rfl | haux
    · exact isWellFormed_version hslow ht
    · have hwellFormed := isWellFormed_version hfast ht
      obtain ⟨name, params, body, decorators, isAsync⟩ := fast
      obtain ⟨_, hparams, hne, hbody⟩ := of_decide_eq_true hwellFormed
      have htable :
    ∀ q ∈ Specialize.placeholders pos copied, q.2.All .consistent := Specialize.all_placeholders pos copied
      have hkeeps := becomes_substitute htable body .function hbody
      exact decide_eq_true ⟨fun e he => (by cases he), hparams, mt hkeeps.nil_iff.mp hne, hkeeps.wellFormed⟩
    · exact isWellFormed_auxiliary haux

theorem all_result {pos} (ht : Stmt.isWellFormed around ⟨pos, .functionDef fn⟩ = true) {result}
    (h : Inlining.result? fn = some result) : result.All .consistent := by
  obtain ⟨name, params, body, decorators, isAsync⟩ := fn
  obtain ⟨_, _, _, hbody⟩ := of_decide_eq_true ht
  have hreturned := (Inlining.result?_eq_some h).1
  unfold Inlining.returned? at hreturned
  split at hreturned
  · rename_i hkind
    cases hreturned
    dsimp only at hkind
    rw [hkind] at hbody
    obtain ⟨hvalue, _⟩ := of_decide_eq_true (Stmt.areWellFormed_single.mp hbody)
    exact hvalue _ mem_cons_self
  · cases hreturned
    exact Expr.all_const rfl
  · cases hreturned
    exact Expr.all_const rfl
  · cases hreturned

theorem exprs_correspondence (n : Nat) (ctx : Context) :
    (correspondence ctx).Exprs (visitor n) (fun _ => True) ctx where
  expr e s := by
    by_cases hs : State.Sound ctx s
    · exact (Expr.congruence_staysSound.visitor n ctx s e hs).imp fun _ _ h _ => h
    · exact .of_forall (fun _ => trivial) fun _ _ hs' => absurd hs' hs
  target e s := by
    by_cases hs : State.Sound ctx s
    · exact (Expr.congruence_staysSound.target (Expr.congruence_staysSound.visitor n) hs e).imp fun _ _ h _ => h
    · exact .of_forall (fun _ => trivial) fun _ _ hs' => absurd hs' hs

theorem ensures_wellFormed_definition {n : Nat}
    (hbody : ∀ ctx s ts, Ensures ((visitor n).body true ts) (fun _ => True) ((correspondence ctx).stmts s ts) ctx s)
    (ht : t.isScope = true) :
    Ensures ((visitor n).visitStmt t) (fun _ => True) ((correspondence ctx).stmts s [t]) ctx s := by
  by_cases h : State.Sound ctx s ∧ ∃ around, t.isWellFormed around = true
  · obtain ⟨hs, around, hwellFormed⟩ := h
    have hdefine : ∀ {new fn s'}, t.RebuildsHeader Expr.StaysSound new → new.kind = .functionDef fn →
        State.Sound ctx s' → State.Sound ctx { s' with scope := s'.scope.define fn } := by
      intro new fn s' hheader hkind hs'
      obtain ⟨pos, kind⟩ := new
      cases hkind
      exact hs'.define fun result hresult =>
        all_result (isWellFormed_header Expr.StaysSound.all hheader hwellFormed) hresult
    have hbecomes : ∀ ctx s ts, State.Sound ctx s →
        Ensures ((visitor n).body true ts) (fun _ => True) (fun us _ => Becomes ts us) ctx s := fun ctx s ts hs =>
      (hbody ctx s ts).imp fun us s' h around hts => (h around hs hts).1
    refine (Expr.congruence_staysSound.visitDefinition (Expr.congruence_staysSound.visitor n) hs Becomes.refl
      Becomes.trans hbecomes ht hdefine).imp fun news s' h around _ ht => ?_
    obtain ⟨⟨new, hheader, hnews⟩, hs'⟩ := h
    have hkeeps :=
      keeps_redefines hnews (isWellFormed_header Expr.StaysSound.all hheader (Stmt.areWellFormed_single.mp ht))
    exact ⟨⟨hkeeps.wellFormed, by simpa using hkeeps.nil_iff⟩, hs'⟩
  · refine .of_forall (fun _ => trivial) fun _ _ around hs hts => absurd ?_ h
    exact ⟨hs, around, Stmt.areWellFormed_single.mp hts⟩

end WellFormed

open WellFormed

/-- What a well-formed statement becomes is well formed in the same place, and it is never nothing. -/
theorem visitor_keeps_wellFormed (n : Nat) (ctx : Context) (t : Stmt) (s : State) :
    Ensures ((visitor n).stmt t) (fun _ => True) ((correspondence ctx).stmts s [t]) ctx s := by
  induction n generalizing ctx t s with
  | zero => exact trivial
  | succ n ih =>
    cases ht : t.isScope with
    | false =>
      exact (rebuilding ctx).visitStmt (exprs_correspondence n ctx) (ih ctx) (passes_correspondence ctx)
        (fun _ _ _ _ => trivial) ht
    | true =>
      refine ensures_wellFormed_definition (fun ctx s ts => ?_) ht
      exact Correspondence.ensures_body (rebuilding ctx).bodies (ih ctx) true ts

/-! ### Modules -/

/-- Whether the statement may be one of the first ones of a module: documentation or an import from `__future__`. -/
def Stmt.opensModule (t : Stmt) : Bool := t.isText || t.enablesFeatures

section Opening

variable {body : List Stmt}

theorem Stmt.openWell_iff : Stmt.openWell body = true ↔ ∃ features rest, body = features ++ rest ∧
    (∀ t ∈ features, t.enablesFeatures = true) ∧ Stmt.areWellFormed .top rest = true := by
  constructor
  · intro h
    exact ⟨_, _, takeWhile_append_dropWhile.symm, all_eq_true.mp all_takeWhile, h⟩
  · rintro ⟨features, rest, rfl, hfeatures, hrest⟩
    unfold Stmt.openWell
    rw [dropWhile_append_of_pos hfeatures]
    exact Stmt.areWellFormed_of_subset (dropWhile_suffix _).subset hrest

theorem Module.isWellFormed_of_openWell (h : Stmt.openWell body = true) : Module.isWellFormed ⟨body⟩ = true := by
  cases body with
  | nil => rfl
  | cons t ts =>
    unfold Module.isWellFormed
    dsimp only
    split
    · -- without its first statement the body begins as well
      obtain ⟨features, rest, hbody, hfeatures, hrest⟩ := Stmt.openWell_iff.mp h
      cases features with
      | nil =>
        cases hbody
        exact Stmt.openWell_iff.mpr ⟨[], ts, rfl, hfeatures, (Bool.and_eq_true_iff.mp hrest).2⟩
      | cons _ features =>
        cases hbody
        exact Stmt.openWell_iff.mpr ⟨features, rest, rfl, (forall_mem_cons.mp hfeatures).2, hrest⟩
    · exact h

/-- A well-formed module has its documentation and its imports from `__future__` first, and then other well-formed
statements. -/
theorem Module.exists_opening {m : Module} (hm : m.isWellFormed = true) : ∃ opening rest, m.body = opening ++ rest ∧
    (∀ t ∈ opening, t.opensModule = true) ∧ Stmt.areWellFormed .top rest = true ∧
    ∀ us, Stmt.areWellFormed .top us = true → Module.isWellFormed ⟨opening ++ us⟩ = true := by
  obtain ⟨body⟩ := m
  cases body with
  | nil => exact ⟨[], [], rfl, (fun t ht => by cases ht), rfl, fun us hus =>
      Module.isWellFormed_of_openWell (Stmt.openWell_iff.mpr ⟨[], us, rfl, (fun t ht => by cases ht), hus⟩)⟩
  | cons t ts =>
    unfold Module.isWellFormed at hm
    dsimp only at hm
    split at hm
    · rename_i htext
      obtain ⟨features, rest, rfl, hfeatures, hrest⟩ := Stmt.openWell_iff.mp hm
      refine ⟨t :: features, rest, rfl, forall_mem_cons.mpr ⟨by simp [Stmt.opensModule, htext], fun u hu => ?_⟩,
        hrest, fun us hus => ?_⟩
      · simp [Stmt.opensModule, hfeatures u hu]
      unfold Module.isWellFormed
      dsimp only [cons_append]
      rw [if_pos htext]
      exact Stmt.openWell_iff.mpr ⟨features, us, rfl, hfeatures, hus⟩
    · obtain ⟨features, rest, hbody, hfeatures, hrest⟩ := Stmt.openWell_iff.mp hm
      refine ⟨features, rest, hbody, fun u hu => by simp [Stmt.opensModule, hfeatures u hu], hrest, fun us hus => ?_⟩
      exact Module.isWellFormed_of_openWell (Stmt.openWell_iff.mpr ⟨features, us, rfl, hfeatures, hus⟩)

theorem Stmt.openWell_importAfterFuture (h : Stmt.openWell body = true) :
    Stmt.openWell (importAfterFuture body) = true := by
  obtain ⟨features, rest, rfl, hfeatures, hrest⟩ := Stmt.openWell_iff.mp h
  have hfuture : ∀ t ∈ features, t.isFutureImport = true := by
    intro t ht
    have hfeature := hfeatures t ht
    obtain ⟨pos, kind⟩ := t
    cases kind with
    | importFrom module names level =>
      simp only [Stmt.enablesFeatures, Bool.and_eq_true, beq_iff_eq] at hfeature
      rw [hfeature.1]
      rfl
    | _ => cases hfeature
  refine Stmt.openWell_iff.mpr ⟨features, rest.takeWhile Stmt.isFutureImport ++ supportImport ::
    rest.dropWhile Stmt.isFutureImport, ?_, hfeatures, Stmt.areWellFormed_iff.mpr fun u hu => ?_⟩
  · unfold importAfterFuture
    rw [takeWhile_append_of_pos hfuture, dropWhile_append_of_pos hfuture, append_assoc]
  · have hkept := Stmt.areWellFormed_iff.mp hrest
    rcases mem_append.mp hu with hu | hu
    · exact hkept u ((takeWhile_sublist _).subset hu)
    · rcases mem_cons.mp hu with rfl | hu
      · rfl
      · exact hkept u ((dropWhile_suffix _).subset hu)

theorem Module.isWellFormed_importSupport (h : Module.isWellFormed ⟨body⟩ = true) :
    Module.isWellFormed ⟨importSupport body⟩ = true := by
  cases body with
  | nil => rfl
  | cons t ts =>
    rw [importSupport]
    unfold Module.isWellFormed at h
    dsimp only at h
    by_cases htext : t.isText = true
    · rw [if_pos htext] at h ⊢
      unfold Module.isWellFormed
      dsimp only
      rw [if_pos htext]
      exact Stmt.openWell_importAfterFuture h
    · rw [if_neg htext] at h ⊢
      exact Module.isWellFormed_of_openWell (Stmt.openWell_importAfterFuture h)

end Opening

namespace WellFormed

variable {n : Nat}

theorem eq_keep_of_changes (ht : t.opensModule = true) {step} (h : t.Changes limits step) : step = .keep := by
  cases h with
  | keep => rfl
  | iterable h =>
    cases h with
    | keep => rfl
    | iter => cases ht
  | unrolled h =>
    cases h with
    | keep => rfl
    | unroll => cases ht
  | discarded h => cases h <;> cases ht

theorem ensures_leaveStmt_of_keep {v : Visitor} {inv : State → Prop} {ps : List Pass} (hs : inv s)
    (h : ∀ p ∈ ps, ∀ s, inv s → Ensures (p.leaveStmt t) (fun _ => True)
      (fun step s' => step = .keep ∧ inv s') ctx s) :
    Ensures (v.leaveStmt ps t) (fun _ => True) (fun us s' => us = [t] ∧ inv s') ctx s := by
  induction ps generalizing s with
  | nil => exact .pure ⟨rfl, hs⟩
  | cons p ps ih =>
    unfold Visitor.leaveStmt
    refine (h p mem_cons_self s hs).bind fun step s1 h1 => ?_
    obtain ⟨rfl, hs1⟩ := h1
    exact ih hs1 fun q hq => h q (mem_cons_of_mem _ hq)

theorem ensures_opening (hs : State.Sound ctx s) (ht : t.opensModule = true) :
    Ensures ((visitor n).stmt t) (fun _ => True) (fun us s' => us = [t] ∧ State.Sound ctx s') ctx s := by
  cases n with
  | zero => exact trivial
  | succ n =>
    have hchildren : Ensures ((visitor n).stmtChildren t) (fun _ => True) (fun new s' => new = t ∧ State.Sound ctx s')
        ctx s := by
      obtain ⟨pos, kind⟩ := t
      cases kind with
      | expr value =>
        obtain ⟨inner, kind⟩ := value
        cases kind with
        | const v =>
          refine (Expr.congruence_staysSound.visitor n ctx s _ hs).bind fun new s1 h1 => .pure ⟨?_, h1.2⟩
          rw [h1.1.const v rfl]
          rfl
        | _ => cases ht
      | importFrom => exact .pure ⟨rfl, hs⟩
      | _ => cases ht
    have hscope : t.isScope = false := by
      obtain ⟨pos, kind⟩ := t
      cases kind with
      | functionDef | classDef => cases ht
      | _ => rfl
    refine Visitor.ensures_visitStmt hscope (fun _ _ _ _ => trivial) (hchildren.bind fun new s1 h1 => ?_)
    obtain ⟨rfl, hs1⟩ := h1
    refine ensures_leaveStmt_of_keep hs1 fun p hp s hs => (ctx.stage.changes_leaveStmt hp).imp fun step s' h => ?_
    exact ⟨eq_keep_of_changes ht h.1, hs.frame h.2⟩

theorem ensures_flatMapM_opening {opening rest} (hs : State.Sound ctx s)
    (hopening : ∀ t ∈ opening, t.opensModule = true) (hrest : Stmt.areWellFormed .top rest = true) :
    Ensures ((opening ++ rest).flatMapM (visitor n).stmt) (fun _ => True)
      (fun visited _ => ∃ us, visited = opening ++ us ∧ Stmt.areWellFormed .top us = true) ctx s := by
  induction opening generalizing s with
  | nil =>
    refine (Correspondence.ensures_flatMapM (rebuilding ctx).bodies (visitor_keeps_wellFormed n ctx) rest).imp
      fun us s' h => ?_
    exact ⟨us, rfl, (h .top hs hrest).1.wellFormed⟩
  | cons t opening ih =>
    rw [forall_mem_cons] at hopening
    rw [cons_append, flatMapM_cons]
    refine (ensures_opening hs hopening.1).bind fun first s1 h1 => (ih h1.2 hopening.2).bind fun visited s2 h2 => ?_
    obtain ⟨us, rfl, hus⟩ := h2
    rw [h1.1]
    exact .pure ⟨us, rfl, hus⟩

theorem trims_opening {opening us dropped news} (hopening : ∀ t ∈ opening, t.opensModule = true)
    (h : DeadCode.Trims (opening ++ us) dropped news) : ∃ kept, news = opening ++ kept ∧ kept ⊆ us := by
  generalize hbody : opening ++ us = body at h
  cases h with
  | none => exact ⟨us, hbody.symm, Subset.refl _⟩
  | @rest before last dropped hlast =>
    rcases append_eq_append_iff.mp hbody with ⟨kept, rfl, rfl⟩ | ⟨between, rfl, hrest⟩
    · exact ⟨kept ++ [last], by simp, by simp⟩
    · cases between with
      | nil =>
        cases hrest
        exact ⟨[last], by simp, by simp⟩
      | cons t between =>
        -- the last statement that runs does not open the module
        cases hrest
        have hopens := hopening last (mem_append_right _ mem_cons_self)
        obtain ⟨pos, kind⟩ := last
        cases kind with
        | ret | raise => cases hopens
        | _ => cases hlast

end WellFormed

theorem Module.ensures_wellFormed {m : Module} (hm : m.isWellFormed = true) (n : Nat) {config : Config}
    {ctx : Context}
    {s : State} (hctx : ctx.Initial config) (hs : s.Initial) :
    Ensures (m.visit (visitor n)) (fun _ => True) (fun new _ => new.isWellFormed = true) ctx s := by
  refine Module.ensures_visit_of_body (fun _ _ => hm) fun vars => ?_
  obtain ⟨opening, rest, hbody, hopening, hrest, hwellFormed⟩ := m.exists_opening hm
  have hsound : State.Sound ctx { s with scope := { s.scope with vars := vars } } := by
    intro scope hscope
    rw [hctx.enclosing, hs.scope] at hscope
    rw [mem_singleton.mp hscope]
    exact fun p hp => by cases hp
  have hvisited : Ensures ((visitor n).body false m.body) (fun _ => True)
      (fun body _ => Module.isWellFormed ⟨body⟩ = true) ctx { s with scope := { s.scope with vars := vars } } := by
    refine Visitor.ensures_body ?_
    rw [hbody]
    refine (ensures_flatMapM_opening hsound hopening hrest).imp fun visited s1 h => ?_
    obtain ⟨us, rfl, hus⟩ := h
    refine ⟨(DeadCode.ensures_trimBody _).imp fun news s2 h => ?_, hwellFormed us hus⟩
    obtain ⟨dropped, htrims, _⟩ := h
    obtain ⟨kept, rfl, hsub⟩ := trims_opening hopening htrims
    exact hwellFormed kept (Stmt.areWellFormed_of_subset hsub hus)
  refine hvisited.imp fun body s1 h => ?_
  split
  · exact Module.isWellFormed_importSupport h
  · exact h

/-- If a well-formed module is optimized, the result is a well-formed module, however deep the visits may go. -/
theorem optimize_wellFormed (depth : Nat) (config : Config) (filename : String) (source : Option String)
    {m new : Module}
    (hm : m.isWellFormed = true) (hnew : (optimizeWith (visitor depth) config filename source m).result = .ok new) :
    new.isWellFormed = true := by
  have h := Report.of_ensures (rfl : optimizeWith (visitor depth) config filename source m = _) fun ctx s hctx hs =>
    Module.ensures_wellFormed hm depth hctx hs
  rw [hnew] at h
  obtain ⟨_, hwellFormed, _⟩ := h
  exact hwellFormed

set_option maxRecDepth 100000 in
/-- A module with a text, an import from `__future__` and a function `f` that is specialized.  In its body there is
`while x:` with the two statements `for i in (1, 2): x` and `break`, and after it `return len('abc')`. -/
theorem optimize_wellFormed_specialized :
    let x : Expr := ⟨{}, .name "x"⟩
    let items : Expr := ⟨{}, .tuple [⟨{}, .const (.int 1)⟩, ⟨{}, .const (.int 2)⟩]⟩
    let inner : Stmt := ⟨{}, .forLoop ⟨{}, .name "i"⟩ items [⟨{}, .expr x⟩] [] false⟩
    let length : Expr := ⟨{}, .call ⟨{}, .name "len"⟩ [⟨{}, .const (.str "abc")⟩] []⟩
    let f : FunctionDef := ⟨"f", ⟨["x"], none, [], [], none, []⟩,
      [⟨{}, .whileLoop x [inner, ⟨{}, .brk⟩] []⟩, ⟨{}, .ret (some length)⟩], [], false⟩
    let m : Module := ⟨[⟨{}, .expr ⟨{}, .const (.str "text")⟩⟩,
      ⟨{}, .importFrom (some "__future__") [⟨"annotations", none⟩] 0⟩, ⟨{}, .functionDef f⟩]⟩
    m.isWellFormed = true ∧ ∃ new, (optimize {} "m.py" none m).result = .ok new ∧ m.body.length < new.body.length ∧
      new.isWellFormed = true := by
  intro x items inner length f m
  have hm : m.isWellFormed = true := by decide +kernel
  have hlength : (optimize {} "m.py" none m).result.toOption.map
      (fun new => decide (m.body.length < new.body.length)) =
      some true := by decide +kernel
  obtain ⟨new, hnew, hlonger⟩ := Option.map_eq_some_iff.mp hlength
  have hnew := toOption_eq_some hnew
  exact ⟨hm, new, hnew, of_decide_eq_true hlonger, optimize_wellFormed _ {} "m.py" none hm hnew⟩

set_option maxRecDepth 100000 in
/-- A loop with `break` in a class is unrolled, because the loop is not left there: `for x in (1,): class A:
break`. -/
theorem optimize_wellFormed_class :
    let x : Expr := ⟨{}, .name "x"⟩
    let one : Expr := ⟨{}, .const (.int 1)⟩
    let cls : Stmt := ⟨{}, .classDef ⟨"A", [], [], [⟨{}, .brk⟩], []⟩⟩
    (optimize {} "m.py" none ⟨[⟨{}, .forLoop x ⟨{}, .tuple [one]⟩ [cls] [] false⟩]⟩).result =
      .ok ⟨[⟨{}, .assign [x] one⟩, cls]⟩ := by
  rfl

end Speculator
