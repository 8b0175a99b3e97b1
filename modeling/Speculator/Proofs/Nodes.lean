import Mathlib.Data.List.Forall2
import Speculator.Tree.Nodes
import Speculator.Tree.Substitute

/-!
# The parts of expressions

What is right below an expression (`Expr.parts`, and `Expr.children` within its scope).  A fact about all nodes, or
about all expressions, can be shown along the parts.

An expression of the same kind with other parts (`Expr.Rebuilds`) is what replacing names makes of an expression that
is no name.
-/

namespace Speculator

open List

variable {t : Stmt} {table : List (Ident × Expr)}

variable {α β : Type} {p : Params} {new : Expr} {ks : List Keyword}

/-! ### Parts -/

/-- The expressions right below an expression, without those of the scope that it opens. -/
def Expr.children (e : Expr) : List Expr :=
  match e.kind with
  | .boolOp _ values => values
  | .binOp left _ right => [left, right]
  | .unaryOp _ operand => [operand]
  | .ifExp test body orelse => [test, body, orelse]
  | .dict keys values => keys ++ values
  | .set items | .list items | .tuple items => items
  | .await value | .yieldFrom value | .starred value | .attr value _ => [value]
  | .yield value => value.toList
  | .compare left _ comparators => left :: comparators
  | .call func args keywords => func :: (args ++ keywords.map Keyword.value)
  | .subscript value slice => [value, slice]
  | .slice lower upper step => lower.toList ++ (upper.toList ++ step.toList)
  | .const _ | .name _ | .lambda .. | .listComp .. | .setComp .. | .generatorExp .. | .dictComp .. => []

def Params.parts (p : Params) : List Expr := p.defaults ++ p.kwDefaults.flatMap Option.toList

def Generator.parts (g : Generator) : List Expr := g.target :: g.iter :: g.conditions

/-- The expressions right below an expression, with those of the scope that it opens. -/
def Expr.parts (e : Expr) : List Expr :=
  match e.kind with
  | .lambda params body => params.parts ++ [body]
  | .listComp item gens | .setComp item gens | .generatorExp item gens => gens.flatMap Generator.parts ++ [item]
  | .dictComp key value gens => gens.flatMap Generator.parts ++ [key, value]
  | _ => e.children

attribute [local simp] Expr.parts Expr.children Generator.parts

section Nodes

variable (enters : Node → Bool)

theorem Expr.nodesList_eq_flatMap (es : List Expr) : Expr.nodesList enters es = es.flatMap (Expr.nodes enters) := by
  induction es with
  | nil => rfl
  | cons e es ih => rw [Expr.nodesList, ih, flatMap_cons]

theorem Expr.nodesOption_eq_flatMap (o : Option Expr) :
    Expr.nodesOption enters o = o.toList.flatMap (Expr.nodes enters) := by
  cases o with
  | none => rfl
  | some e => simp [Expr.nodesOption]

theorem Keyword.nodesList_eq_flatMap (ks : List Keyword) :
    Keyword.nodesList enters ks = (ks.map Keyword.value).flatMap (Expr.nodes enters) := by
  induction ks with
  | nil => rfl
  | cons k ks ih =>
    obtain ⟨name, value⟩ := k
    rw [Keyword.nodesList, ih, map_cons, flatMap_cons]

theorem Params.nodes_eq_flatMap (p : Params) : p.nodes enters = p.parts.flatMap (Expr.nodes enters) := by
  obtain ⟨args, vararg, kwOnly, kwDefaults, kwarg, defaults⟩ := p
  have hoptions : ∀ os : List (Option Expr),
      Expr.nodesOptions enters os = (os.flatMap Option.toList).flatMap (Expr.nodes enters) := by
    intro os
    induction os with
    | nil => rfl
    | cons o os ih => rw [Expr.nodesOptions, Expr.nodesOption_eq_flatMap, ih, flatMap_cons, flatMap_append]
  simp only [Params.nodes, Params.parts, Expr.nodesList_eq_flatMap, hoptions, flatMap_append]

theorem Generator.nodesList_eq_flatMap (gs : List Generator) :
    Generator.nodesList enters gs = (gs.flatMap Generator.parts).flatMap (Expr.nodes enters) := by
  induction gs with
  | nil => rfl
  | cons g gs ih =>
    obtain ⟨target, iter, conditions, isAsync⟩ := g
    simp only [Generator.nodesList, ih, Expr.nodesList_eq_flatMap, flatMap_cons, flatMap_append,
      Generator.parts, append_assoc]

end Nodes

theorem ExprKind.nodes_eq_parts (enters : Node → Bool) (pos : Position) (kind : ExprKind) :
    kind.nodes enters = (Expr.parts ⟨pos, kind⟩).flatMap (Expr.nodes enters) := by
  cases kind with
  | const | name => rfl
  | boolOp | set | list | tuple => exact Expr.nodesList_eq_flatMap _ _
  | unaryOp | await | yieldFrom | starred | attr | binOp | subscript | ifExp =>
    simp [ExprKind.nodes]
  | yield value => exact Expr.nodesOption_eq_flatMap _ value
  | lambda params body => simp [ExprKind.nodes, Params.nodes_eq_flatMap]
  | listComp | setComp | generatorExp | dictComp =>
    simp [ExprKind.nodes, Generator.nodesList_eq_flatMap]
  | dict | compare =>
    simp [ExprKind.nodes, Expr.nodesList_eq_flatMap]
  | call func args keywords =>
    simp only [ExprKind.nodes, Expr.parts, Expr.children, Expr.nodesList_eq_flatMap, Keyword.nodesList_eq_flatMap,
      flatMap_cons, flatMap_append, append_assoc]
  | slice lower upper step =>
    simp only [ExprKind.nodes, Expr.parts, Expr.children, Expr.nodesOption_eq_flatMap, flatMap_append, append_assoc]

theorem Expr.nodes_everywhere (pos : Position) (kind : ExprKind) :
    (⟨pos, kind⟩ : Expr).nodes Node.everywhere = .expr ⟨pos, kind⟩ :: kind.nodes Node.everywhere := by
  simp [Expr.nodes, Node.everywhere]

/-- The nodes of an expression are the expression and the nodes of its parts. -/
theorem Expr.nodes_eq_parts (e : Expr) :
    e.nodes Node.everywhere = .expr e :: e.parts.flatMap (Expr.nodes Node.everywhere) := by
  obtain ⟨pos, kind⟩ := e
  rw [Expr.nodes_everywhere, ExprKind.nodes_eq_parts]

variable {e c : Expr} {node : Node} {R : Expr → Expr → Prop} {as : List α} {bs : List β}

theorem Expr.mem_nodes_iff :
    node ∈ e.nodes Node.everywhere ↔ node = .expr e ∨ ∃ c ∈ e.parts, node ∈ c.nodes Node.everywhere := by
  rw [Expr.nodes_eq_parts, mem_cons, mem_flatMap]

/-- Induction along the parts of expressions. -/
theorem Expr.induction_parts {motive : Expr → Prop} (step : ∀ e : Expr, (∀ c ∈ e.parts, motive c) → motive e)
    (e : Expr) : motive e := by
  induction hn : (e.nodes Node.everywhere).length using Nat.strongRecOn generalizing e with
  | _ n ih =>
    refine step e fun c hc => ih _ ?_ c rfl
    have hsub := (sublist_flatten_of_mem (mem_map_of_mem hc (f := Expr.nodes Node.everywhere))).length_le
    rw [← hn, Expr.nodes_eq_parts e, length_cons, List.flatMap]
    omega

theorem Expr.mem_nodes_self (e : Expr) : .expr e ∈ e.nodes Node.everywhere := Expr.mem_nodes_iff.mpr (.inl rfl)

theorem Expr.mem_parts_of_child (hc : c ∈ e.children) : c ∈ e.parts := by
  obtain ⟨pos, kind⟩ := e
  cases kind with
  | lambda | listComp | setComp | generatorExp | dictComp => cases hc
  | _ => exact hc

theorem Expr.mem_nodes_child (hc : c ∈ e.children) (hnode : node ∈ c.nodes Node.everywhere) :
    node ∈ e.nodes Node.everywhere :=
  Expr.mem_nodes_iff.mpr (.inr ⟨c, Expr.mem_parts_of_child hc, hnode⟩)

theorem Expr.mem_nodes_trans (hc : .expr c ∈ e.nodes Node.everywhere) (hnode : node ∈ c.nodes Node.everywhere) :
    node ∈ e.nodes Node.everywhere := by
  induction e using Expr.induction_parts with
  | _ e ih =>
    rcases Expr.mem_nodes_iff.mp hc with heq | ⟨part, hpart, hc⟩
    · cases heq
      exact hnode
    · exact Expr.mem_nodes_iff.mpr (.inr ⟨part, hpart, ih part hpart hc⟩)

theorem Expr.mem_names_of_called {name} (h : name ∈ e.calledNames) : name ∈ e.names := by
  obtain ⟨node, hnode, hname⟩ := mem_filterMap.mp h
  unfold Node.calledName? at hname
  split at hname
  · rename_i pos func args keywords
    have hcall : .expr func ∈ (⟨pos, .call func args keywords⟩ : Expr).nodes Node.everywhere := by
      rw [Expr.nodes_everywhere, ExprKind.nodes]
      simp [Expr.mem_nodes_self func]
    exact mem_filterMap.mpr ⟨.expr func, Expr.mem_nodes_trans hnode hcall, hname⟩
  · cases hname

/-! ### Expressions with other parts -/

section Parts

variable (R : Expr → Expr → Prop)

structure Keyword.Rebuilds (k new : Keyword) : Prop where
  name : new.name = k.name
  value : R k.value new.value

structure Params.Rebuilds (p new : Params) : Prop where
  names : new = { p with defaults := new.defaults, kwDefaults := new.kwDefaults }
  defaults : Forall₂ R p.defaults new.defaults
  kwDefaults : Forall₂ (Option.Rel R) p.kwDefaults new.kwDefaults

structure Generator.Rebuilds (g new : Generator) : Prop where
  target : R g.target new.target
  iter : R g.iter new.iter
  conditions : Forall₂ R g.conditions new.conditions
  isAsync : new.isAsync = g.isAsync

/-- An expression of the same kind with other parts, each related to the one in its place. -/
inductive Expr.Rebuilds : Expr → Expr → Prop
  | const {pos v} : Rebuilds ⟨pos, .const v⟩ ⟨pos, .const v⟩
  | name {pos id} : Rebuilds ⟨pos, .name id⟩ ⟨pos, .name id⟩
  | boolOp {pos op values values'} (h : Forall₂ R values values') :
    Rebuilds ⟨pos, .boolOp op values⟩ ⟨pos, .boolOp op values'⟩
  | binOp {pos op left left' right right'} (hleft : R left left')
    (hright : R right right') : Rebuilds ⟨pos, .binOp left op right⟩ ⟨pos, .binOp left' op right'⟩
  | unaryOp {pos op operand operand'} (h : R operand operand') :
    Rebuilds ⟨pos, .unaryOp op operand⟩ ⟨pos, .unaryOp op operand'⟩
  | lambda {pos params params' body body'} (hparams : params.Rebuilds R params')
    (hbody : R body body') : Rebuilds ⟨pos, .lambda params body⟩ ⟨pos, .lambda params' body'⟩
  | ifExp {pos test test' body body' orelse orelse'} (htest : R test test') (hbody : R body body')
    (horelse : R orelse orelse') : Rebuilds ⟨pos, .ifExp test body orelse⟩ ⟨pos, .ifExp test' body' orelse'⟩
  | dict {pos keys keys' values values'} (hkeys : Forall₂ R keys keys')
    (hvalues : Forall₂ R values values') : Rebuilds ⟨pos, .dict keys values⟩ ⟨pos, .dict keys' values'⟩
  | set {pos items items'} (h : Forall₂ R items items') : Rebuilds ⟨pos, .set items⟩ ⟨pos, .set items'⟩
  | list {pos items items'} (h : Forall₂ R items items') : Rebuilds ⟨pos, .list items⟩ ⟨pos, .list items'⟩
  | tuple {pos items items'} (h : Forall₂ R items items') : Rebuilds ⟨pos, .tuple items⟩ ⟨pos, .tuple items'⟩
  | listComp {pos item item' gens gens'} (hitem : R item item') (hgens : Forall₂ (Generator.Rebuilds R) gens gens') :
    Rebuilds ⟨pos, .listComp item gens⟩ ⟨pos, .listComp item' gens'⟩
  | setComp {pos item item' gens gens'} (hitem : R item item') (hgens : Forall₂ (Generator.Rebuilds R) gens gens') :
    Rebuilds ⟨pos, .setComp item gens⟩ ⟨pos, .setComp item' gens'⟩
  | generatorExp {pos item item' gens gens'} (hitem : R item item')
    (hgens : Forall₂ (Generator.Rebuilds R) gens gens') :
    Rebuilds ⟨pos, .generatorExp item gens⟩ ⟨pos, .generatorExp item' gens'⟩
  | dictComp {pos key key' value value' gens gens'} (hkey : R key key')
    (hvalue : R value value') (hgens : Forall₂ (Generator.Rebuilds R) gens gens') :
    Rebuilds ⟨pos, .dictComp key value gens⟩ ⟨pos, .dictComp key' value' gens'⟩
  | await {pos value value'} (h : R value value') : Rebuilds ⟨pos, .await value⟩ ⟨pos, .await value'⟩
  | yield {pos value value'} (h : Option.Rel R value value') : Rebuilds ⟨pos, .yield value⟩ ⟨pos, .yield value'⟩
  | yieldFrom {pos value value'} (h : R value value') : Rebuilds ⟨pos, .yieldFrom value⟩ ⟨pos, .yieldFrom value'⟩
  | starred {pos value value'} (h : R value value') : Rebuilds ⟨pos, .starred value⟩ ⟨pos, .starred value'⟩
  | compare {pos left left' ops comparators comparators'}
    (hleft : R left left') (hcomparators : Forall₂ R comparators comparators') :
    Rebuilds ⟨pos, .compare left ops comparators⟩ ⟨pos, .compare left' ops comparators'⟩
  | call {pos func func' args args' keywords keywords'}
    (hfunc : R func func') (hargs : Forall₂ R args args')
    (hkeywords : Forall₂ (Keyword.Rebuilds R) keywords keywords') :
    Rebuilds ⟨pos, .call func args keywords⟩ ⟨pos, .call func' args' keywords'⟩
  | attr {pos value value' name} (h : R value value') : Rebuilds ⟨pos, .attr value name⟩ ⟨pos, .attr value' name⟩
  | subscript {pos value value' slice slice'} (hvalue : R value value') (hslice : R slice slice') :
    Rebuilds ⟨pos, .subscript value slice⟩ ⟨pos, .subscript value' slice'⟩
  | slice {pos lower lower' upper upper' step step'} (hlower : Option.Rel R lower lower')
    (hupper : Option.Rel R upper upper') (hstep : Option.Rel R step step') :
    Rebuilds ⟨pos, .slice lower upper step⟩ ⟨pos, .slice lower' upper' step'⟩

end Parts

theorem forall₂_toList {R : α → β → Prop} {o : Option α} {o' : Option β} (h : Option.Rel R o o') :
    Forall₂ R o.toList o'.toList := by
  cases h with
  | none => exact .nil
  | some h => exact .cons h .nil

theorem Params.Rebuilds.names_eq {new} (h : p.Rebuilds R new) : new.names = p.names := by
  rw [h.names]
  rfl

theorem Params.Rebuilds.parts {new} (h : p.Rebuilds R new) : Forall₂ R p.parts new.parts :=
  rel_append h.defaults (rel_flatMap h.kwDefaults fun _ _ => forall₂_toList)

theorem Keyword.forall₂_values {ks'} (h : Forall₂ (Keyword.Rebuilds R) ks ks') :
    Forall₂ R (ks.map Keyword.value) (ks'.map Keyword.value) :=
  rel_map (fun _ _ hk => hk.value) h

theorem Keyword.map_name_of_rebuilds {ks'} (h : Forall₂ (Keyword.Rebuilds R) ks ks') :
    ks'.map Keyword.name = ks.map Keyword.name := by
  induction h with
  | nil => rfl
  | cons h _ ih => rw [map_cons, h.name, ih, map_cons]

theorem Expr.Rebuilds.parts (h : e.Rebuilds R new) :
    Forall₂ R e.parts new.parts := by
  have hgens : ∀ {gs gs'}, Forall₂ (Generator.Rebuilds R) gs gs' →
      Forall₂ R (gs.flatMap Generator.parts) (gs'.flatMap Generator.parts) := fun hgs =>
    rel_flatMap hgs fun g g' hg => .cons hg.target (.cons hg.iter hg.conditions)
  cases h with
  | const | name => exact .nil
  | boolOp h | set h | list h | tuple h => exact h
  | unaryOp h | await h | yieldFrom h | starred h | attr h => exact .cons h .nil
  | binOp hleft hright => exact .cons hleft (.cons hright .nil)
  | subscript hvalue hslice => exact .cons hvalue (.cons hslice .nil)
  | ifExp htest hbody horelse => exact .cons htest (.cons hbody (.cons horelse .nil))
  | yield h => exact forall₂_toList h
  | lambda hparams hbody => exact rel_append hparams.parts (.cons hbody .nil)
  | listComp hitem hgs | setComp hitem hgs | generatorExp hitem hgs =>
    exact rel_append (hgens hgs) (.cons hitem .nil)
  | dictComp hkey hvalue hgs => exact rel_append (hgens hgs) (.cons hkey (.cons hvalue .nil))
  | dict hkeys hvalues => exact rel_append hkeys hvalues
  | compare hleft hcomparators => exact .cons hleft hcomparators
  | call hfunc hargs hkeywords => exact .cons hfunc (rel_append hargs (Keyword.forall₂_values hkeywords))
  | slice hlower hupper hstep =>
    exact rel_append (forall₂_toList hlower) (rel_append (forall₂_toList hupper) (forall₂_toList hstep))

theorem forall₂_refl {R : α → α → Prop} (h : ∀ a, R a a) (as : List α) : Forall₂ R as as :=
  forall₂_same.mpr fun a _ => h a

section Refl

variable {R : Expr → Expr → Prop} (hR : ∀ e, R e e)
include hR

theorem Expr.optionRel_refl (o : Option Expr) : Option.Rel R o o := by
  cases o with
  | none => exact .none
  | some e => exact .some (hR e)

theorem Params.rebuilds_refl (p : Params) : p.Rebuilds R p :=
  ⟨by cases p; rfl, forall₂_refl hR _, forall₂_refl (Expr.optionRel_refl hR) _⟩

theorem Generator.rebuilds_refl (g : Generator) : g.Rebuilds R g := ⟨hR _, hR _, forall₂_refl hR _, rfl⟩

theorem Expr.rebuilds_refl (e : Expr) : e.Rebuilds R e := by
  have hgens : ∀ gs : List Generator, Forall₂ (Generator.Rebuilds R) gs gs :=
    forall₂_refl (Generator.rebuilds_refl hR)
  obtain ⟨pos, kind⟩ := e
  cases kind with
  | const | name => constructor
  | unaryOp | await | yieldFrom | starred | attr | binOp | subscript | ifExp => constructor <;> exact hR _
  | boolOp | set | list | tuple | dict => constructor <;> exact forall₂_refl hR _
  | yield | slice => constructor <;> exact Expr.optionRel_refl hR _
  | lambda => exact .lambda (Params.rebuilds_refl hR _) (hR _)
  | listComp | setComp | generatorExp =>
    constructor
    · exact hR _
    · exact hgens _
  | dictComp => exact .dictComp (hR _) (hR _) (hgens _)
  | compare => exact .compare (hR _) (forall₂_refl hR _)
  | call => exact .call (hR _) (forall₂_refl hR _) (forall₂_refl (fun k => ⟨rfl, hR k.value⟩) _)

end Refl

theorem Expr.Rebuilds.mono {R' : Expr → Expr → Prop} (hR : ∀ a b, R a b → R' a b) (h : e.Rebuilds R new) :
    e.Rebuilds R' new := by
  have hlist : ∀ {es es'}, Forall₂ R es es' → Forall₂ R' es es' := fun h => h.imp hR
  have hoption : ∀ {o o'}, Option.Rel R o o' → Option.Rel R' o o' := by
    intro o o' h
    cases h with
    | none => exact .none
    | some h => exact .some (hR _ _ h)
  have hgens : ∀ {gs gs'}, Forall₂ (Generator.Rebuilds R) gs gs' →
      Forall₂ (Generator.Rebuilds R') gs gs' := fun h =>
    h.imp fun _ _ hg => ⟨hR _ _ hg.target, hR _ _ hg.iter, hlist hg.conditions, hg.isAsync⟩
  cases h with
  | const | name => constructor
  | unaryOp | await | yieldFrom | starred | attr | binOp | subscript | ifExp =>
    constructor <;> exact hR _ _ (by assumption)
  | boolOp | set | list | tuple | dict => constructor <;> exact hlist (by assumption)
  | yield | slice => constructor <;> exact hoption (by assumption)
  | lambda h hbody => exact .lambda ⟨h.names, hlist h.defaults, h.kwDefaults.imp fun _ _ => hoption⟩ (hR _ _ hbody)
  | listComp hitem h | setComp hitem h | generatorExp hitem h =>
    constructor
    · exact hR _ _ hitem
    · exact hgens h
  | dictComp hkey hvalue h => exact .dictComp (hR _ _ hkey) (hR _ _ hvalue) (hgens h)
  | compare hleft h => exact .compare (hR _ _ hleft) (hlist h)
  | call hfunc hargs h => exact .call (hR _ _ hfunc) (hlist hargs) (h.imp fun _ _ hk => ⟨hk.name, hR _ _ hk.value⟩)

theorem Expr.Rebuilds.isScope (h : e.Rebuilds R new) : new.isScope = e.isScope := by
  cases h <;> rfl

theorem exists_of_forall₂ {R : α → β → Prop} (h : Forall₂ R as bs) {b : β} (hb : b ∈ bs) : ∃ a ∈ as, R a b := by
  induction h with
  | nil => cases hb
  | cons hR _ ih =>
    rcases mem_cons.mp hb with rfl | hb
    · exact ⟨_, mem_cons_self, hR⟩
    · obtain ⟨a, ha, hR⟩ := ih hb
      exact ⟨a, mem_cons_of_mem _ ha, hR⟩

theorem forall₂_of_mem {P : α → Prop} {R : α → β → Prop} (hP : ∀ a ∈ as, P a)
    (h : Forall₂ (fun a b => P a → R a b) as bs) : Forall₂ R as bs :=
  ((forall₂_and_left _ _).mpr ⟨hP, h⟩).imp fun _ _ h => h.2 h.1

theorem forall_mem_of_forall₂ {P : α → Prop} (h : Forall₂ (fun a _ => P a) as bs) : ∀ a ∈ as, P a := by
  induction h with
  | nil => simp
  | cons ha _ ih => exact forall_mem_cons.mpr ⟨ha, ih⟩

/-! ### Substitution -/

theorem Expr.eq_of_name {id} (h : e.name? = some id) : e = ⟨e.pos, .name id⟩ := by
  obtain ⟨pos, kind⟩ := e
  cases kind with
  | name => cases h; rfl
  | _ => cases h

section

variable (table : List (Ident × Expr))

theorem Expr.substituteList_eq_map (es : List Expr) :
    Expr.substituteList table es = es.map (Expr.substitute table) := by
  induction es with
  | nil => rfl
  | cons e es ih => rw [Expr.substituteList, ih, map_cons]

theorem Expr.substituteTargets_eq_map (es : List Expr) :
    Expr.substituteTargets table es = es.map (Expr.substituteTarget table) := by
  induction es with
  | nil => rfl
  | cons e es ih => rw [Expr.substituteTargets, ih, map_cons]

theorem Expr.substitute_of_name {id} (h : e.name? = some id) :
    e.substitute table = ⟨e.pos, replacement table id⟩ := by
  rw [Expr.eq_of_name h]
  rfl

end

section SubstitutedParts

variable {R : Expr → Expr → Prop}

theorem Expr.forall₂_substituteList {es} (h : ∀ c ∈ es, R c (c.substitute table)) :
    Forall₂ R es (Expr.substituteList table es) := by
  rw [Expr.substituteList_eq_map, forall₂_map_right_iff, forall₂_same]
  exact h

theorem Expr.rel_substituteOption {o} (h : ∀ c ∈ o.toList, R c (c.substitute table)) :
    Option.Rel R o (Expr.substituteOption table o) := by
  cases o with
  | none => exact .none
  | some c => exact .some (h c (by simp))

theorem Keyword.rebuilds_substituteList (h : ∀ c ∈ ks.map Keyword.value, R c (c.substitute table)) :
    Forall₂ (Keyword.Rebuilds R) ks (Keyword.substituteList table ks) := by
  induction ks with
  | nil => exact .nil
  | cons k ks ih =>
    obtain ⟨name, value⟩ := k
    rw [map_cons, forall_mem_cons] at h
    exact .cons ⟨rfl, h.1⟩ (ih h.2)

theorem Params.rebuilds_substitute (h : ∀ c ∈ p.parts, R c (c.substitute table)) :
    p.Rebuilds R (p.substitute table) := by
  obtain ⟨args, vararg, kwOnly, kwDefaults, kwarg, defaults⟩ := p
  obtain ⟨hdefaults, hkwDefaults⟩ := forall_mem_append.mp h
  refine ⟨rfl, Expr.forall₂_substituteList hdefaults, ?_⟩
  clear h hdefaults
  induction kwDefaults with
  | nil => exact .nil
  | cons o os ih =>
    rw [flatMap_cons, forall_mem_append] at hkwDefaults
    exact .cons (Expr.rel_substituteOption hkwDefaults.1) (ih hkwDefaults.2)

/-- Replacing names in an expression that is no name exchanges its parts. -/
theorem Expr.rebuilds_substitute (he : e.name? = none)
    (h : ∀ c ∈ e.parts, (e.isScope = true → R c c) ∧ R c (c.substitute table)) :
    e.Rebuilds R (e.substitute table) := by
  have hlist : ∀ {es}, (∀ c ∈ es, c ∈ e.parts) → Forall₂ R es (Expr.substituteList table es) :=
    fun hes => Expr.forall₂_substituteList fun c hc => (h c (hes c hc)).2
  have hoption : ∀ {o}, (∀ c ∈ o.toList, c ∈ e.parts) →
      Option.Rel R o (Expr.substituteOption table o) := fun ho => Expr.rel_substituteOption fun c hc =>
        (h c (ho c hc)).2
  have hgens : ∀ {gs}, e.isScope = true → (∀ c ∈ gs.flatMap Generator.parts, c ∈ e.parts) →
      Forall₂ (Generator.Rebuilds R) gs (Generator.substituteFirst table gs) := by
    intro gs hscope hgs
    have hkeep : ∀ c ∈ gs.flatMap Generator.parts, R c c := fun c hc => (h c (hgs c hc)).1 hscope
    cases gs with
    | nil => exact .nil
    | cons g gs =>
      obtain ⟨target, iter, conditions, isAsync⟩ := g
      refine .cons ⟨hkeep _ ?_, (h _ (hgs _ ?_)).2, forall₂_same.mpr fun c hc => hkeep _ ?_, rfl⟩
        (forall₂_same.mpr fun g hg => ⟨hkeep _ ?_, hkeep _ ?_, forall₂_same.mpr fun c hc => hkeep _ ?_, rfl⟩)
      · simp
      · simp
      · simp [hc]
      · exact mem_flatMap.mpr ⟨g, mem_cons_of_mem _ hg, by simp⟩
      · exact mem_flatMap.mpr ⟨g, mem_cons_of_mem _ hg, by simp⟩
      · exact mem_flatMap.mpr ⟨g, mem_cons_of_mem _ hg, by simp [hc]⟩
  obtain ⟨pos, kind⟩ := e
  have hpart : ∀ {c}, c ∈ Expr.parts ⟨pos, kind⟩ → R c (c.substitute table) := fun hc => (h _ hc).2
  cases kind with
  | const => exact .const
  | name => cases he
  | boolOp | set | list | tuple =>
    constructor
    exact hlist fun c hc => hc
  | unaryOp | await | yieldFrom | starred | attr | binOp | subscript | ifExp =>
    constructor <;> exact hpart (by simp)
  | yield => exact .yield (hoption fun c hc => hc)
  | lambda params body =>
    refine .lambda (Params.rebuilds_substitute fun c hc => hpart (mem_append_left _ hc)) ((h body ?_).1 rfl)
    exact mem_append_right _ mem_cons_self
  | listComp | setComp | generatorExp =>
    constructor
    · exact (h _ (by simp)).1 rfl
    · exact hgens rfl fun c hc => mem_append_left _ hc
  | dictComp =>
    exact .dictComp ((h _ (by simp)).1 rfl) ((h _ (by simp)).1 rfl) (hgens rfl fun c hc => mem_append_left _ hc)
  | dict =>
    exact .dict (hlist fun c hc => mem_append_left _ hc) (hlist fun c hc => mem_append_right _ hc)
  | compare => exact .compare (hpart mem_cons_self) (hlist fun c hc => mem_cons_of_mem _ hc)
  | call func args keywords =>
    refine .call (hpart mem_cons_self) (hlist fun c hc => mem_cons_of_mem _ (mem_append_left _ hc))
      (Keyword.rebuilds_substituteList fun c hc => hpart (mem_cons_of_mem _ (mem_append_right _ hc)))
  | slice =>
    exact .slice (hoption fun c hc => mem_append_left _ hc)
      (hoption fun c hc => mem_append_right _ (mem_append_left _ hc))
      (hoption fun c hc => mem_append_right _ (mem_append_right _ hc))

end SubstitutedParts

/-! ### The nodes of a substituted expression -/

/-- Where a node comes from if names are replaced below some nodes. -/
inductive Node.Comes (table : List (Ident × Expr)) (nodes : List Node) : Node → Prop
  | kept {node : Node} (h : node ∈ nodes) : Comes table nodes node
  | changed {e : Expr} (h : .expr e ∈ nodes) : Comes table nodes (.expr (e.substitute table))
  | inserted {p : Ident × Expr} {node : Node} (hp : p ∈ table) (h : node ∈ p.2.kind.nodes Node.everywhere) :
    Comes table nodes node

namespace Node

theorem Comes.mono {as bs} (h : Comes table as node) (hsub : ∀ node ∈ as, node ∈ bs) : Comes table bs node := by
  cases h with
  | kept h => exact .kept (hsub _ h)
  | changed h => exact .changed (hsub _ h)
  | inserted hp h => exact .inserted hp h

def ComeFrom (table : List (Ident × Expr)) (news olds : List Node) : Prop := ∀ node ∈ news, Comes table olds node

end Node

open Node

theorem comes_replacement (table : List (Ident × Expr)) (id : Ident) :
    ComeFrom table ((replacement table id).nodes everywhere) [] := by
  intro node hnode
  unfold replacement at hnode
  split at hnode
  · rename_i e he
    obtain ⟨l1, l2, rfl, _⟩ := lookup_eq_some_iff.mp he
    have hmem : (id, e) ∈ l1 ++ (id, e) :: l2 := by simp
    exact .inserted hmem hnode
  · cases hnode

/-- A node of an expression in which names have been replaced is a node of the expression, such a node with its names
replaced, or a part of a replacement. -/
theorem Expr.comes_substitute (table : List (Ident × Expr)) (e : Expr) :
    ComeFrom table ((e.substitute table).nodes everywhere) (e.nodes everywhere) := by
  induction e using Expr.induction_parts with
  | _ e ih =>
    intro node hnode
    cases hname : e.name? with
    | some id =>
      rw [Expr.substitute_of_name table hname, Expr.nodes_everywhere] at hnode
      rcases mem_cons.mp hnode with rfl | hnode
      · rw [← Expr.substitute_of_name table hname]
        exact .changed (Expr.mem_nodes_self e)
      · exact (comes_replacement table id node hnode).mono fun _ h => by cases h
    | none =>
      have hparts :
    e.Rebuilds (fun a b => ComeFrom table (b.nodes everywhere) (a.nodes everywhere)) (e.substitute table) :=
        Expr.rebuilds_substitute hname fun c hc => ⟨fun _ _ h => .kept h, ih c hc⟩
      rcases Expr.mem_nodes_iff.mp hnode with rfl | ⟨new, hnew, hnode⟩
      · exact .changed (Expr.mem_nodes_self e)
      · obtain ⟨c, hc, hcomes⟩ := exists_of_forall₂ hparts.parts hnew
        exact (hcomes node hnode).mono fun _ h => Expr.mem_nodes_iff.mpr (.inr ⟨c, hc, h⟩)

/-! ### The parts of statements -/

def Stmt.blocks (t : Stmt) : List (List Stmt) :=
  match t.kind with
  | .forLoop _ _ body orelse _ | .whileLoop _ body orelse | .cond _ body orelse => [body, orelse]
  | .withBlock _ body _ => [body]
  | .tryBlock body handlers orelse final => body :: handlers.map Handler.body ++ [orelse, final]
  | _ => []

def Stmt.bodies (t : Stmt) : List (List Stmt) :=
  match t.kind with
  | .functionDef fn => [fn.body]
  | .classDef cls => [cls.body]
  | _ => t.blocks

def Stmt.handlers (t : Stmt) : List Handler :=
  match t.kind with
  | .tryBlock _ handlers _ _ => handlers
  | _ => []

def Stmt.exprs (t : Stmt) : List Expr :=
  match t.kind with
  | .functionDef fn => fn.decorators ++ fn.params.parts
  | .classDef cls => cls.decorators ++ cls.bases ++ cls.keywords.map Keyword.value
  | .ret value => value.toList
  | .delete targets => targets
  | .assign targets value => targets ++ [value]
  | .augAssign target _ value => [target, value]
  | .forLoop target iter _ _ _ => [target, iter]
  | .whileLoop test _ _ | .cond test _ _ => [test]
  | .withBlock items _ _ => items.flatMap fun item => item.context :: item.target.toList
  | .raise exc cause => exc.toList ++ cause.toList
  | .tryBlock _ handlers _ _ => handlers.flatMap fun h => h.type.toList
  | .expr value => [value]
  | .importModules _ | .importFrom .. | .globals _ | .nonlocals _ | .pass | .brk | .cont => []

attribute [local simp] Stmt.bodies Stmt.blocks Stmt.exprs

theorem Stmt.mem_bodies_of_block {block} (h : block ∈ t.blocks) : t.isScope = false ∧ block ∈ t.bodies := by
  obtain ⟨pos, kind⟩ := t
  cases kind with
  | functionDef | classDef => cases h
  | _ => exact ⟨rfl, h⟩

theorem Node.inScope_handler (h : Handler) : inScope (.handler h) = true := rfl

theorem Node.everywhere_handler (h : Handler) : everywhere (.handler h) = true := rfl

section StatementNodes

variable {enters : Node → Bool}

theorem Stmt.nodesList_eq_flatMap (ss : List Stmt) : Stmt.nodesList enters ss = ss.flatMap (Stmt.nodes enters) := by
  induction ss with
  | nil => rfl
  | cons s ss ih => rw [Stmt.nodesList, ih, flatMap_cons]

theorem WithItem.nodesList_eq_flatMap (items : List WithItem) :
    WithItem.nodesList enters items =
      (items.flatMap fun item => item.context :: item.target.toList).flatMap (Expr.nodes enters) := by
  simp only [WithItem.nodesList, Expr.nodesOption_eq_flatMap, flatMap_assoc, flatMap_cons]

theorem Handler.nodesList_perm (henters : ∀ h, enters (.handler h) = true) (hs : List Handler) :
    (Handler.nodesList enters hs).Perm (hs.map .handler ++ (hs.flatMap fun h => h.type.toList).flatMap
      (Expr.nodes enters)
      ++ (hs.map Handler.body).flatMap (Stmt.nodesList enters)) := by
  classical
  induction hs with
  | nil => rfl
  | cons h hs ih =>
    obtain ⟨pos, type, name, body⟩ := h
    rw [perm_iff_count] at ih ⊢
    intro node
    have := ih node
    simp only [Handler.nodesList, henters, if_true, Expr.nodesOption_eq_flatMap, map_cons, flatMap_cons,
      flatMap_append, cons_append, count_cons, count_append] at this ⊢
    omega

theorem Stmt.nodes_perm (henters : ∀ h, enters (.handler h) = true) (t : Stmt) :
    (t.kind.nodes enters).Perm (t.handlers.map .handler ++ t.exprs.flatMap (Expr.nodes enters) ++
      t.bodies.flatMap (Stmt.nodesList enters)) := by
  obtain ⟨pos, kind⟩ := t
  cases kind with
  | tryBlock body handlers orelse final =>
    classical
    have hhandlers := Handler.nodesList_perm henters handlers
    rw [perm_iff_count] at hhandlers ⊢
    intro node
    have := hhandlers node
    simp only [StmtKind.nodes, Stmt.handlers, Stmt.exprs, Stmt.bodies, Stmt.blocks, flatMap_cons, flatMap_nil,
      cons_append, flatMap_append, count_append, count_nil] at this ⊢
    omega
  | functionDef fn =>
    obtain ⟨name, params, body, decorators, isAsync⟩ := fn
    simp [StmtKind.nodes, FunctionDef.nodes, Stmt.handlers, Expr.nodesList_eq_flatMap, Params.nodes_eq_flatMap]
  | classDef cls =>
    obtain ⟨name, bases, keywords, body, decorators⟩ := cls
    simp [StmtKind.nodes, ClassDef.nodes, Stmt.handlers, Expr.nodesList_eq_flatMap, Keyword.nodesList_eq_flatMap]
  | _ =>
    simp [StmtKind.nodes, Stmt.handlers, Expr.nodesList_eq_flatMap, Expr.nodesOption_eq_flatMap,
      WithItem.nodesList_eq_flatMap]

theorem Stmt.mem_nodes_iff (henters : ∀ h, enters (.handler h) = true) :
    node ∈ t.nodes enters ↔ node = .stmt t ∨ enters (.stmt t) = true ∧ ((∃ h ∈ t.handlers, node = .handler h) ∨
      (∃ e ∈ t.exprs, node ∈ e.nodes enters) ∨ ∃ body ∈ t.bodies, ∃ s ∈ body, node ∈ s.nodes enters) := by
  have hkind := (t.nodes_perm henters).mem_iff (a := node)
  simp only [mem_append, mem_map, mem_flatMap, Stmt.nodesList_eq_flatMap, or_assoc, eq_comm] at hkind
  obtain ⟨pos, kind⟩ := t
  rw [Stmt.nodes, mem_cons]
  split
  · rename_i h
    rw [hkind]
    simp only [h, true_and]
  · rename_i h
    simp only [h, not_mem_nil, Bool.false_eq_true, false_and]

theorem Stmt.nodes_everywhere (t : Stmt) : t.nodes Node.everywhere = .stmt t :: t.kind.nodes Node.everywhere := by
  obtain ⟨pos, kind⟩ := t
  simp [Stmt.nodes, Node.everywhere]

theorem Stmt.induction_bodies {motive : Stmt → Prop}
    (step : ∀ t : Stmt, (∀ body ∈ t.bodies, ∀ s ∈ body, motive s) → motive t) (t : Stmt) : motive t := by
  induction hn : (t.nodes Node.everywhere).length using Nat.strongRecOn generalizing t with
  | _ n ih =>
    refine step t fun body hbody s hs => ih _ ?_ s rfl
    have hbelow := (t.nodes_perm Node.everywhere_handler).length_eq
    have hbodies := (sublist_flatten_of_mem (mem_map_of_mem hbody (f := Stmt.nodesList Node.everywhere))).length_le
    have hstmts := (sublist_flatten_of_mem (mem_map_of_mem hs (f := Stmt.nodes Node.everywhere))).length_le
    rw [← List.flatMap, ← Stmt.nodesList_eq_flatMap] at hstmts
    rw [Stmt.nodes_everywhere, length_cons, hbelow] at hn
    simp only [length_append, List.flatMap] at hn
    omega

end StatementNodes

/-! ### Targets with other parts -/

/-- Whether the expression can stand where a name is bound or something is stored. -/
def Expr.isTarget (e : Expr) : Bool :=
  match e.kind with
  | .name _ | .tuple _ | .list _ | .starred _ | .attr .. | .subscript .. => true
  | _ => false

/-- A target is taken apart down to the objects and indices, which are visited. -/
structure Expr.TargetRules (R T : Expr → Expr → Prop) : Prop where
  name : ∀ {pos id}, T ⟨pos, .name id⟩ ⟨pos, .name id⟩
  tuple : ∀ {pos items items'}, Forall₂ T items items' → T ⟨pos, .tuple items⟩ ⟨pos, .tuple items'⟩
  list : ∀ {pos items items'}, Forall₂ T items items' → T ⟨pos, .list items⟩ ⟨pos, .list items'⟩
  starred : ∀ {pos value value'}, T value value' → T ⟨pos, .starred value⟩ ⟨pos, .starred value'⟩
  attr : ∀ {pos value value' name}, value' = value ∨ value.name? = none ∧ R value value' →
    T ⟨pos, .attr value name⟩ ⟨pos, .attr value' name⟩
  subscript : ∀ {pos value value' slice slice'}, value' = value ∨ value.name? = none ∧ R value value' →
    R slice slice' →
    T ⟨pos, .subscript value slice⟩ ⟨pos, .subscript value' slice'⟩
  other : ∀ {e new}, e.isTarget = false → R e new → T e new

theorem Expr.TargetRules.of_rebuilds (hrefl : ∀ e, R e e) (hrebuilt : ∀ {e new}, e.Rebuilds R new → R e new) :
    Expr.TargetRules R R := by
  have hbase : ∀ {value value'}, value' = value ∨ value.name? = none ∧ R value value' → R value value' := by
    rintro value value' (rfl | ⟨_, h⟩)
    · exact hrefl _
    · exact h
  exact ⟨hrefl _, fun h => hrebuilt (.tuple h), fun h => hrebuilt (.list h), fun h => hrebuilt (.starred h),
    fun h => hrebuilt (.attr (hbase h)), fun h hslice => hrebuilt (.subscript (hbase h) hslice), fun _ h => h⟩

theorem Expr.TargetRules.substituted {T : Expr → Expr → Prop} (hT : Expr.TargetRules R T)
    (hR : ∀ e, R e (e.substitute table)) (e : Expr) : T e (e.substituteTarget table) := by
  have hbase : ∀ value : Expr, value.substituteBase table = value ∨
      value.name? = none ∧ R value (value.substituteBase table) := by
    rintro ⟨pos, kind⟩
    cases kind with
    | name => exact .inl rfl
    | _ => exact .inr ⟨rfl, hR _⟩
  induction e using Expr.induction_parts with
  | _ e ih =>
    obtain ⟨pos, kind⟩ := e
    have hitems : ∀ items, (∀ c ∈ items, c ∈ Expr.parts ⟨pos, kind⟩) →
        Forall₂ T items (Expr.substituteTargets table items) := by
      intro items hmem
      rw [Expr.substituteTargets_eq_map, forall₂_map_right_iff, forall₂_same]
      exact fun c hc => ih c (hmem c hc)
    cases kind with
    | name => exact hT.name
    | tuple items => exact hT.tuple (hitems items fun _ hc => hc)
    | list items => exact hT.list (hitems items fun _ hc => hc)
    | starred value => exact hT.starred (ih value mem_cons_self)
    | attr value => exact hT.attr (hbase value)
    | subscript value slice => exact hT.subscript (hbase value) (hR slice)
    | _ =>
      simp only [Expr.substituteTarget]
      exact hT.other rfl (hR _)

/-! ### Statements with other parts -/

section StatementParts

variable (R T : Expr → Expr → Prop) (B : List Stmt → List Stmt → Prop)

/-- A definition with other expressions in its header. -/
inductive Stmt.RebuildsHeader : Stmt → Stmt → Prop
  | function {pos name params params' body decorators decorators'} {isAsync : Bool}
      (hdecorators : Forall₂ R decorators decorators')
    (hparams : params.Rebuilds R params') :
    RebuildsHeader ⟨pos, .functionDef ⟨name, params, body, decorators, isAsync⟩⟩
      ⟨pos, .functionDef ⟨name, params', body, decorators', isAsync⟩⟩
  | classDef {pos name bases bases' decorators decorators' keywords keywords' body}
      (hdecorators : Forall₂ R decorators decorators')
    (hbases : Forall₂ R bases bases') (hkeywords : Forall₂ (Keyword.Rebuilds R) keywords keywords') :
    RebuildsHeader ⟨pos, .classDef ⟨name, bases, keywords, body, decorators⟩⟩
      ⟨pos, .classDef ⟨name, bases', keywords', body, decorators'⟩⟩

structure WithItem.Rebuilds (item new : WithItem) : Prop where
  context : R item.context new.context
  target : Option.Rel T item.target new.target

structure Handler.Rebuilds (h new : Handler) : Prop where
  pos : new.pos = h.pos
  name : new.name = h.name
  type : Option.Rel R h.type new.type
  body : B h.body new.body

/-- A statement of the same kind with other expressions, targets and blocks, or a definition with another header. -/
inductive Stmt.Rebuilds : Stmt → Stmt → Prop
  | same (t : Stmt) : Rebuilds t t
  | header {t new : Stmt} (h : t.RebuildsHeader R new) : Rebuilds t new
  | ret {pos value value'} (h : Option.Rel R value value') : Rebuilds ⟨pos, .ret value⟩ ⟨pos, .ret value'⟩
  | delete {pos targets targets'} (h : Forall₂ T targets targets') :
    Rebuilds ⟨pos, .delete targets⟩ ⟨pos, .delete targets'⟩
  | assign {pos targets targets' value value'}
    (htargets : Forall₂ T targets targets') (hvalue : R value value') :
    Rebuilds ⟨pos, .assign targets value⟩ ⟨pos, .assign targets' value'⟩
  | augAssign {pos op target target' value value'} (htarget : T target target')
    (hvalue : R value value') : Rebuilds ⟨pos, .augAssign target op value⟩ ⟨pos, .augAssign target' op value'⟩
  | forLoop {pos target target' iter iter' body body' orelse orelse'} {isAsync : Bool}
    (htarget : T target target') (hiter : R iter iter') (hbody : B body body') (horelse : B orelse orelse') :
    Rebuilds ⟨pos, .forLoop target iter body orelse isAsync⟩ ⟨pos, .forLoop target' iter' body' orelse' isAsync⟩
  | whileLoop {pos test test' body body' orelse orelse'} (htest : R test test')
    (hbody : B body body') (horelse : B orelse orelse') :
    Rebuilds ⟨pos, .whileLoop test body orelse⟩ ⟨pos, .whileLoop test' body' orelse'⟩
  | cond {pos test test' body body' orelse orelse'} (htest : R test test')
    (hbody : B body body') (horelse : B orelse orelse') :
    Rebuilds ⟨pos, .cond test body orelse⟩ ⟨pos, .cond test' body' orelse'⟩
  | withBlock {pos items items' body body'} {isAsync : Bool}
    (hitems : Forall₂ (WithItem.Rebuilds R T) items items') (hbody : B body body') :
    Rebuilds ⟨pos, .withBlock items body isAsync⟩ ⟨pos, .withBlock items' body' isAsync⟩
  | raise {pos exc exc' cause cause'} (hexc : Option.Rel R exc exc')
    (hcause : Option.Rel R cause cause') : Rebuilds ⟨pos, .raise exc cause⟩ ⟨pos, .raise exc' cause'⟩
  | tryBlock {pos body body' orelse orelse' final final' handlers handlers'}
    (hbody : B body body') (hhandlers : Forall₂ (Handler.Rebuilds R B) handlers handlers')
    (horelse : B orelse orelse') (hfinal : B final final') :
    Rebuilds ⟨pos, .tryBlock body handlers orelse final⟩ ⟨pos, .tryBlock body' handlers' orelse' final'⟩
  | expr {pos value value'} (h : R value value') : Rebuilds ⟨pos, .expr value⟩ ⟨pos, .expr value'⟩

end StatementParts

section StatementParts

variable {R T : Expr → Expr → Prop} {B : List Stmt → List Stmt → Prop} {new : Stmt}

theorem Stmt.Rebuilds.exprs {D : Expr → Expr → Prop} (hrefl : ∀ e, D e e) (hR : ∀ {e new}, R e new → D e new)
    (hT : ∀ {e new}, T e new → D e new) (h : t.Rebuilds R T B new) : Forall₂ D t.exprs new.exprs := by
  have hlist : ∀ {es news}, Forall₂ R es news → Forall₂ D es news := fun h => h.imp fun _ _ => hR
  have htargets : ∀ {es news}, Forall₂ T es news → Forall₂ D es news := fun h => h.imp fun _ _ => hT
  cases h with
  | same => exact forall₂_refl hrefl _
  | header h =>
    cases h with
    | function hdecorators hparams => exact rel_append (hlist hdecorators) (hlist hparams.parts)
    | classDef hdecorators hbases hkeywords =>
      exact rel_append (rel_append (hlist hdecorators) (hlist hbases)) (hlist (Keyword.forall₂_values hkeywords))
  | ret h => exact hlist (forall₂_toList h)
  | delete h => exact htargets h
  | assign h hvalue => exact rel_append (htargets h) (.cons (hR hvalue) .nil)
  | augAssign htarget h | forLoop htarget h => exact .cons (hT htarget) (.cons (hR h) .nil)
  | whileLoop h | cond h | expr h => exact .cons (hR h) .nil
  | withBlock h => exact rel_flatMap h fun _ _ h => .cons (hR h.context) (htargets (forall₂_toList h.target))
  | raise hexc hcause => exact rel_append (hlist (forall₂_toList hexc)) (hlist (forall₂_toList hcause))
  | tryBlock _ h => exact rel_flatMap h fun _ _ h => hlist (forall₂_toList h.type)

theorem Stmt.Rebuilds.bodies {D : List Stmt → List Stmt → Prop} (hrefl : ∀ ts, D ts ts)
    (hB : ∀ {ts us}, B ts us → D ts us) (h : t.Rebuilds R T B new) : Forall₂ D t.bodies new.bodies := by
  cases h with
  | same => exact forall₂_refl hrefl _
  | header h => cases h <;> exact .cons (hrefl _) .nil
  | forLoop _ _ h h' | whileLoop _ h h' | cond _ h h' => exact .cons (hB h) (.cons (hB h') .nil)
  | withBlock _ h => exact .cons (hB h) .nil
  | tryBlock h hhandlers h' hfinal =>
    exact .cons (hB h) (rel_append (rel_map (fun _ _ h => hB h.body) hhandlers)
      (.cons (hB h') (.cons (hB hfinal) .nil)))
  | ret | delete | assign | augAssign | raise | expr => exact .nil

theorem Stmt.substituteList_eq_map (table : List (Ident × Expr)) (ts : List Stmt) :
    Stmt.substituteList table ts = ts.map (Stmt.substitute table) := by
  induction ts with
  | nil => rfl
  | cons t ts ih => rw [Stmt.substituteList, ih, map_cons]

theorem Stmt.rebuilds_substitute (hR : ∀ e, R e (e.substitute table)) (hT : ∀ e, T e (e.substituteTarget table))
    (hB : ∀ ts ∈ t.bodies, B ts (Stmt.substituteList table ts)) :
    t.Rebuilds R T B (t.substitute table) := by
  have hlist : ∀ es, Forall₂ R es (Expr.substituteList table es) := fun es =>
    Expr.forall₂_substituteList fun e _ => hR e
  have htargets : ∀ es, Forall₂ T es (Expr.substituteTargets table es) := fun es => by
    rw [Expr.substituteTargets_eq_map, forall₂_map_right_iff]
    exact forall₂_same.mpr fun e _ => hT e
  have hoption : ∀ o, Option.Rel R o (Expr.substituteOption table o) :=
    fun o => Expr.rel_substituteOption fun e _ => hR e
  obtain ⟨pos, kind⟩ := t
  cases kind with
  | functionDef fn =>
    obtain ⟨name, params, body, decorators, isAsync⟩ := fn
    exact .header (.function (hlist decorators) (Params.rebuilds_substitute fun e _ => hR e))
  | classDef cls =>
    obtain ⟨name, bases, keywords, body, decorators⟩ := cls
    exact .header (.classDef (hlist decorators) (hlist bases) (Keyword.rebuilds_substituteList fun e _ => hR e))
  | ret value => exact .ret (hoption value)
  | delete targets => exact .delete (htargets targets)
  | assign targets value => exact .assign (htargets targets) (hR value)
  | augAssign target op value => exact .augAssign (hT target) (hR value)
  | forLoop target iter body orelse =>
    exact .forLoop (hT target) (hR iter) (hB body (by simp)) (hB orelse (by simp))
  | whileLoop test body orelse =>
    exact .whileLoop (hR test) (hB body (by simp)) (hB orelse (by simp))
  | cond test body orelse =>
    exact .cond (hR test) (hB body (by simp)) (hB orelse (by simp))
  | withBlock items body =>
    refine .withBlock (forall₂_map_right_iff.mpr (forall₂_same.mpr fun item _ => ⟨hR _, ?_⟩)) (hB body (by simp))
    obtain ⟨context, target⟩ := item
    cases target with
    | none => exact .none
    | some target => exact .some (hT target)
  | raise exc cause => exact .raise (hoption exc) (hoption cause)
  | tryBlock body handlers orelse final =>
    have hhandlers : ∀ {hs}, (∀ h ∈ hs, B h.body (Stmt.substituteList table h.body)) →
        Forall₂ (Handler.Rebuilds R B) hs (Handler.substituteList table hs) := by
      intro hs hbodies
      induction hs with
      | nil => exact .nil
      | cons h hs ih =>
        obtain ⟨pos, type, name, body⟩ := h
        rw [forall_mem_cons] at hbodies
        exact .cons ⟨rfl, rfl, hoption type, hbodies.1⟩ (ih hbodies.2)
    refine .tryBlock (hB body (by simp)) (hhandlers fun h hh => hB h.body ?_) (hB orelse (by simp))
      (hB final (by simp))
    exact mem_append_left _ (mem_cons_of_mem _ (mem_map_of_mem hh))
  | expr value => exact .expr (hR value)
  | importModules | importFrom | globals | nonlocals | pass | brk | cont => exact .same _

theorem Stmt.related_substituteList (hR : ∀ e, R e (e.substitute table)) (hT : ∀ e, T e (e.substituteTarget table))
    (hnil : B [] []) (hcons : ∀ {t new ts us}, B [t] [new] → B ts us → B (t :: ts) (new :: us))
    (hB : ∀ {t new : Stmt}, t.Rebuilds R T B new → B [t] [new]) (ts : List Stmt) :
    B ts (Stmt.substituteList table ts) := by
  have hall : ∀ ts : List Stmt, (∀ t ∈ ts, B [t] [t.substitute table]) → B ts (Stmt.substituteList table ts) := by
    intro ts hts
    induction ts with
    | nil => exact hnil
    | cons t ts ih =>
      rw [forall_mem_cons] at hts
      exact hcons hts.1 (ih hts.2)
  refine hall ts fun t ht => ?_
  clear ht
  induction t using Stmt.induction_bodies with
  | _ t ih => exact hB (Stmt.rebuilds_substitute hR hT fun body hbody => hall body (ih body hbody))

end StatementParts

section SameParts

theorem eq_of_forall₂ {R : α → α → Prop} (hR : ∀ {a b}, R a b → b = a) {bs : List α} (h : Forall₂ R as bs) :
    bs = as := by
  induction h with
  | nil => rfl
  | cons h _ ih => rw [hR h, ih]

theorem eq_of_rel {R : α → α → Prop} (hR : ∀ {a b}, R a b → b = a) {a b : Option α} (h : Option.Rel R a b) :
    b = a := by
  cases h with
  | none => rfl
  | some h => rw [hR h]

theorem Keyword.Rebuilds.eq {k new : Keyword} (h : k.Rebuilds (fun e new => new = e) new) : new = k := by
  obtain ⟨name, value⟩ := k
  obtain ⟨name', value'⟩ := new
  exact congrArg₂ Keyword.mk h.name h.value

theorem Params.Rebuilds.eq {new} (h : p.Rebuilds (fun e new => new = e) new) : new = p := by
  rw [h.names, eq_of_forall₂ id h.defaults, eq_of_forall₂ (eq_of_rel id) h.kwDefaults]
  cases p
  rfl

theorem Expr.Rebuilds.eq (h : e.Rebuilds (fun e new => new = e) new) : new = e := by
  have hgens : ∀ {gs news}, Forall₂ (Generator.Rebuilds (fun e new => new = e)) gs news →
      news = gs := by
    refine eq_of_forall₂ ?_
    rintro ⟨target, iter, conditions, isAsync⟩ ⟨target', iter', conditions', isAsync'⟩
      ⟨htarget, hiter, hconditions, hasync⟩
    simp only [Generator.mk.injEq]
    exact ⟨htarget, hiter, eq_of_forall₂ id hconditions, hasync⟩
  cases h with
  | const | name => rfl
  | boolOp h | set h | list h | tuple h => rw [eq_of_forall₂ id h]
  | unaryOp h | await h | yieldFrom h | starred h | attr h => rw [h]
  | binOp h h' | subscript h h' => rw [h, h']
  | ifExp h h' h'' => rw [h, h', h'']
  | dict h h' => rw [eq_of_forall₂ id h, eq_of_forall₂ id h']
  | yield h => rw [eq_of_rel id h]
  | compare h h' => rw [h, eq_of_forall₂ id h']
  | call h h' hkeywords => rw [h, eq_of_forall₂ id h', eq_of_forall₂ Keyword.Rebuilds.eq hkeywords]
  | slice h h' h'' => rw [eq_of_rel id h, eq_of_rel id h', eq_of_rel id h'']
  | lambda hparams h => rw [hparams.eq, h]
  | listComp h hgs | setComp h hgs | generatorExp h hgs => rw [h, hgens hgs]
  | dictComp h h' hgs => rw [h, h', hgens hgs]

theorem Stmt.RebuildsHeader.eq {new} (h : t.RebuildsHeader (fun e new => new = e) new) : new = t := by
  cases h with
  | function hdecorators hparams => rw [eq_of_forall₂ id hdecorators, hparams.eq]
  | classDef hdecorators hbases hkeywords =>
    rw [eq_of_forall₂ id hdecorators, eq_of_forall₂ id hbases, eq_of_forall₂ Keyword.Rebuilds.eq hkeywords]

theorem WithItem.Rebuilds.eq {item new : WithItem}
    (h : item.Rebuilds (fun e new => new = e) (fun e new => new = e) new) :
    new = item := by
  obtain ⟨context, target⟩ := item
  obtain ⟨context', target'⟩ := new
  exact congrArg₂ WithItem.mk h.context (eq_of_rel id h.target)

theorem Stmt.Rebuilds.eq {new}
    (h : t.Rebuilds (fun e new => new = e) (fun e new => new = e) (fun ts us => us = ts) new) : new = t := by
  have hhandler : ∀ {h new : Handler}, h.Rebuilds (fun e new => new = e) (fun ts us => us = ts) new → new = h := by
    rintro ⟨pos, type, name, body⟩ ⟨pos', type', name', body'⟩ ⟨hpos, hname, htype, hbody⟩
    simp only [Handler.mk.injEq]
    exact ⟨hpos, eq_of_rel id htype, hname, hbody⟩
  cases h with
  | same => rfl
  | header h => exact h.eq
  | ret h => rw [eq_of_rel id h]
  | delete h => rw [eq_of_forall₂ id h]
  | assign h h' => rw [eq_of_forall₂ id h, h']
  | augAssign h h' => rw [h, h']
  | forLoop h h' hbody horelse => rw [h, h', hbody, horelse]
  | whileLoop h hbody horelse | cond h hbody horelse => rw [h, hbody, horelse]
  | withBlock h hbody => rw [eq_of_forall₂ WithItem.Rebuilds.eq h, hbody]
  | raise h h' => rw [eq_of_rel id h, eq_of_rel id h']
  | tryBlock hbody h horelse hfinal => rw [hbody, eq_of_forall₂ hhandler h, horelse, hfinal]
  | expr h => rw [h]

end SameParts

end Speculator
