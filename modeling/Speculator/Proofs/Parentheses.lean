import Mathlib.Data.List.Flatten
import Speculator.Proofs.Markup

/-!
# Parentheses around `yield` and around slices

Every expression of a statement stands in its source text, and where it stands tells whether it has parentheses of its
own and whether it lies in parentheses within brackets.
-/

namespace Speculator

open List hiding concat

open Markup

/-! ## How an expression fits its place -/

/-- A place directly in brackets is in no parentheses within them, and an element of a tuple is. -/
def Place.Fits (grouped : Bool) (place : Place) : Prop :=
  (place = .index → grouped = false) ∧ ∀ tuple, place = .item tuple → grouped = true

/-- An expression other than a number has parentheses when it binds less than its place requires. -/
def Markup.Occurrence.Fits (o : Occurrence) : Prop :=
  (o.expr.kind.isIntLiteral = false →
    o.wrapped = decide (o.expr.kind.precedence.ctorIdx < o.place.required.ctorIdx)) ∧ o.place.Fits o.grouped

def Markup.Fits (grouped : Bool) (m : Markup) : Prop := ∀ o ∈ m.occurrences grouped, o.Fits

namespace Place

@[simp] theorem fits_operand (g : Bool) (p : Precedence) (h : Precedence.yield.ctorIdx < p.ctorIdx) :
    (operand p h).Fits g := by simp [Place.Fits]

@[simp] theorem fits_statement (g : Bool) : statement.Fits g := by simp [Place.Fits]

@[simp] theorem fits_assigned (g : Bool) : assigned.Fits g := by simp [Place.Fits]

@[simp] theorem fits_returned (g : Bool) : returned.Fits g := by simp [Place.Fits]

@[simp] theorem fits_target (g : Bool) : target.Fits g := by simp [Place.Fits]

@[simp] theorem fits_iterable (g : Bool) : iterable.Fits g := by simp [Place.Fits]

@[simp] theorem fits_yielded (g : Bool) : yielded.Fits g := by simp [Place.Fits]

@[simp] theorem fits_index : index.Fits false := by simp [Place.Fits]

@[simp] theorem fits_item (tuple : Place) : (item tuple).Fits true := by simp [Place.Fits]

end Place

/-! ## No expression is left out -/

def Params.isPaired (p : Params) : Bool :=
  decide (p.defaults.length ≤ p.args.length) && decide (p.kwDefaults.length ≤ p.kwOnly.length)

def Node.isPaired : Node → Bool
  | .expr ⟨_, .dict keys values⟩ => keys.length == values.length
  | .expr ⟨_, .compare _ ops comparators⟩ => ops.length == comparators.length
  | .expr ⟨_, .lambda params _⟩ => params.isPaired
  | .stmt ⟨_, .functionDef fn⟩ => fn.params.isPaired
  | _ => true

def Node.expr? : Node → Option Expr
  | .expr e => some e
  | _ => none

/-- The expressions of the nodes stand in a text: each fits its place, and is there as often as among the nodes if all
parts of the nodes are written out.  By way of `c` this is used for one more node. -/
structure Markup.Writes (c : Prop) (g : Bool) (m : Markup) (ns : List Node) : Prop where
  fits : m.Fits g
  perm : c → (∀ n ∈ ns, n.isPaired = true) → ((m.occurrences g).map Occurrence.expr).Perm (ns.filterMap Node.expr?)

namespace Markup

variable {g : Bool}

theorem occurrences_append (a b : Markup) : (a ++ b).occurrences g = a.occurrences g ++ b.occurrences g := rfl

@[simp] theorem occurrences_text (s : String) : (text s).occurrences g = [] := rfl

theorem occurrences_concat (ms : List Markup) : (concat ms).occurrences g = ms.flatMap (occurrences g) := by
  induction ms with
  | nil => rfl
  | cons m ms ih => rw [concat, occurrences_append, ih, flatMap_cons]

theorem occurrences_join (sep : String) (ms : List Markup) :
    (join sep ms).occurrences g = (concat ms).occurrences g := by
  induction ms with
  | nil => rfl
  | cons m ms ih =>
    cases ms with
    | nil => exact (append_nil _).symm
    | cons m' ms =>
      have hjoin : join sep (m :: m' :: ms) = m ++ .text sep ++ join sep (m' :: ms) := rfl
      rw [hjoin, occurrences_append, occurrences_append, occurrences_text, append_nil, ih]
      rfl

theorem perm_zipWith {α β : Type} {f : α → β → Markup} {u : α → List Occurrence} {v : β → List Occurrence}
    (hf : ∀ a b, (f a b).occurrences g = u a ++ v b) {as : List α} {bs : List β} (hlen : as.length = bs.length) :
    ((List.zipWith f as bs).flatMap (occurrences g)).Perm (as.flatMap u ++ bs.flatMap v) := by
  induction as generalizing bs with
  | nil =>
    cases bs with
    | nil => rfl
    | cons b bs => cases hlen
  | cons a as ih =>
    cases bs with
    | nil => cases hlen
    | cons b bs =>
      have hrest := ih (Nat.succ.inj hlen)
      rw [zipWith_cons_cons, flatMap_cons, hf, flatMap_cons, flatMap_cons, append_assoc, append_assoc]
      exact .append_left (u a) ((hrest.append_left (v b)).trans (perm_append_comm_assoc ..))

theorem subset_zipWith {α β : Type} {f : α → β → Markup} {u : α → List Occurrence} {v : β → List Occurrence}
    (hf : ∀ a b, (f a b).occurrences g = u a ++ v b) (as : List α) (bs : List β) :
    (List.zipWith f as bs).flatMap (occurrences g) ⊆ as.flatMap u ++ bs.flatMap v := by
  intro o ho
  obtain ⟨m, hm, ho⟩ := mem_flatMap.mp ho
  rw [← map_uncurry_zip_eq_zipWith] at hm
  obtain ⟨⟨a, b⟩, hab, rfl⟩ := mem_map.mp hm
  obtain ⟨ha, hb⟩ := of_mem_zip hab
  have ho : o ∈ u a ++ v b := hf a b ▸ ho
  rcases mem_append.mp ho with ho | ho
  · exact mem_append_left _ (mem_flatMap_of_mem ha ho)
  · exact mem_append_right _ (mem_flatMap_of_mem hb ho)

namespace Writes

variable {c : Prop} {m m' : Markup} {ms ms' : List Markup} {ns ns' ns'' : List Node} {s : String}

theorem text : (text s).Writes c g [] := ⟨by simp [Fits], fun _ _ => .nil⟩

theorem append (h : m.Writes c g ns) (h' : m'.Writes c g ns') : (m ++ m').Writes c g (ns ++ ns') := by
  refine ⟨forall_mem_append.mpr ⟨h.fits, h'.fits⟩, fun hc hns => ?_⟩
  rw [forall_mem_append] at hns
  rw [occurrences_append, map_append, filterMap_append]
  exact (h.perm hc hns.1).append (h'.perm hc hns.2)

theorem of_perm (h : m.Writes c g ns) (hns : ns.Perm ns') : m.Writes c g ns' :=
  ⟨h.fits, fun hc hns' => (h.perm hc fun n hn => hns' n (hns.mem_iff.mp hn)).trans (hns.filterMap _)⟩

theorem append_nil (h : m.Writes c g ns) : m.Writes c g (ns ++ []) := (List.append_nil ns).symm ▸ h

theorem assoc (h : m.Writes c g (ns ++ (ns' ++ ns''))) : m.Writes c g (ns ++ ns' ++ ns'') :=
  (append_assoc ns ns' ns'').symm ▸ h

theorem text_append (h : m.Writes c g ns) : (.text s ++ m).Writes c g ns := append text h

theorem append_text (h : m.Writes c g ns) : (m ++ .text s).Writes c g ns :=
  List.append_nil ns ▸ append h text

theorem group (h : m.Writes c true ns) : (group m).Writes c g ns := ⟨h.fits, h.perm⟩

theorem index (h : m.Writes c false ns) : (index m).Writes c g ns := ⟨h.fits, h.perm⟩

theorem node {w : Bool} {place e} (he : Occurrence.Fits ⟨place, e, w, g⟩)
    (h : m.Writes ((Node.expr e).isPaired = true) (g || w) ns) : (node w place e m).Writes c g (.expr e :: ns) := by
  refine ⟨forall_mem_cons.mpr ⟨he, h.fits⟩, fun _ hns => ?_⟩
  rw [forall_mem_cons] at hns
  exact (h.perm hns.1 hns.2).cons e

theorem stmt {s} (h : m.Writes ((Node.stmt s).isPaired = true) g ns) : m.Writes c g (.stmt s :: ns) := by
  refine ⟨h.fits, fun _ hns => ?_⟩
  rw [forall_mem_cons] at hns
  exact h.perm hns.1 hns.2

theorem handler {hd} (h : m.Writes c g ns) : m.Writes c g (.handler hd :: ns) :=
  ⟨h.fits, fun hc hns => h.perm hc (forall_mem_cons.mp hns).2⟩

theorem header {level : Nat} (h : m.Writes c g ns) : (line level (.text s) ++ m).Writes c g ns :=
  append (text_append text) h

theorem of_subset (h : m.Writes c g ns) (hsub : m'.occurrences g ⊆ m.occurrences g)
    (hperm : c → (m'.occurrences g).Perm (m.occurrences g)) : m'.Writes c g ns :=
  ⟨fun o ho => h.fits o (hsub ho), fun hc hns => ((hperm hc).map _).trans (h.perm hc hns)⟩

theorem of_eq (h : m.Writes c g ns) (heq : m'.occurrences g = m.occurrences g) : m'.Writes c g ns :=
  h.of_subset (heq ▸ Subset.refl _) fun _ => heq ▸ .refl _

theorem join {sep : String} (h : (concat ms).Writes c g ns) : (join sep ms).Writes c g ns :=
  h.of_eq (occurrences_join sep ms)

theorem concat_append (h : (concat ms).Writes c g ns) (h' : (concat ms').Writes c g ns') :
    (concat (ms ++ ms')).Writes c g (ns ++ ns') :=
  (h.append h').of_eq (by rw [occurrences_append, occurrences_concat, occurrences_concat, occurrences_concat,
    flatMap_append])

theorem concat_map {f : Markup → Markup} (h : (concat ms).Writes c g ns)
    (hf : ∀ m, (f m).occurrences g = m.occurrences g) : (concat (ms.map f)).Writes c g ns :=
  h.of_eq (by simp only [occurrences_concat, flatMap_map, hf])

theorem entries {sep : String} (h : (concat ms).Writes c g ns) (h' : (concat ms').Writes c g ns')
    (hlen : c → ms.length = ms'.length) :
    (concat (List.zipWith (fun k v => k ++ .text sep ++ v) ms ms')).Writes c g (ns ++ ns') := by
  have hf : ∀ k v : Markup, (k ++ .text sep ++ v).occurrences g = k.occurrences g ++ v.occurrences g := by
    intro k v
    rw [occurrences_append, occurrences_append, occurrences_text, List.append_nil]
  apply (h.append h').of_subset
  · simpa only [occurrences_append, occurrences_concat] using subset_zipWith hf ms ms'
  · intro hc
    simpa only [occurrences_append, occurrences_concat] using perm_zipWith hf (hlen hc)

theorem links {ops : List CompareOp} (h : (concat ms).Writes c g ns) (hlen : c → ops.length = ms.length) :
    (concat (List.zipWith (fun op m => .text (" " ++ op.symbol ++ " ") ++ m) ops ms)).Writes c g ns := by
  have hf : ∀ (op : CompareOp) (m : Markup),
      (.text (" " ++ op.symbol ++ " ") ++ m : Markup).occurrences g = [] ++ m.occurrences g := fun _ _ => rfl
  have hnone : ops.flatMap (fun _ => ([] : List Occurrence)) = [] := by simp
  apply h.of_subset
  · simpa only [occurrences_concat, hnone, nil_append] using subset_zipWith hf ops ms
  · intro hc
    simpa only [occurrences_concat, hnone, nil_append] using perm_zipWith hf (hlen hc)

end Writes

theorem occurrences_paramMarkups (names : List Ident) (defaults : List (Option Markup)) :
    (paramMarkups names defaults).flatMap (occurrences g) =
      ((defaults.take names.length).filterMap id).flatMap (occurrences g) := by
  induction names generalizing defaults with
  | nil => simp [paramMarkups]
  | cons name names ih =>
    rcases defaults with - | ⟨- | m, defaults⟩
    · simpa [paramMarkups] using ih []
    · simpa [paramMarkups] using ih defaults
    · simpa [paramMarkups, occurrences_append] using ih defaults

end Markup

theorem Params.occurrences_arrange {g : Bool} (p : Params) (defaults : List Markup)
    (kwDefaults : List (Option Markup)) : (p.arrange defaults kwDefaults).occurrences g =
      (defaults.take p.args.length).flatMap (occurrences g) ++
        ((kwDefaults.take p.kwOnly.length).filterMap id).flatMap (occurrences g) := by
  have hargs : ((List.replicate (p.args.length - defaults.length) none ++ defaults.map some).take
      p.args.length).filterMap id = defaults.take p.args.length := by
    rcases Nat.le_total defaults.length p.args.length with hle | hle
    · rw [take_of_length_le (by simp; omega), take_of_length_le hle]
      simp
    · simp [Nat.sub_eq_zero_of_le hle, ← map_take]
  rw [Params.arrange, occurrences_join, occurrences_concat]
  simp only [flatMap_append, occurrences_paramMarkups, hargs]
  cases p.vararg <;> cases p.kwarg <;> cases p.kwOnly <;> simp

theorem Params.writes_arrange {c : Prop} {g : Bool} {p : Params} {defaults : List Markup}
    {kwDefaults : List (Option Markup)} {ns ns' : List Node} (h : (concat defaults).Writes c g ns)
    (h' : (concat (kwDefaults.filterMap id)).Writes c g ns')
    (hlen : c → defaults.length ≤ p.args.length ∧ kwDefaults.length ≤ p.kwOnly.length) :
    (p.arrange defaults kwDefaults).Writes c g (ns ++ ns') := by
  apply (h.append h').of_subset
  · rw [Params.occurrences_arrange, occurrences_append, occurrences_concat, occurrences_concat]
    have hargs := (take_sublist p.args.length defaults).flatMap (occurrences g)
    have hkwOnly := ((take_sublist p.kwOnly.length kwDefaults).filterMap id).flatMap (occurrences g)
    exact (hargs.append hkwOnly).subset
  · intro hc
    obtain ⟨hargs, hkwOnly⟩ := hlen hc
    rw [Params.occurrences_arrange, occurrences_append, occurrences_concat, occurrences_concat,
      take_of_length_le hargs, take_of_length_le hkwOnly]

theorem Expr.length_markups {place} (es : List Expr) : (Expr.markups place es).length = es.length := by
  induction es with
  | nil => rfl
  | cons e es ih => rw [Expr.markups, length_cons, ih, length_cons]

theorem Expr.length_markupOptions (os : List (Option Expr)) : (Expr.markupOptions os).length = os.length := by
  induction os with
  | nil => rfl
  | cons o os ih => cases o <;> rw [Expr.markupOptions, length_cons, ih, length_cons]

mutual

theorem Expr.writes {c : Prop} {g : Bool} {place} (h : place.Fits g := by simp) :
    (e : Expr) → (e.markup place).Writes c g (e.nodes Node.everywhere)
  | ⟨pos, kind⟩ => .node ⟨fun _ => rfl, h⟩ (kind.writes pos)

theorem ExprKind.writes {g : Bool} {place} (pos : Position) : (kind : ExprKind) →
    (kind.markup place).Writes ((Node.expr ⟨pos, kind⟩).isPaired = true) g (kind.nodes Node.everywhere)
  | .const _ | .name _ | .yield none | .set [] => .text
  | .boolOp _ values => .join (Expr.writesAll (by simp) values)
  | .binOp left _ right => .append (.append_text left.writes) right.writes
  | .unaryOp _ operand => .text_append operand.writes
  | .lambda params body => .append (.append_text (.text_append (params.writes id))) body.writes
  | .ifExp test body orelse =>
    .append (.append_text (.of_perm (.append (.append_text body.writes) test.writes)
      perm_append_comm)) orelse.writes
  | .dict keys values =>
    .append_text (.text_append (.join (.entries (Expr.writesAll (by simp) keys) (Expr.writesAll (by simp) values)
      fun hc => by simpa [Expr.length_markups, Node.isPaired] using hc)))
  | .set (item :: items) | .list items => .append_text (.text_append (.join (Expr.writesAll (by simp) _)))
  | .tuple [] => .group .text
  | .tuple [item] => .group (.append item.writes .text)
  | .tuple (first :: second :: items) => .group (.join (Expr.writesAll (by simp) (first :: second :: items)))
  | .listComp item generators | .setComp item generators => .append_text (.of_perm
      (.append (.text_append item.writes) (Generator.writes generators)) perm_append_comm)
  | .generatorExp item generators =>
    .group (.of_perm (.append item.writes (Generator.writes generators)) perm_append_comm)
  | .dictComp key value generators => .append_text (.assoc (.of_perm (.append (.append (.append_text (.text_append
      key.writes)) value.writes) (Generator.writes generators)) perm_append_comm))
  | .await value | .yieldFrom value | .starred value | .yield (some value) => .text_append value.writes
  | .compare left ops comparators =>
    .append left.writes (.links (Expr.writesAll (by simp) comparators)
      fun hc => by simpa [Expr.length_markups, Node.isPaired] using hc)
  | .call func args keywords => .assoc (.append func.writes
      (.group (.join (.concat_append (Expr.writesAll (by simp) args) (Keyword.writes keywords)))))
  | .attr ⟨pos, kind⟩ _ =>
    .append_text (.node ⟨fun h => by simp [show kind.isIntLiteral = false from h], by simp⟩ (kind.writes pos))
  | .subscript value slice => .append value.writes (.index slice.writes)
  | .slice lower upper none =>
    .append_nil (.append (.append_text (Expr.writesOption lower)) (Expr.writesOption upper))
  | .slice lower upper (some step) =>
    .append (.append_text (.append (.append_text (Expr.writesOption lower)) (Expr.writesOption upper)))
      step.writes

theorem Expr.writesAll {c : Prop} {g : Bool} {place} (h : place.Fits g) :
    (es : List Expr) → (concat (Expr.markups place es)).Writes c g (Expr.nodesList Node.everywhere es)
  | [] => .text
  | e :: es => .append (e.writes h) (Expr.writesAll h es)

theorem Expr.writesOption {c : Prop} {g : Bool} :
    (o : Option Expr) → (Expr.markupOption o).Writes c g (Expr.nodesOption Node.everywhere o)
  | none => .text
  | some e => e.writes

theorem Expr.writesOptions {c : Prop} {g : Bool} : (os : List (Option Expr)) →
    (concat ((Expr.markupOptions os).filterMap id)).Writes c g (Expr.nodesOptions Node.everywhere os)
  | [] => .text
  | none :: os => Expr.writesOptions os
  | some e :: os => .append e.writes (Expr.writesOptions os)

theorem Params.writes {c : Prop} {g : Bool} :
    (p : Params) → (c → p.isPaired = true) → p.markup.Writes c g (p.nodes Node.everywhere)
  | ⟨_, _, _, kwDefaults, _, defaults⟩ => fun h =>
    Params.writes_arrange (Expr.writesAll (by simp) defaults) (Expr.writesOptions kwDefaults)
      fun hc => by simpa [Params.isPaired, Expr.length_markups, Expr.length_markupOptions] using h hc

theorem Keyword.writes {c : Prop} {g : Bool} :
    (ks : List Keyword) → (concat (Keyword.markups ks)).Writes c g (Keyword.nodesList Node.everywhere ks)
  | [] => .text
  | ⟨some _, value⟩ :: ks | ⟨none, value⟩ :: ks => .append (.text_append value.writes) (Keyword.writes ks)

theorem Generator.writes {c : Prop} {g : Bool} :
    (gs : List Generator) → (Generator.markup gs).Writes c g (Generator.nodesList Node.everywhere gs)
  | [] => .text
  | ⟨target, iter, conditions, _⟩ :: gs =>
    .append (.append (.append (.append_text (.text_append target.writes)) iter.writes)
      (.concat_map (Expr.writesAll (by simp) conditions) fun _ => rfl)) (Generator.writes gs)

end

variable {c : Prop} {g : Bool} {level : Nat}

theorem WithItem.writes (item : WithItem) :
    item.markup.Writes c g (item.context.nodes Node.everywhere ++ Expr.nodesOption Node.everywhere item.target) := by
  obtain ⟨context, target⟩ := item
  cases target with
  | none => exact .append_nil context.writes
  | some target => exact .append (.append_text context.writes) target.writes

theorem WithItem.writesAll (items : List WithItem) :
    (concat (items.map WithItem.markup)).Writes c g (WithItem.nodesList Node.everywhere items) := by
  induction items with
  | nil => exact .text
  | cons item items ih => exact .append item.writes ih

theorem writes_decoratorMarkups (decorators : List Expr) :
    (concat (decoratorMarkups level decorators)).Writes c g (Expr.nodesList Node.everywhere decorators) := by
  induction decorators with
  | nil => exact .text
  | cons d ds ih => exact .append (.text_append (.text_append d.writes)) ih

theorem writes_optionMarkup (keyword : String) (o : Option Expr) :
    (optionMarkup keyword o).Writes c g (Expr.nodesOption Node.everywhere o) := by
  cases o with
  | none => exact .text
  | some e => exact .text_append e.writes

mutual

theorem Stmt.writes {c : Prop} {level : Nat} :
    (s : Stmt) → (concat (s.markup level)).Writes c false (s.nodes Node.everywhere)
  | ⟨pos, kind⟩ => .stmt (kind.writes pos)

theorem StmtKind.writes {level : Nat} (pos : Position) : (kind : StmtKind) → (concat (kind.markup level)).Writes
    ((Node.stmt ⟨pos, kind⟩).isPaired = true) false (kind.nodes Node.everywhere)
  | .functionDef fn => fn.writes id
  | .classDef cls => cls.writes
  | .ret none | .importModules _ | .importFrom .. | .globals _ | .nonlocals _ | .pass | .brk | .cont =>
    .append_text (.text_append .text)
  | .ret (some value) => .append_text (.text_append (.text_append value.writes))
  | .delete targets => .append_text (.text_append (.text_append (.join (Expr.writesAll (by simp) targets))))
  | .assign targets value => .append_text (.text_append (.append
      (.concat_map (Expr.writesAll (by simp) targets) fun _ => append_nil _) value.writes))
  | .augAssign target _ value =>
    .append_text (.text_append (.append (.append_text target.writes) value.writes))
  | .forLoop target iter body orelse _ => .assoc (.append (.text_append (.append_text (.append (.append_text
      (.text_append target.writes)) iter.writes)))
      (.concat_append (Stmt.writesBody body) (Stmt.writesElse orelse)))
  | .whileLoop test body orelse => .assoc (.append (.text_append (.append_text (.text_append test.writes)))
      (.concat_append (Stmt.writesBody body) (Stmt.writesElse orelse)))
  | .cond test body orelse => .assoc (.append (.text_append (.append_text (.text_append test.writes)))
      (.concat_append (Stmt.writesBody body) (Stmt.writesElif orelse)))
  | .withBlock items body _ =>
    .append (.text_append (.append_text (.text_append (.join (WithItem.writesAll items))))) (Stmt.writesBody body)
  | .raise exc cause => .append_text (.text_append
      (.append (.text_append (writes_optionMarkup " " exc)) (writes_optionMarkup " from " cause)))
  | .tryBlock body handlers orelse final =>
    .header (.concat_append (.concat_append (.concat_append (Stmt.writesBody body) (Handler.writes handlers))
      (Stmt.writesElse orelse)) (Stmt.writesBlock final))
  | .expr value => .append_text (.text_append value.writes)

theorem FunctionDef.writes {c : Prop} {level : Nat} : (fn : FunctionDef) → (c → fn.params.isPaired = true) →
    (concat (fn.markup level)).Writes c false (fn.nodes Node.everywhere)
  | ⟨_, params, body, decorators, _⟩ => fun h => .assoc (.concat_append (writes_decoratorMarkups decorators)
      (.append (.text_append (.append_text (.text_append (.group (params.writes h))))) (Stmt.writesBody body)))

theorem ClassDef.writes {c : Prop} {level : Nat} :
    (cls : ClassDef) → (concat (cls.markup level)).Writes c false (cls.nodes Node.everywhere)
  | ⟨_, bases, keywords, body, decorators⟩ => by
    have hbases : ∀ g, (join ", " (Expr.markups .test bases ++ Keyword.markups keywords)).Writes c g
        (Expr.nodesList Node.everywhere bases ++ Keyword.nodesList Node.everywhere keywords) :=
      fun g => .join (.concat_append (Expr.writesAll (by simp) bases) (Keyword.writes keywords))
    rw [ClassDef.nodes, append_assoc _ _ (Keyword.nodesList _ keywords)]
    refine .assoc (.concat_append (writes_decoratorMarkups decorators)
      (.append (.text_append (.append_text (.text_append ?_))) (Stmt.writesBody body)))
    split
    · exact hbases false
    · exact .group (hbases true)

theorem Stmt.writesAll {c : Prop} {level : Nat} :
    (ss : List Stmt) → (concat (Stmt.listMarkup level ss)).Writes c false (Stmt.nodesList Node.everywhere ss)
  | [] => .text
  | s :: ss => .concat_append s.writes (Stmt.writesAll ss)

theorem Stmt.writesBody {c : Prop} {level : Nat} :
    (ss : List Stmt) → (concat (Stmt.bodyMarkup level ss)).Writes c false (Stmt.nodesList Node.everywhere ss)
  | [] => .append_text (.text_append .text)
  | s :: ss => .concat_append s.writes (Stmt.writesAll ss)

theorem Stmt.writesBlock {c : Prop} {level : Nat} {header : String} :
    (ss : List Stmt) → (concat (Stmt.blockMarkup level header ss)).Writes c false (Stmt.nodesList Node.everywhere ss)
  | [] => .text
  | s :: ss => .header (.concat_append s.writes (Stmt.writesAll ss))

theorem Stmt.writesElse {c : Prop} {level : Nat} :
    (ss : List Stmt) → (concat (Stmt.elseMarkup level ss)).Writes c false (Stmt.nodesList Node.everywhere ss)
  | [] => .text
  | s :: ss => .header (.concat_append s.writes (Stmt.writesAll ss))

theorem Stmt.writesElif {c : Prop} {level : Nat} :
    (ss : List Stmt) → (concat (Stmt.elifMarkup level ss)).Writes c false (Stmt.nodesList Node.everywhere ss)
  | [] => .text
  | ⟨pos, kind⟩ :: s :: ss => by
    rw [Stmt.elifMarkup]
    · exact .header (.concat_append (Stmt.writes ⟨pos, kind⟩) (Stmt.writesAll (s :: ss)))
    · simp
  | [⟨pos, kind⟩] => by
    cases kind with
    | cond test body orelse =>
      exact .append_nil (.stmt (.assoc (.append (.text_append (.append_text (.text_append test.writes)))
        (.concat_append (Stmt.writesBody body) (Stmt.writesElif orelse)))))
    | _ => exact .header (.concat_append (Stmt.writes ⟨pos, _⟩) .text)

theorem Handler.writes {c : Prop} {level : Nat} :
    (hs : List Handler) → (concat (Handler.markup level hs)).Writes c false (Handler.nodesList Node.everywhere hs)
  | [] => .text
  | ⟨_, type, _, body⟩ :: hs => .handler (.assoc (.append (.text_append (.append_text (.text_append
      (writes_optionMarkup " " type)))) (.concat_append (Stmt.writesBody body) (Handler.writes hs))))

end

def Stmt.occurrences (s : Stmt) : List Occurrence := (s.markup 0).flatMap (Markup.occurrences false)

theorem Stmt.writes_occurrences (s : Stmt) : (concat (s.markup 0)).occurrences false = s.occurrences :=
  occurrences_concat _

theorem Stmt.occurrences_perm {s : Stmt} (h : ∀ n ∈ s.nodes Node.everywhere, n.isPaired = true) :
    (s.occurrences.map Occurrence.expr).Perm ((s.nodes Node.everywhere).filterMap Node.expr?) :=
  s.writes_occurrences ▸ s.writes.perm trivial h

theorem Stmt.fits_occurrences {s : Stmt} {o : Occurrence} (h : o ∈ s.occurrences) : o.Fits :=
  s.writes.fits (c := True) o (s.writes_occurrences ▸ h)

def ExprKind.isYield : ExprKind → Bool
  | .yield _ | .yieldFrom _ => true
  | _ => false

def ExprKind.isSlice : ExprKind → Bool
  | .slice .. => true
  | _ => false

theorem wrapped_of_isYield {o : Occurrence} (h : o.Fits) (hy : o.expr.kind.isYield = true) :
    o.wrapped = false ↔ o.place ∈ [.statement, .assigned, .returned, .target, .iterable, .yielded, .index] := by
  obtain ⟨place, ⟨pos, kind⟩, wrapped, grouped⟩ := o
  have hkind : kind.isIntLiteral = false ∧ kind.precedence = .yield := by
    cases kind <;> first | exact ⟨rfl, rfl⟩ | cases hy
  have hwrapped : wrapped = decide (kind.precedence.ctorIdx < place.required.ctorIdx) := h.1 hkind.1
  rw [hkind.2] at hwrapped
  cases place with
  | operand p tight =>
    have : wrapped = true := hwrapped.trans (decide_eq_true tight)
    simp [this]
  | item tuple =>
    have : wrapped = true := hwrapped
    simp [this]
  | _ =>
    have : wrapped = false := hwrapped
    simp [this]

/-- Where the parentheses are.  The marks change nothing of the source text of a statement, and each of its
expressions has one in it.  A `yield` is without parentheses of its own exactly as an expression statement, as the
value of an assignment or of `return`, as a target, as the iterable of a loop, behind another `yield` and in the
brackets of a subscript.  A slice in the brackets of a subscript lies in parentheses within them exactly when it is an
element of a tuple. -/
theorem code_yield_slice (s : Stmt) :
    joinLines ((s.markup 0).map Markup.code) = s.code ∧
      ((∀ n ∈ s.nodes Node.everywhere, n.isPaired = true) →
        (s.occurrences.map Occurrence.expr).Perm ((s.nodes Node.everywhere).filterMap Node.expr?)) ∧
      (∀ o ∈ s.occurrences, o.expr.kind.isYield = true → (o.wrapped = false ↔
        o.place ∈ [.statement, .assigned, .returned, .target, .iterable, .yielded, .index])) ∧
      ∀ o ∈ s.occurrences, o.expr.kind.isSlice = true → (o.place = .index ∨ o.place = .item .index) →
        (o.grouped = true ↔ o.place = .item .index) := by
  refine ⟨?_, Stmt.occurrences_perm, fun o ho => wrapped_of_isYield (Stmt.fits_occurrences ho), ?_⟩
  · rw [s.code_markup, Stmt.code]
  · intro o ho _ hplace
    obtain ⟨-, hindex, hitem⟩ := Stmt.fits_occurrences ho
    rcases hplace with hplace | hplace
    · simp [hplace, hindex hplace]
    · simp [hplace, hitem _ hplace]

/-- `return yield x[1:2, y]` is written with parentheses around the elements of the subscript and without parentheses
around the `yield`. -/
def returnedSlices : Stmt :=
  let name (id : Ident) : Expr := ⟨{}, .name id⟩
  let bound (n : Int) : Option Expr := some ⟨{}, .const (.int n)⟩
  ⟨{}, .ret (some ⟨{}, .yield (some ⟨{}, .subscript (name "x")
    ⟨{}, .tuple [⟨{}, .slice (bound 1) (bound 2) none⟩, name "y"]⟩⟩)⟩)⟩

theorem code_yield_slice_returned :
    returnedSlices.code = "return yield x[(1:2, y)]" ∧
      (∀ n ∈ returnedSlices.nodes Node.everywhere, n.isPaired = true) ∧
      (returnedSlices.occurrences.map Occurrence.expr).Perm
        ((returnedSlices.nodes Node.everywhere).filterMap Node.expr?) ∧
      (∃ o ∈ returnedSlices.occurrences, o.expr.kind.isYield = true ∧ o.place = .returned ∧ o.wrapped = false) ∧
      ∃ o ∈ returnedSlices.occurrences, o.expr.kind.isSlice = true ∧ o.place = .item .index ∧ o.grouped = true := by
  obtain ⟨-, hall, hyield, hslice⟩ := code_yield_slice returnedSlices
  have hpaired : ∀ n ∈ returnedSlices.nodes Node.everywhere, n.isPaired = true := List.all_eq_true.1 rfl
  refine ⟨by decide +kernel, hpaired, hall hpaired, ⟨_, .head _, rfl, rfl, ?_⟩,
    ⟨_, .tail _ (.tail _ (.tail _ (.tail _ (.head _)))), rfl, rfl, ?_⟩⟩
  · exact (hyield _ (.head _) rfl).2 (by simp)
  · exact (hslice _ (.tail _ (.tail _ (.tail _ (.tail _ (.head _))))) rfl (.inr rfl)).2 rfl

end Speculator
