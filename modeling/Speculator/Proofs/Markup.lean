import Speculator.Tree.Nodes
import Speculator.Tree.Render

/-!
# Where expressions stand in their source text

The source text of a statement with its expressions, its parentheses and the brackets of subscripts marked in it.
-/

namespace Speculator

/-- Where an expression stands.  Operands, which require more than the binding strength of `yield`, are not told
apart.
-/
inductive Place where
  | statement
  | assigned
  | returned
  | target
  | iterable
  | yielded
  | index
  | item (tuple : Place)
  | operand (required : Precedence) (tight : Precedence.yield.ctorIdx < required.ctorIdx)
deriving DecidableEq

namespace Place

def required : Place → Precedence
  | statement | assigned => .yield
  | returned | target | iterable | yielded | index => .tuple
  | item _ => .test
  | operand required _ => required

abbrev test : Place := operand .test (by decide)

abbrev or : Place := operand .or (by decide)

abbrev bitOr : Place := operand .bitOr (by decide)

abbrev atom : Place := operand .atom (by decide)

/-- The places of the operands of a binary operator. -/
abbrev left (op : BinaryOp) : Place := operand (Precedence.operands op).1 (by cases op <;> decide)

abbrev right (op : BinaryOp) : Place := operand (Precedence.operands op).2 (by cases op <;> decide)

abbrev ofUnary (op : UnaryOp) : Place := operand (.ofUnary op) (by cases op <;> decide)

abbrev ofBool (op : BoolOp) : Place := operand (Precedence.ofBool op).next (by cases op <;> decide)

@[simp] theorem required_statement : statement.required = .yield := rfl

@[simp] theorem required_assigned : assigned.required = .yield := rfl

@[simp] theorem required_returned : returned.required = .tuple := rfl

@[simp] theorem required_target : target.required = .tuple := rfl

@[simp] theorem required_iterable : iterable.required = .tuple := rfl

@[simp] theorem required_yielded : yielded.required = .tuple := rfl

@[simp] theorem required_index : index.required = .tuple := rfl

@[simp] theorem required_item (tuple : Place) : (item tuple).required = .test := rfl

@[simp] theorem required_operand (p : Precedence) (h : Precedence.yield.ctorIdx < p.ctorIdx) :
    (operand p h).required = p := rfl

end Place

/-- A text with marks: a `group` is in parentheses, an `index` in the brackets of a subscript, and a `node` is an
expression with or without parentheses of its own. -/
inductive Markup where
  | text (s : String)
  | append (a b : Markup)
  | group (body : Markup)
  | index (body : Markup)
  | node (wrapped : Bool) (place : Place) (e : Expr) (body : Markup)

namespace Markup

instance : Append Markup := ⟨append⟩

def code : Markup → String
  | text s => s
  | append a b => a.code ++ b.code
  | group body => "(" ++ body.code ++ ")"
  | index body => "[" ++ body.code ++ "]"
  | node wrapped _ _ body => parenthesize wrapped body.code

/-- Where an expression of a text stands, whether it has parentheses of its own, and whether it lies in parentheses
within the same brackets. -/
structure Occurrence where
  place : Place
  expr : Expr
  wrapped : Bool
  grouped : Bool

/-- The expressions in a text that lies in parentheses or not. -/
def occurrences (grouped : Bool) : Markup → List Occurrence
  | text _ => []
  | append a b => a.occurrences grouped ++ b.occurrences grouped
  | group body => body.occurrences true
  | index body => body.occurrences false
  | node wrapped place e body => ⟨place, e, wrapped, grouped⟩ :: body.occurrences (grouped || wrapped)

def join (sep : String) : List Markup → Markup
  | [] => text ""
  | [m] => m
  | m :: ms => m ++ text sep ++ join sep ms

def concat : List Markup → Markup
  | [] => text ""
  | m :: ms => m ++ concat ms

def line (level : Nat) (m : Markup) : Markup := text (String.ofList (List.replicate (4 * level) ' ')) ++ m

end Markup

open Markup (text group join concat line)

def paramMarkups : List Ident → List (Option Markup) → List Markup
  | [], _ => []
  | name :: names, some m :: defaults => (text (name ++ "=") ++ m) :: paramMarkups names defaults
  | name :: names, none :: defaults => text name :: paramMarkups names defaults
  | name :: names, [] => text name :: paramMarkups names []

def Params.arrange (p : Params) (defaults : List Markup) (kwDefaults : List (Option Markup)) : Markup :=
  let required := List.replicate (p.args.length - defaults.length) none
  let star :=
    match p.vararg with
    | some name => [text ("*" ++ name)]
    | none => if p.kwOnly.isEmpty then [] else [text "*"]
  let kwarg := p.kwarg.toList.map fun name => text ("**" ++ name)
  join ", " (paramMarkups p.args (required ++ defaults.map some) ++ star ++ paramMarkups p.kwOnly kwDefaults ++ kwarg)

mutual

def Expr.markup (place : Place) : Expr → Markup
  | ⟨pos, kind⟩ =>
    .node (decide (kind.precedence.ctorIdx < place.required.ctorIdx)) place ⟨pos, kind⟩ (kind.markup place)

def ExprKind.markup (place : Place) : ExprKind → Markup
  | .boolOp op values => join (" " ++ op.symbol ++ " ") (Expr.markups (.ofBool op) values)
  | .binOp left op right => left.markup (.left op) ++ text (" " ++ op.symbol ++ " ") ++ right.markup (.right op)
  | .unaryOp op operand => text op.symbol ++ operand.markup (.ofUnary op)
  | .lambda params body =>
    text (if params.code.isEmpty then "lambda" else "lambda ") ++ params.markup ++ text ": " ++ body.markup .test
  | .ifExp test body orelse =>
    body.markup .or ++ text " if " ++ test.markup .or ++ text " else " ++ orelse.markup .test
  | .dict keys values =>
    text "\x7b" ++ join ", " (List.zipWith (fun k v => k ++ text ": " ++ v) (Expr.markups .test keys)
      (Expr.markups .test values)) ++ text "\x7d"
  | .set [] => text "\x7b*()\x7d"
  | .set items => text "\x7b" ++ join ", " (Expr.markups .test items) ++ text "\x7d"
  | .listComp item generators => text "[" ++ item.markup .test ++ Generator.markup generators ++ text "]"
  | .setComp item generators => text "\x7b" ++ item.markup .test ++ Generator.markup generators ++ text "\x7d"
  | .dictComp key value generators =>
    text "\x7b" ++ key.markup .test ++ text ": " ++ value.markup .test ++ Generator.markup generators ++ text "\x7d"
  | .generatorExp item generators => group (item.markup .test ++ Generator.markup generators)
  | .await value => text "await " ++ value.markup .atom
  | .yield none => text "yield"
  | .yield (some value) => text "yield " ++ value.markup .yielded
  | .yieldFrom value => text "yield from " ++ value.markup .test
  | .compare left ops comparators =>
    left.markup .bitOr ++ concat (List.zipWith (fun op m => text (" " ++ op.symbol ++ " ") ++ m) ops
      (Expr.markups .bitOr comparators))
  | .call func args keywords =>
    func.markup .atom ++ group (join ", " (Expr.markups .test args ++ Keyword.markups keywords))
  | .const v => text v.code
  | .attr ⟨pos, kind⟩ name =>
    .node (kind.isIntLiteral || decide (kind.precedence.ctorIdx < Place.atom.required.ctorIdx)) .atom ⟨pos, kind⟩
      (kind.markup .atom) ++ text ("." ++ name)
  | .subscript value slice => value.markup .atom ++ .index (slice.markup .index)
  | .starred value => text "*" ++ value.markup .bitOr
  | .name id => text id
  | .list items => text "[" ++ join ", " (Expr.markups .test items) ++ text "]"
  | .tuple [item] => group (item.markup (.item place) ++ text ",")
  | .tuple items => group (join ", " (Expr.markups (.item place) items))
  | .slice lower upper none => Expr.markupOption lower ++ text ":" ++ Expr.markupOption upper
  | .slice lower upper (some step) =>
    Expr.markupOption lower ++ text ":" ++ Expr.markupOption upper ++ text ":" ++ step.markup .test

def Expr.markups (place : Place) : List Expr → List Markup
  | [] => []
  | e :: es => e.markup place :: Expr.markups place es

def Expr.markupOption : Option Expr → Markup
  | none => text ""
  | some e => e.markup .test

def Expr.markupOptions : List (Option Expr) → List (Option Markup)
  | [] => []
  | none :: es => none :: Expr.markupOptions es
  | some e :: es => some (e.markup .test) :: Expr.markupOptions es

def Params.markup : Params → Markup
  | ⟨args, vararg, kwOnly, kwDefaults, kwarg, defaults⟩ =>
    Params.arrange ⟨args, vararg, kwOnly, [], kwarg, []⟩ (Expr.markups .test defaults) (Expr.markupOptions kwDefaults)

def Keyword.markups : List Keyword → List Markup
  | [] => []
  | ⟨some name, value⟩ :: ks => (text (name ++ "=") ++ value.markup .test) :: Keyword.markups ks
  | ⟨none, value⟩ :: ks => (text "**" ++ value.markup .bitOr) :: Keyword.markups ks

def Generator.markup : List Generator → Markup
  | [] => text ""
  | ⟨target, iter, conditions, isAsync⟩ :: gs =>
    text (if isAsync then " async for " else " for ") ++ target.markup .target ++ text " in " ++ iter.markup .or ++
      concat ((Expr.markups .or conditions).map (text " if " ++ ·)) ++ Generator.markup gs

end

def WithItem.markup (item : WithItem) : Markup :=
  match item.target with
  | some target => item.context.markup .test ++ text " as " ++ target.markup .target
  | none => item.context.markup .test

def decoratorMarkups (level : Nat) (decorators : List Expr) : List Markup :=
  decorators.map fun d => line level (text "@" ++ d.markup .test)

def optionMarkup (keyword : String) : Option Expr → Markup
  | some e => text keyword ++ e.markup .test
  | none => text ""

mutual

def Stmt.markup (level : Nat) : Stmt → List Markup
  | ⟨_, kind⟩ => kind.markup level

def StmtKind.markup (level : Nat) : StmtKind → List Markup
  | .functionDef fn => fn.markup level
  | .classDef cls => cls.markup level
  | .ret none => [line level (text "return")]
  | .ret (some value) => [line level (text "return " ++ value.markup .returned)]
  | .delete targets => [line level (text "del " ++ join ", " (Expr.markups .test targets))]
  | .assign targets value =>
    [line level (concat ((Expr.markups .target targets).map (· ++ text " = ")) ++ value.markup .assigned)]
  | .augAssign target op value =>
    [line level (target.markup .target ++ text (" " ++ op.symbol ++ "= ") ++ value.markup .assigned)]
  | .forLoop target iter body orelse isAsync =>
    line level (text (if isAsync then "async for " else "for ") ++ target.markup .target ++ text " in " ++
      iter.markup .iterable ++ text ":") :: (Stmt.bodyMarkup (level + 1) body ++ Stmt.elseMarkup level orelse)
  | .whileLoop test body orelse =>
    line level (text "while " ++ test.markup .test ++ text ":") ::
      (Stmt.bodyMarkup (level + 1) body ++ Stmt.elseMarkup level orelse)
  | .cond test body orelse =>
    line level (text "if " ++ test.markup .test ++ text ":") ::
      (Stmt.bodyMarkup (level + 1) body ++ Stmt.elifMarkup level orelse)
  | .withBlock items body isAsync =>
    line level (text (if isAsync then "async with " else "with ") ++ join ", "
      (items.map WithItem.markup) ++ text ":")
      :: Stmt.bodyMarkup (level + 1) body
  | .raise exc cause => [line level (text "raise" ++ optionMarkup " " exc ++ optionMarkup " from " cause)]
  | .tryBlock body handlers orelse final =>
    line level (text "try:") :: (Stmt.bodyMarkup (level + 1) body ++ Handler.markup level handlers ++
      Stmt.elseMarkup level orelse ++ Stmt.blockMarkup level "finally:" final)
  | .importModules names => [line level (text ("import " ++ aliasTexts names))]
  | .importFrom module names depth =>
    [line level (text ("from " ++ String.ofList (List.replicate depth '.') ++ module.getD "" ++ " import " ++
      aliasTexts names))]
  | .globals names => [line level (text ("global " ++ ", ".intercalate names))]
  | .nonlocals names => [line level (text ("nonlocal " ++ ", ".intercalate names))]
  | .expr value => [line level (value.markup .statement)]
  | .pass => [line level (text "pass")]
  | .brk => [line level (text "break")]
  | .cont => [line level (text "continue")]

def FunctionDef.markup (level : Nat) : FunctionDef → List Markup
  | ⟨name, params, body, decorators, isAsync⟩ =>
    decoratorMarkups level decorators ++
      line level (text ((if isAsync then "async def " else "def ") ++ name) ++ group params.markup ++ text ":") ::
        Stmt.bodyMarkup (level + 1) body

def ClassDef.markup (level : Nat) : ClassDef → List Markup
  | ⟨name, bases, keywords, body, decorators⟩ =>
    let header := join ", " (Expr.markups .test bases ++ Keyword.markups keywords)
    decoratorMarkups level decorators ++
      line level (text ("class " ++ name) ++ (if header.code.isEmpty then header else group header) ++ text ":") ::
        Stmt.bodyMarkup (level + 1) body

def Stmt.listMarkup (level : Nat) : List Stmt → List Markup
  | [] => []
  | s :: ss => s.markup level ++ Stmt.listMarkup level ss

def Stmt.bodyMarkup (level : Nat) : List Stmt → List Markup
  | [] => [line level (text "pass")]
  | s :: ss => s.markup level ++ Stmt.listMarkup level ss

def Stmt.blockMarkup (level : Nat) (header : String) : List Stmt → List Markup
  | [] => []
  | s :: ss => line level (text header) :: (s.markup (level + 1) ++ Stmt.listMarkup (level + 1) ss)

def Stmt.elseMarkup (level : Nat) : List Stmt → List Markup
  | [] => []
  | s :: ss => line level (text "else:") :: (s.markup (level + 1) ++ Stmt.listMarkup (level + 1) ss)

def Stmt.elifMarkup (level : Nat) : List Stmt → List Markup
  | [] => []
  | [⟨_, .cond test body orelse⟩] =>
    line level (text "elif " ++ test.markup .test ++ text ":") ::
      (Stmt.bodyMarkup (level + 1) body ++ Stmt.elifMarkup level orelse)
  | s :: ss => line level (text "else:") :: (s.markup (level + 1) ++ Stmt.listMarkup (level + 1) ss)

def Handler.markup (level : Nat) : List Handler → List Markup
  | [] => []
  | ⟨_, type, name, body⟩ :: hs =>
    line level
      (text "except" ++ optionMarkup " " type ++ text (String.join (name.toList.map (" as " ++ ·)) ++ ":")) ::
      (Stmt.bodyMarkup (level + 1) body ++ Handler.markup level hs)

end

/-! ## The text without the marks is the source text -/

namespace Markup

@[simp] theorem code_text (s : String) : (Markup.text s).code = s := rfl

@[simp] theorem code_append (a b : Markup) : (a ++ b).code = a.code ++ b.code := rfl

@[simp] theorem code_group (m : Markup) : (group m).code = "(" ++ m.code ++ ")" := rfl

@[simp] theorem code_index (m : Markup) : (Markup.index m).code = "[" ++ m.code ++ "]" := rfl

@[simp] theorem code_node (w : Bool) (place : Place) (e : Expr) (m : Markup) :
    (Markup.node w place e m).code = parenthesize w m.code := rfl

@[simp] theorem code_line (level : Nat) (m : Markup) : (line level m).code = indented level m.code := rfl

@[simp] theorem code_join (sep : String) (ms : List Markup) : (join sep ms).code = sep.intercalate (ms.map code) := by
  induction ms with
  | nil => rfl
  | cons m ms ih =>
    cases ms with
    | nil => simp [join]
    | cons m' ms => simp [join, ih]

@[simp] theorem code_concat (ms : List Markup) : (concat ms).code = String.join (ms.map code) := by
  induction ms with
  | nil => rfl
  | cons m ms ih => rw [concat, code_append, ih, List.map_cons, String.join_cons]

end Markup

theorem code_paramMarkups (names : List Ident) (defaults : List (Option Markup)) :
    (paramMarkups names defaults).map Markup.code = paramTexts names (defaults.map (Option.map Markup.code)) := by
  induction names generalizing defaults with
  | nil => rfl
  | cons name names ih =>
    rcases defaults with - | ⟨- | m, defaults⟩
    · simp [paramMarkups, paramTexts, ih]
    · simp [paramMarkups, paramTexts, ih]
    · simp [paramMarkups, paramTexts, ih]

theorem Params.code_arrange (p : Params) (defaults : List Markup) (kwDefaults : List (Option Markup)) :
    (p.arrange defaults kwDefaults).code =
      p.layout (defaults.map Markup.code) (kwDefaults.map (Option.map Markup.code)) := by
  obtain ⟨args, vararg, kwOnly, kwds, kwarg, ds⟩ := p
  cases vararg <;> cases kwarg <;> cases kwOnly <;>
    simp [Params.arrange, Params.layout, code_paramMarkups, Function.comp_def]

attribute [local simp] ExprKind.markup ExprKind.code StmtKind.markup StmtKind.lines

mutual

theorem Expr.code_markup (place : Place) : (e : Expr) → (e.markup place).code = e.codeAt place.required
  | ⟨_, kind⟩ => by rw [Expr.markup, Markup.code_node, kind.code_markup, Expr.codeAt]

theorem ExprKind.code_markup (place : Place) : (kind : ExprKind) → (kind.markup place).code = kind.code
  | .const _ | .name _ | .yield none | .set [] => by simp
  | .boolOp _ items | .list items => by simp [Expr.code_markups _ items]
  | .binOp left _ right | .subscript left right => by
    simp [left.code_markup, right.code_markup, String.append_assoc]
  | .unaryOp _ value | .await value | .yield (some value) | .yieldFrom value | .starred value => by
    simp [value.code_markup]
  | .lambda params body => by
    simp only [ExprKind.markup, ExprKind.code, Markup.code_append, Markup.code_text, params.code_markup,
      body.code_markup, Place.required_operand]
    split
    · rename_i h
      rw [String.isEmpty_iff.1 h]
      rfl
    · rfl
  | .ifExp test body orelse => by
    simp [body.code_markup, test.code_markup, orelse.code_markup]
  | .dict keys values => by
    have hkeys := Expr.code_markups .test keys
    have hvalues := Expr.code_markups .test values
    rw [Place.required_operand] at hkeys hvalues
    simp [entryTexts, List.map_zipWith, ← hkeys, ← hvalues, List.zipWith_map]
  | .set (item :: items) => by
    simp only [ExprKind.markup, ExprKind.code, Markup.code_append, Markup.code_text, Markup.code_join,
      Expr.code_markups _ (item :: items), Place.required_operand]
  | .tuple [] => by simp [Expr.markups, Expr.codesAt]
  | .tuple [item] => by simp [item.code_markup, String.append_assoc]
  | .tuple (first :: second :: items) => by
    simp only [ExprKind.markup, ExprKind.code, Markup.code_group, Markup.code_join,
      Expr.code_markups _ (first :: second :: items), Place.required_item]
  | .listComp item generators | .setComp item generators | .generatorExp item generators => by
    simp [item.code_markup, Generator.code_markup generators, String.append_assoc]
  | .dictComp key value generators => by
    simp [key.code_markup, value.code_markup, Generator.code_markup generators]
  | .compare left ops comparators => by
    have hcomparators := Expr.code_markups .bitOr comparators
    rw [Place.required_operand] at hcomparators
    simp [left.code_markup, comparisonTexts, List.map_zipWith, ← hcomparators,
      List.zipWith_map_right]
  | .call func args keywords => by
    simp [func.code_markup, Expr.code_markups _ args, Keyword.code_markups keywords,
      String.append_assoc]
  | .attr ⟨pos, kind⟩ name => by
    simp only [ExprKind.markup, ExprKind.code, Markup.code_append, Markup.code_node, Markup.code_text,
      kind.code_markup, Expr.codeAt, Place.required_operand, parenthesize]
    cases kind.isIntLiteral <;> exact String.append_assoc.symm
  | .slice lower upper none => by
    simp [Expr.code_markupOption lower, Expr.code_markupOption upper]
  | .slice lower upper (some step) => by
    simp [Expr.code_markupOption lower, Expr.code_markupOption upper, step.code_markup]

theorem Expr.code_markups (place : Place) :
    (es : List Expr) → (Expr.markups place es).map Markup.code = Expr.codesAt place.required es
  | [] => rfl
  | e :: es => by rw [Expr.markups, Expr.codesAt, List.map_cons, e.code_markup, Expr.code_markups place es]

theorem Expr.code_markupOption : (o : Option Expr) → (Expr.markupOption o).code = Expr.codeOption o
  | none => rfl
  | some e => by rw [Expr.markupOption, Expr.codeOption, e.code_markup]; rfl

theorem Expr.code_markupOptions :
    (os : List (Option Expr)) → (Expr.markupOptions os).map (Option.map Markup.code) = Expr.codeOptions os
  | [] => rfl
  | none :: os => by rw [Expr.markupOptions, Expr.codeOptions, List.map_cons, Expr.code_markupOptions os]; rfl
  | some e :: os => by
    rw [Expr.markupOptions, Expr.codeOptions, List.map_cons, Expr.code_markupOptions os, Option.map_some,
      e.code_markup]
    rfl

theorem Params.code_markup : (p : Params) → p.markup.code = p.code
  | ⟨_, _, _, kwDefaults, _, defaults⟩ => by
    rw [Params.markup, Params.code_arrange, Params.code, Expr.code_markups .test defaults,
      Expr.code_markupOptions kwDefaults]
    rfl

theorem Keyword.code_markups : (ks : List Keyword) → (Keyword.markups ks).map Markup.code = Keyword.codes ks
  | [] => rfl
  | ⟨some _, value⟩ :: ks | ⟨none, value⟩ :: ks => by
    simp [Keyword.markups, Keyword.codes, value.code_markup, Keyword.code_markups ks]

theorem Generator.code_markup : (gs : List Generator) → (Generator.markup gs).code = Generator.codes gs
  | [] => rfl
  | ⟨target, iter, conditions, isAsync⟩ :: gs => by
    have hconditions := Expr.code_markups .or conditions
    rw [Place.required_operand] at hconditions
    simp [Generator.markup, Generator.codes, target.code_markup, iter.code_markup, Generator.code_markup gs,
      ← hconditions, Function.comp_def]

end

theorem WithItem.code_markup (item : WithItem) : item.markup.code = item.code := by
  obtain ⟨context, target⟩ := item
  cases target <;> simp [WithItem.markup, WithItem.code, Expr.code_markup]

theorem code_decoratorMarkups (level : Nat) (decorators : List Expr) :
    (decoratorMarkups level decorators).map Markup.code = decoratorLines level decorators := by
  simp [decoratorMarkups, decoratorLines, Expr.code_markup]

theorem code_optionMarkup (keyword : String) (o : Option Expr) :
    (optionMarkup keyword o).code = optionText keyword o := by
  cases o <;> simp [optionMarkup, optionText, Expr.code_markup]

mutual

theorem Stmt.code_markup (level : Nat) : (s : Stmt) → (s.markup level).map Markup.code = s.lines level
  | ⟨_, kind⟩ => kind.code_markup level

theorem StmtKind.code_markup (level : Nat) :
    (kind : StmtKind) → (kind.markup level).map Markup.code = kind.lines level
  | .functionDef fn => fn.code_markup level
  | .classDef cls => cls.code_markup level
  | .ret none | .importModules _ | .importFrom .. | .globals _ | .nonlocals _ | .pass | .brk | .cont => rfl
  | .ret (some value) | .expr value => by simp [Expr.code_markup]
  | .delete targets => by simp [Expr.code_markups]
  | .assign targets value => by
    have htargets := Expr.code_markups .target targets
    rw [Place.required_target] at htargets
    simp [Expr.code_markup, ← htargets, Function.comp_def]
  | .augAssign target op value => by
    simp [Expr.code_markup, String.append_assoc]
  | .forLoop _ _ body orelse _ | .whileLoop _ body orelse => by
    simp [Expr.code_markup, Stmt.code_bodyMarkup (level + 1) body,
      Stmt.code_elseMarkup level orelse]
  | .cond test body orelse => by
    simp [Expr.code_markup, Stmt.code_bodyMarkup (level + 1) body,
      Stmt.code_elifMarkup level orelse]
  | .withBlock items body isAsync => by
    simp [Stmt.code_bodyMarkup (level + 1) body, Function.comp_def,
      WithItem.code_markup]
  | .raise exc cause => by simp [code_optionMarkup]
  | .tryBlock body handlers orelse final => by
    simp [Stmt.code_bodyMarkup (level + 1) body, Handler.code_markup level handlers,
      Stmt.code_elseMarkup level orelse, Stmt.code_blockMarkup level _ final]

theorem FunctionDef.code_markup (level : Nat) :
    (fn : FunctionDef) → (fn.markup level).map Markup.code = fn.lines level
  | ⟨name, params, body, decorators, isAsync⟩ => by
    simp [FunctionDef.markup, FunctionDef.lines, code_decoratorMarkups, params.code_markup,
      Stmt.code_bodyMarkup (level + 1) body, String.append_assoc]

theorem ClassDef.code_markup (level : Nat) : (cls : ClassDef) → (cls.markup level).map Markup.code = cls.lines level
  | ⟨name, bases, keywords, body, decorators⟩ => by
    have hheader : (join ", " (Expr.markups .test bases ++ Keyword.markups keywords)).code =
        ", ".intercalate (Expr.codesAt .test bases ++ Keyword.codes keywords) := by
      simp [Expr.code_markups, Keyword.code_markups]
    simp only [ClassDef.markup, ClassDef.lines, List.map_append, code_decoratorMarkups, List.map_cons,
      Markup.code_line, Markup.code_append, Markup.code_text, Stmt.code_bodyMarkup (level + 1) body, hheader]
    split
    · rename_i h
      rw [hheader, String.isEmpty_iff.1 h]
      simp [String.append_assoc]
    · rw [Markup.code_group, hheader]
      simp [String.append_assoc]

theorem Stmt.code_listMarkup (level : Nat) :
    (ss : List Stmt) → (Stmt.listMarkup level ss).map Markup.code = Stmt.listLines level ss
  | [] => rfl
  | s :: ss => by
    rw [Stmt.listMarkup, Stmt.listLines, List.map_append, s.code_markup, Stmt.code_listMarkup level ss]

theorem Stmt.code_bodyMarkup (level : Nat) :
    (ss : List Stmt) → (Stmt.bodyMarkup level ss).map Markup.code = Stmt.bodyLines level ss
  | [] => rfl
  | s :: ss => by
    rw [Stmt.bodyMarkup, Stmt.bodyLines, List.map_append, s.code_markup, Stmt.code_listMarkup level ss]

theorem Stmt.code_blockMarkup (level : Nat) (header : String) :
    (ss : List Stmt) → (Stmt.blockMarkup level header ss).map Markup.code = Stmt.blockLines level header ss
  | [] => rfl
  | s :: ss => by
    simp [Stmt.blockMarkup, Stmt.blockLines, s.code_markup, Stmt.code_listMarkup (level + 1) ss]

theorem Stmt.code_elseMarkup (level : Nat) :
    (ss : List Stmt) → (Stmt.elseMarkup level ss).map Markup.code = Stmt.elseLines level ss
  | [] => rfl
  | s :: ss => by
    simp [Stmt.elseMarkup, Stmt.elseLines, s.code_markup, Stmt.code_listMarkup (level + 1) ss]

theorem Stmt.code_elifMarkup (level : Nat) :
    (ss : List Stmt) → (Stmt.elifMarkup level ss).map Markup.code = Stmt.elifLines level ss
  | [] => rfl
  | ⟨pos, kind⟩ :: s :: ss => by
    simp [Stmt.elifMarkup, Stmt.elifLines, Stmt.code_markup _ ⟨pos, kind⟩, Stmt.code_listMarkup (level + 1) (s :: ss)]
  | [⟨pos, kind⟩] => by
    cases kind with
    | cond test body orelse =>
      simp [Stmt.elifMarkup, Stmt.elifLines, Expr.code_markup, Stmt.code_bodyMarkup (level + 1) body,
        Stmt.code_elifMarkup level orelse]
    | _ =>
      simp [Stmt.elifMarkup, Stmt.elifLines, Stmt.listMarkup, Stmt.listLines, Stmt.code_markup (level + 1) ⟨pos, _⟩]

theorem Handler.code_markup (level : Nat) :
    (hs : List Handler) → (Handler.markup level hs).map Markup.code = Handler.lines level hs
  | [] => rfl
  | ⟨_, type, name, body⟩ :: hs => by
    simp [Handler.markup, Handler.lines, code_optionMarkup, Stmt.code_bodyMarkup (level + 1) body,
      Handler.code_markup level hs, String.append_assoc]

end

end Speculator
