import Speculator.Text.Blank
import Speculator.Tree.Basic
import Speculator.Value.Text

/-!
# Source text of trees

The source text of expressions and statements, with parentheses only where the binding strength of an operand is
less than what its place requires.
-/

namespace Speculator

/-- The binding strength of an expression, from the loosest to the tightest. -/
inductive Precedence where
  | tuple
  | yield
  | test
  | or
  | and
  | not
  | cmp
  | bitOr
  | bitXor
  | bitAnd
  | shift
  | arith
  | term
  | factor
  | power
  | await
  | atom
deriving DecidableEq, Repr, Inhabited

namespace Precedence

def next : Precedence → Precedence
  | tuple => yield
  | yield => test
  | test => or
  | or => and
  | and => not
  | not => cmp
  | cmp => bitOr
  | bitOr => bitXor
  | bitXor => bitAnd
  | bitAnd => shift
  | shift => arith
  | arith => term
  | term => factor
  | factor => power
  | power => await
  | await => atom
  | atom => atom

def ofBinary : BinaryOp → Precedence
  | .bitOr => bitOr
  | .bitXor => bitXor
  | .bitAnd => bitAnd
  | .lShift | .rShift => shift
  | .add | .sub => arith
  | .mult | .matMult | .div | .floorDiv | .mod => term
  | .pow => power

def ofBool : BoolOp → Precedence
  | .and => and
  | .or => or

def ofUnary : UnaryOp → Precedence
  | .not => not
  | _ => factor

/-- The binding strengths required of operands.  Powers associate to the right, and their right operand may have a
sign.
-/
def operands (op : BinaryOp) : Precedence × Precedence :=
  match op with
  | .pow => ((ofBinary .pow).next, factor)
  | op => (ofBinary op, (ofBinary op).next)

end Precedence

mutual

/-- The source text of a literal.  Floats that have no literal are written by literals that overflow. -/
def Value.code : Value → String
  | .float x =>
    if x.isNaN then "(1e309 - 1e309)"
    else if x.isInf then (if x > 0.0 then "1e309" else "-1e309")
    else (Value.float x).repr
  | .ellipsis => "..."
  | .tuple [v] => "(" ++ v.code ++ ",)"
  | .tuple items => "(" ++ ", ".intercalate (Value.codes items) ++ ")"
  | .frozenSet [] => "frozenset()"
  | .frozenSet items => "frozenset(\x7b" ++ ", ".intercalate (Value.codes items) ++ "\x7d)"
  | v => v.repr

def Value.codes : List Value → List String
  | [] => []
  | v :: vs => v.code :: Value.codes vs

end

namespace ExprKind

/-- The binding strength of an expression.  A negative number binds like a negation. -/
def precedence : ExprKind → Precedence
  | .yield _ | .yieldFrom _ => .yield
  | .lambda .. | .ifExp .. => .test
  | .boolOp op _ => .ofBool op
  | .unaryOp op _ => .ofUnary op
  | .compare .. => .cmp
  | .binOp _ op _ => .ofBinary op
  | .await _ => .await
  | .const v => if v.isNumber && v.repr.toList.head? == some '-' then .factor else .atom
  | _ => .atom

/-- Whether the expression is a literal integer, after which a point would continue the number. -/
def isIntLiteral : ExprKind → Bool
  | .const (.int _) => true
  | _ => false

end ExprKind

def paramTexts : List Ident → List (Option String) → List String
  | [], _ => []
  | name :: names, some text :: defaults => (name ++ "=" ++ text) :: paramTexts names defaults
  | name :: names, none :: defaults => name :: paramTexts names defaults
  | name :: names, [] => name :: paramTexts names []

/-- The text of a parameter list from the texts of its defaults. -/
def Params.layout (p : Params) (defaults : List String) (kwDefaults : List (Option String)) : String :=
  let required := List.replicate (p.args.length - defaults.length) none
  let star :=
    match p.vararg with
    | some name => ["*" ++ name]
    | none => if p.kwOnly.isEmpty then [] else ["*"]
  let kwarg := p.kwarg.toList.map ("**" ++ ·)
  ", ".intercalate
    (paramTexts p.args (required ++ defaults.map some) ++ star ++ paramTexts p.kwOnly kwDefaults ++ kwarg)

def entryTexts (keys values : List String) : List String := List.zipWith (fun k v => k ++ ": " ++ v) keys values

def comparisonTexts (ops : List CompareOp) (comparators : List String) : List String :=
  List.zipWith (fun op text => " " ++ op.symbol ++ " " ++ text) ops comparators

def parenthesize (wrap : Bool) (text : String) : String := if wrap then "(" ++ text ++ ")" else text

mutual

/-- The source text of an expression in a place that requires a binding strength. -/
def Expr.codeAt (required : Precedence) : Expr → String
  | ⟨_, kind⟩ => parenthesize (decide (kind.precedence.ctorIdx < required.ctorIdx)) kind.code

def ExprKind.code : ExprKind → String
  | .boolOp op values =>
    (" " ++ op.symbol ++ " ").intercalate (Expr.codesAt (Precedence.ofBool op).next values)
  | .binOp left op right =>
    left.codeAt (Precedence.operands op).1 ++ " " ++ op.symbol ++ " " ++ right.codeAt (Precedence.operands op).2
  | .unaryOp op operand => op.symbol ++ operand.codeAt (.ofUnary op)
  | .lambda params body =>
    let text := params.code
    (if text.isEmpty then "lambda: " else "lambda " ++ text ++ ": ") ++ body.codeAt .test
  | .ifExp test body orelse =>
    body.codeAt .or ++ " if " ++ test.codeAt .or ++ " else " ++ orelse.codeAt .test
  | .dict keys values =>
    "\x7b" ++ ", ".intercalate (entryTexts (Expr.codesAt .test keys) (Expr.codesAt .test values)) ++ "\x7d"
  | .set [] => "\x7b*()\x7d"
  | .set items => "\x7b" ++ ", ".intercalate (Expr.codesAt .test items) ++ "\x7d"
  | .listComp item generators => "[" ++ item.codeAt .test ++ Generator.codes generators ++ "]"
  | .setComp item generators => "\x7b" ++ item.codeAt .test ++ Generator.codes generators ++ "\x7d"
  | .dictComp key value generators =>
    "\x7b" ++ key.codeAt .test ++ ": " ++ value.codeAt .test ++ Generator.codes generators ++ "\x7d"
  | .generatorExp item generators => "(" ++ item.codeAt .test ++ Generator.codes generators ++ ")"
  | .await value => "await " ++ value.codeAt .atom
  | .yield none => "yield"
  | .yield (some value) => "yield " ++ value.codeAt .tuple
  | .yieldFrom value => "yield from " ++ value.codeAt .test
  | .compare left ops comparators =>
    left.codeAt .bitOr ++ String.join (comparisonTexts ops (Expr.codesAt .bitOr comparators))
  | .call func args keywords =>
    func.codeAt .atom ++ "(" ++ ", ".intercalate (Expr.codesAt .test args ++ Keyword.codes keywords) ++ ")"
  | .const v => v.code
  | .attr ⟨pos, kind⟩ name =>
    (if kind.isIntLiteral then "(" ++ kind.code ++ ")" else Expr.codeAt .atom ⟨pos, kind⟩) ++ "." ++ name
  | .subscript value slice => value.codeAt .atom ++ "[" ++ slice.codeAt .tuple ++ "]"
  | .starred value => "*" ++ value.codeAt .bitOr
  | .name id => id
  | .list items => "[" ++ ", ".intercalate (Expr.codesAt .test items) ++ "]"
  | .tuple [item] => "(" ++ item.codeAt .test ++ ",)"
  | .tuple items => "(" ++ ", ".intercalate (Expr.codesAt .test items) ++ ")"
  | .slice lower upper none => Expr.codeOption lower ++ ":" ++ Expr.codeOption upper
  | .slice lower upper (some step) =>
    Expr.codeOption lower ++ ":" ++ Expr.codeOption upper ++ ":" ++ step.codeAt .test

def Expr.codesAt (required : Precedence) : List Expr → List String
  | [] => []
  | e :: es => e.codeAt required :: Expr.codesAt required es

def Expr.codeOption : Option Expr → String
  | none => ""
  | some e => e.codeAt .test

def Expr.codeOptions : List (Option Expr) → List (Option String)
  | [] => []
  | none :: es => none :: Expr.codeOptions es
  | some e :: es => some (e.codeAt .test) :: Expr.codeOptions es

def Params.code : Params → String
  | ⟨args, vararg, kwOnly, kwDefaults, kwarg, defaults⟩ =>
    Params.layout ⟨args, vararg, kwOnly, [], kwarg, []⟩ (Expr.codesAt .test defaults) (Expr.codeOptions kwDefaults)

def Keyword.codes : List Keyword → List String
  | [] => []
  | ⟨some name, value⟩ :: ks => (name ++ "=" ++ value.codeAt .test) :: Keyword.codes ks
  | ⟨none, value⟩ :: ks => ("**" ++ value.codeAt .bitOr) :: Keyword.codes ks

def Generator.codes : List Generator → String
  | [] => ""
  | ⟨target, iter, conditions, isAsync⟩ :: gs =>
    (if isAsync then " async for " else " for ") ++ target.codeAt .tuple ++ " in " ++ iter.codeAt .or ++
      String.join ((Expr.codesAt .or conditions).map (" if " ++ ·)) ++ Generator.codes gs

end

def Expr.code (e : Expr) : String := e.codeAt .tuple

def aliasTexts (names : List Alias) : String :=
  ", ".intercalate <| names.map fun a =>
    match a.asName with
    | some name => a.name ++ " as " ++ name
    | none => a.name

def WithItem.code (item : WithItem) : String :=
  match item.target with
  | some target => item.context.codeAt .test ++ " as " ++ target.codeAt .tuple
  | none => item.context.codeAt .test

def indented (level : Nat) (text : String) : String := String.ofList (List.replicate (4 * level) ' ') ++ text

def decoratorLines (level : Nat) (decorators : List Expr) : List String :=
  decorators.map fun d => indented level ("@" ++ d.codeAt .test)

def optionText (keyword : String) : Option Expr → String
  | some e => keyword ++ e.codeAt .test
  | none => ""

mutual

def Stmt.lines (level : Nat) : Stmt → List String
  | ⟨_, kind⟩ => kind.lines level

def StmtKind.lines (level : Nat) : StmtKind → List String
  | .functionDef fn => fn.lines level
  | .classDef cls => cls.lines level
  | .ret none => [indented level "return"]
  | .ret (some value) => [indented level ("return " ++ value.codeAt .tuple)]
  | .delete targets => [indented level ("del " ++ ", ".intercalate (Expr.codesAt .test targets))]
  | .assign targets value =>
    [indented level (String.join ((Expr.codesAt .tuple targets).map (· ++ " = ")) ++ value.codeAt .yield)]
  | .augAssign target op value =>
    [indented level (target.codeAt .tuple ++ " " ++ op.symbol ++ "= " ++ value.codeAt .yield)]
  | .forLoop target iter body orelse isAsync =>
    indented level ((if isAsync then "async for " else "for ") ++ target.codeAt .tuple ++ " in " ++
      iter.codeAt .tuple ++ ":") :: (Stmt.bodyLines (level + 1) body ++ Stmt.elseLines level orelse)
  | .whileLoop test body orelse =>
    indented level ("while " ++ test.codeAt .test ++ ":") ::
      (Stmt.bodyLines (level + 1) body ++ Stmt.elseLines level orelse)
  | .cond test body orelse =>
    indented level ("if " ++ test.codeAt .test ++ ":") ::
      (Stmt.bodyLines (level + 1) body ++ Stmt.elifLines level orelse)
  | .withBlock items body isAsync =>
    indented level ((if isAsync then "async with " else "with ") ++ ", ".intercalate (items.map WithItem.code) ++ ":")
      :: Stmt.bodyLines (level + 1) body
  | .raise exc cause => [indented level ("raise" ++ optionText " " exc ++ optionText " from " cause)]
  | .tryBlock body handlers orelse final =>
    indented level "try:" :: (Stmt.bodyLines (level + 1) body ++ Handler.lines level handlers ++
      Stmt.elseLines level orelse ++ Stmt.blockLines level "finally:" final)
  | .importModules names => [indented level ("import " ++ aliasTexts names)]
  | .importFrom module names depth =>
    [indented level ("from " ++ String.ofList (List.replicate depth '.') ++ module.getD "" ++ " import " ++
      aliasTexts names)]
  | .globals names => [indented level ("global " ++ ", ".intercalate names)]
  | .nonlocals names => [indented level ("nonlocal " ++ ", ".intercalate names)]
  | .expr value => [indented level (value.codeAt .yield)]
  | .pass => [indented level "pass"]
  | .brk => [indented level "break"]
  | .cont => [indented level "continue"]

def FunctionDef.lines (level : Nat) : FunctionDef → List String
  | ⟨name, params, body, decorators, isAsync⟩ =>
    decoratorLines level decorators ++
      indented level ((if isAsync then "async def " else "def ") ++ name ++ "(" ++ params.code ++ "):") ::
        Stmt.bodyLines (level + 1) body

def ClassDef.lines (level : Nat) : ClassDef → List String
  | ⟨name, bases, keywords, body, decorators⟩ =>
    let header := ", ".intercalate (Expr.codesAt .test bases ++ Keyword.codes keywords)
    decoratorLines level decorators ++
      indented level ("class " ++ name ++ (if header.isEmpty then ":" else "(" ++ header ++ "):")) ::
        Stmt.bodyLines (level + 1) body

def Stmt.listLines (level : Nat) : List Stmt → List String
  | [] => []
  | s :: ss => s.lines level ++ Stmt.listLines level ss

def Stmt.bodyLines (level : Nat) : List Stmt → List String
  | [] => [indented level "pass"]
  | s :: ss => s.lines level ++ Stmt.listLines level ss

def Stmt.blockLines (level : Nat) (header : String) : List Stmt → List String
  | [] => []
  | s :: ss => indented level header :: (s.lines (level + 1) ++ Stmt.listLines (level + 1) ss)

def Stmt.elseLines (level : Nat) : List Stmt → List String
  | [] => []
  | s :: ss => indented level "else:" :: (s.lines (level + 1) ++ Stmt.listLines (level + 1) ss)

/-- The lines of the alternative of a conditional; a single conditional in it continues the chain. -/
def Stmt.elifLines (level : Nat) : List Stmt → List String
  | [] => []
  | [⟨_, .cond test body orelse⟩] =>
    indented level ("elif " ++ test.codeAt .test ++ ":") ::
      (Stmt.bodyLines (level + 1) body ++ Stmt.elifLines level orelse)
  | s :: ss => indented level "else:" :: (s.lines (level + 1) ++ Stmt.listLines (level + 1) ss)

def Handler.lines (level : Nat) : List Handler → List String
  | [] => []
  | ⟨_, type, name, body⟩ :: hs =>
    indented level ("except" ++ optionText " " type ++ String.join (name.toList.map (" as " ++ ·)) ++ ":") ::
      (Stmt.bodyLines (level + 1) body ++ Handler.lines level hs)

end

def joinLines (lines : List String) : String := Text.trimEnd (String.join (lines.map (· ++ "\n")))

def Stmt.code (s : Stmt) : String := joinLines (s.lines 0)

def Module.code (m : Module) : String := joinLines (Stmt.bodyLines 0 m.body)

/-- The first line of a text, cut after a hundred characters; a mark tells that something was left out. -/
def summarize (code : String) : String :=
  let lines := Text.lines code
  let first := (lines.headD "").toList
  if first.length > 100 || lines.length > 1 then String.ofList (first.take 100) ++ "(...)" else String.ofList first

def Stmt.summary (s : Stmt) : String := summarize s.code

def Expr.summary (e : Expr) : String := summarize e.code

end Speculator
