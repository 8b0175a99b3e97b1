import Speculator.Text.Quoted
import Speculator.Value.Basic

/-!
# Text of values

The text by which a program shows a value.
-/

namespace Speculator.Value

mutual

def repr : Value → String
  | .none => "None"
  | .ellipsis => "Ellipsis"
  | .bool b => if b then "True" else "False"
  | .int n => toString n
  | .float x => Number.floatText true x
  | .complex c => c.text
  | .str s => Text.quote s
  | .bytes b => Text.quoteBytes b
  | .tuple [v] => "(" ++ v.repr ++ ",)"
  | .tuple items => "(" ++ ", ".intercalate (reprItems items) ++ ")"
  | .list items => "[" ++ ", ".intercalate (reprItems items) ++ "]"
  | .set [] => "set()"
  | .set items => "\x7b" ++ ", ".intercalate (reprItems items) ++ "\x7d"
  | .frozenSet [] => "frozenset()"
  | .frozenSet items => "frozenset(\x7b" ++ ", ".intercalate (reprItems items) ++ "\x7d)"
  | .dict pairs => "\x7b" ++ ", ".intercalate (reprPairs pairs) ++ "\x7d"

def reprItems : List Value → List String
  | [] => []
  | v :: vs => v.repr :: reprItems vs

def reprPairs : List (Value × Value) → List String
  | [] => []
  | (k, v) :: ps => (k.repr ++ ": " ++ v.repr) :: reprPairs ps

end

def text : Value → String
  | .str s => s
  | v => v.repr

def summary (v : Value) : String :=
  let cs := v.repr.toList
  if cs.length > 30 then String.ofList (cs.take 30) ++ "(...)" else v.repr

end Speculator.Value
