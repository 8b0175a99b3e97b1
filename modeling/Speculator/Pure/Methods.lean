import Speculator.Pure.Contract
import Speculator.Text.Codec

/-!
# Pure methods

The methods that can be called at compile time, with their contracts.  The receiver is the first argument.
-/

namespace Speculator.Method

/-! ### Texts -/

/-- Whether the receiver is a text in ASCII; beyond it, case and character classes depend on the runtime. -/
def asciiReceiver (args : List Value) : Except Fault Bool := do
  match ← argument args 0 with
  | .str s => return Text.isAscii s
  | _ => return false

def onText (f : List Char → Value) (args : List Value) : Except Fault Value := do
  match ← argument args 0 with
  | .str s => return f s.toList
  | _ => .error .typeError

def mapChars (f : Char → Char) : List Value → Except Fault Value :=
  onText fun chars => .str (String.ofList (chars.map f))

def allChars (test : Char → Bool) : List Value → Except Fault Value :=
  onText fun chars => .bool (!chars.isEmpty && chars.all test)

def swapCase (c : Char) : Char := if c.isLower then c.toUpper else c.toLower

def isSpace (c : Char) : Bool :=
  let n := c.toNat
  n == 0x20 || (0x9 ≤ n && n ≤ 0xd) || (0x1c ≤ n && n ≤ 0x1f)

def affixes? : Value → Option (List String)
  | .str s => some [s]
  | .tuple items => items.mapM fun v =>
    match v with
    | .str s => some s
    | _ => none
  | _ => none

def hasAffix (args : List Value) : Except Fault Bool := (argument args 1).map fun v => (affixes? v).isSome

def affix (test : List Char → List Char → Bool) (args : List Value) : Except Fault Value := do
  match ← argument args 0 with
  | .str s =>
    match affixes? (← argument args 1) with
    | some texts => return .bool (texts.any fun text => test text.toList s.toList)
    | none => .error .typeError
  | _ => .error .typeError

/-! ### Codecs -/

/-- The codec named by the arguments after the receiver.  Only strict error handling is known. -/
def codec? (args : List Value) : Option Text.Codec :=
  match args.drop 1 with
  | [] => some .utf8
  | [.str name] => Text.Codec.ofName? name
  | .str name :: .str errors :: _ => if errors == "strict" then Text.Codec.ofName? name else none
  | _ => none

def encode (args : List Value) : Except Fault Value := do
  match ← argument args 0 with
  | .str s =>
    match codec? args with
    | none => .error .valueError
    | some codec =>
      match codec.encode s with
      | some b => .ok (.bytes b)
      | none => .error .unicodeError
  | _ => .error .typeError

def decode (args : List Value) : Except Fault Value := do
  match ← argument args 0 with
  | .bytes b =>
    match codec? args with
    | none => .error .valueError
    | some codec =>
      match codec.decode b with
      | some s => .ok (.str s)
      | none => .error .unicodeError
  | _ => .error .typeError

/-! ### Numbers -/

def bitLength (args : List Value) : Except Fault Value := do
  match (← argument args 0).asInt? with
  | some n => return .int (Number.bitLength n)
  | none => .error .typeError

def isInteger (args : List Value) : Except Fault Value := do
  match ← argument args 0 with
  | .float x => return .bool (Number.isInteger x)
  | _ => .error .typeError

/-! ### Contracts -/

def onAscii (name : String) (call : List Value → Except Fault Value) : String × Contract :=
  ("str", { name, minArgs := 0, maxArgs := some 0, argTypes := [], check := some fun _ => asciiReceiver, call })

def coding (type name : String) (call : List Value → Except Fault Value) : String × Contract :=
  (type,
    { name, minArgs := 0, maxArgs := some 2, argTypes := [.oneOf ["str"], .oneOf ["str"]],
      check := some fun _ args => .ok (codec? args).isSome, tolerated := [.unicodeError], call })

def affixTest (name : String) (test : List Char → List Char → Bool) : String × Contract :=
  ("str",
    { name, minArgs := 1, maxArgs := some 1, argTypes := [.oneOf ["str", "tuple"]],
      check := some fun _ => hasAffix, call := affix test })

def bare (type name : String) (call : List Value → Except Fault Value) : String × Contract :=
  (type, { name, minArgs := 0, maxArgs := some 0, argTypes := [], call })

def contracts : List (String × Contract) :=
  [ coding "str" "encode" encode,
    coding "bytes" "decode" decode,
    onAscii "lower" (mapChars Char.toLower),
    onAscii "upper" (mapChars Char.toUpper),
    onAscii "swapcase" (mapChars swapCase),
    onAscii "isalpha" (allChars Char.isAlpha),
    onAscii "isdigit" (allChars Char.isDigit),
    onAscii "isspace" (allChars isSpace),
    affixTest "startswith" List.isPrefixOf,
    affixTest "endswith" List.isSuffixOf,
    bare "int" "bit_length" bitLength,
    bare "bool" "bit_length" bitLength,
    bare "float" "is_integer" isInteger ]

end Speculator.Method
