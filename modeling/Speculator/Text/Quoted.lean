import Speculator.Text.Printable

/-!
# Quoted text

The quoted forms of texts and byte strings.  Apostrophes delimit the text, unless it holds an apostrophe and no
double quote.  The delimiter and the backslash are escaped by a backslash; tab, line feed and carriage return have
their letters; any other character that is not printable is escaped by its code point in two, four or eight
hexadecimal digits.
-/

namespace Speculator.Text

/-- An apostrophe, unless that would need escapes and a double quote would not. -/
def delimiter (hasApostrophe hasDoubleQuote : Bool) : Char :=
  if hasApostrophe && !hasDoubleQuote then '\x22' else '\x27'

def hexDigits (width n : Nat) : List Char :=
  let digits := Nat.toDigits 16 n
  List.replicate (width - digits.length) '0' ++ digits

/-- The shortest escape that fits a code point: `\xhh`, `\uhhhh` or `\Uhhhhhhhh`. -/
def escapeCode (n : Nat) : List Char :=
  if n < 0x100 then '\\' :: 'x' :: hexDigits 2 n
  else if n < 0x10000 then '\\' :: 'u' :: hexDigits 4 n
  else '\\' :: 'U' :: hexDigits 8 n

/-- One character of a text delimited by `quote`, where the `shown` ones need no escape. -/
def escapeChar (shown : Char → Bool) (quote c : Char) : List Char :=
  if c = '\\' then ['\\', '\\']
  else if c = '\t' then ['\\', 't']
  else if c = '\n' then ['\\', 'n']
  else if c = '\r' then ['\\', 'r']
  else if c = quote then ['\\', c]
  else if shown c then [c]
  else escapeCode c.toNat

def quoteChars (shown : Char → Bool) (cs : List Char) : List Char :=
  let quote := delimiter (cs.contains '\x27') (cs.contains '\x22')
  quote :: cs.flatMap (escapeChar shown quote) ++ [quote]

def quote (s : String) : String := String.ofList (quoteChars isPrintable s.toList)

def charOfByte (b : UInt8) : Char := Char.ofNat b.toNat

/-- The mark `b`, and the quoted text whose code points are the bytes, where only ASCII is shown. -/
def quoteBytes (bytes : List UInt8) : String :=
  String.ofList ('b' :: quoteChars (fun c => 0x20 ≤ c.toNat && c.toNat ≤ 0x7e) (bytes.map charOfByte))

def escapeNonAscii (s : String) : String :=
  String.ofList (s.toList.flatMap fun c => if c.toNat < 0x80 then [c] else escapeCode c.toNat)

end Speculator.Text
