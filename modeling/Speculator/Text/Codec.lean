import Speculator.Text.Blank

/-!
# Text codecs

The encodings of text as bytes, and their names.
-/

namespace Speculator.Text

/-- An encoding of text as bytes. -/
inductive Codec where
  | utf8
  | ascii
  | latin1
deriving DecidableEq, Repr, Inhabited

namespace Codec

def ofName? (name : String) : Option Codec :=
  let normal := String.ofList (name.toList.map fun c => if c = '_' then '-' else c.toLower)
  if ["utf-8", "utf8"].contains normal then some utf8
  else if ["ascii", "us-ascii"].contains normal then some ascii
  else if ["latin-1", "latin1", "iso-8859-1", "iso8859-1"].contains normal then some latin1
  else none

def encodeBelow (bound : Nat) (s : String) : Option (List UInt8) :=
  if s.toList.all fun c => c.toNat < bound then some (s.toList.map fun c => UInt8.ofNat c.toNat) else none

def decodeBelow (bound : Nat) (b : List UInt8) : Option String :=
  if b.all fun x => x.toNat < bound then some (String.ofList (b.map fun x => Char.ofNat x.toNat)) else none

def encode (codec : Codec) (s : String) : Option (List UInt8) :=
  match codec with
  | utf8 => some s.toUTF8.data.toList
  | ascii => encodeBelow 0x80 s
  | latin1 => encodeBelow 0x100 s

def decode (codec : Codec) (b : List UInt8) : Option String :=
  match codec with
  | utf8 => String.fromUTF8? ⟨b.toArray⟩
  | ascii => decodeBelow 0x80 b
  | latin1 => decodeBelow 0x100 b

end Codec

end Speculator.Text
