/-!
# Blank characters and lines

Trimming and line splitting of text.  A character is blank when it has the Unicode property `White_Space`.  A line
ends at a line feed, and a carriage return just before that line feed belongs to the line end.
-/

namespace Speculator.Text

/-- The characters with the Unicode property `White_Space`. -/
def isBlank (c : Char) : Bool :=
  let n := c.toNat
  (0x9 ≤ n && n ≤ 0xd) || n == 0x20 || n == 0x85 || n == 0xa0 || n == 0x1680 || (0x2000 ≤ n && n ≤ 0x200a) ||
    n == 0x2028 || n == 0x2029 || n == 0x202f || n == 0x205f || n == 0x3000

def dropBlankEnd (cs : List Char) : List Char := (cs.reverse.dropWhile isBlank).reverse

def trimEnd (s : String) : String := String.ofList (dropBlankEnd s.toList)

def trim (s : String) : String := String.ofList (dropBlankEnd (s.toList.dropWhile isBlank))

/-- The lines of characters, with those of the current line already read, last one first. -/
def linesFrom (current : List Char) : List Char → List (List Char)
  | [] => if current.isEmpty then [] else [current.reverse]
  | c :: cs =>
    if c = '\n' then
      (match current with
        | '\r' :: rest => rest
        | line => line).reverse :: linesFrom [] cs
    else linesFrom (c :: current) cs

/-- The lines of a text, without their ends.  There is no empty line after the last line end. -/
def lines (s : String) : List String := (linesFrom [] s.toList).map String.ofList

def occursIn {α : Type} [BEq α] (needle : List α) : List α → Bool
  | [] => needle.isEmpty
  | a :: text => needle.isPrefixOf (a :: text) || occursIn needle text

def isAscii (s : String) : Bool := s.toList.all fun c => c.toNat < 0x80

end Speculator.Text
