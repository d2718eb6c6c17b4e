/-!
Blank characters of all scripts, and text without blanks around it.
-/

namespace VisionGraph

/-- Characters that Unicode counts as white space. -/
def isBlank (c : Char) : Bool :=
  let k := c.toNat
  (0x09 ≤ k && k ≤ 0x0D) || k == 0x20 || k == 0x85 || k == 0xA0 || k == 0x1680 || (0x2000 ≤ k && k ≤ 0x200A) ||
    k == 0x2028 || k == 0x2029 || k == 0x202F || k == 0x205F || k == 0x3000

/-- The text without blanks at its ends. -/
def trimBlanks (text : List Char) : List Char :=
  ((text.dropWhile isBlank).reverse.dropWhile isBlank).reverse

/-- Whether there is nothing but blanks. -/
def allBlank (text : String) : Bool := text.toList.all isBlank

/-- The number that decimal digits spell; there must be one at least. -/
def digits? (text : List Char) : Option Nat :=
  if !text.isEmpty && text.all Char.isDigit then
    some (text.foldl (fun n c => n * 10 + (c.toNat - 48)) 0)
  else none

end VisionGraph
