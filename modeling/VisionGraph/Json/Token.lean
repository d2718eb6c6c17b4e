/-!
Tokens of JSON text and their spelling.

Text between quotes is kept as it is written: characters that stand for themselves, and the code units
of escapes. Numbers are kept as they are written too, so that each reader decides what it accepts.
-/

namespace VisionGraph

namespace Json

/-- One piece of the text between quotes. -/
inductive Piece where
  | plain (c : Char)
  /-- A 16-bit code unit that was written as an escape. -/
  | unit (u : Nat)
deriving DecidableEq, Repr, Inhabited

inductive Token where
  | arrayOpen | arrayClose | objectOpen | objectClose | comma | colon
  | null
  | bool (b : Bool)
  | number (lexeme : List Char)
  | text (pieces : List Piece)
deriving DecidableEq, Repr, Inhabited

/-- Blanks between tokens. -/
def isGap (c : Char) : Bool := c == ' ' || c == '\n' || c == '\t' || c == '\r'

/-- Characters that occur in numbers. -/
def isNumberChar (c : Char) : Bool :=
  c.isDigit || c == '-' || c == '+' || c == '.' || c == 'e' || c == 'E'

namespace Piece

def hexDigit (k : Nat) : Char := Nat.digitChar (k % 16)

/-- Four hexadecimal digits. -/
def hex4 (u : Nat) : List Char := [hexDigit (u / 4096), hexDigit (u / 256), hexDigit (u / 16), hexDigit u]

/-- How a piece is written. Quotes, backslashes and control characters are escaped, those with a short
form by it. -/
def spell : Piece → List Char
  | .unit u => '\\' :: 'u' :: hex4 u
  | .plain c =>
    match c with
    | '"' => ['\\', '"']
    | '\\' => ['\\', '\\']
    | '\n' => ['\\', 'n']
    | '\r' => ['\\', 'r']
    | '\t' => ['\\', 't']
    | c =>
      if c.toNat = 8 then ['\\', 'b']
      else if c.toNat = 12 then ['\\', 'f']
      else if c.toNat < 32 then '\\' :: 'u' :: hex4 c.toNat
      else [c]

/-- The characters that pieces stand for. A code unit of a pair needs its partner. -/
def decode : List Piece → Option (List Char)
  | [] => some []
  | .plain c :: rest => (decode rest).map (c :: ·)
  | .unit high :: .unit low :: rest =>
    if 0xD800 ≤ high ∧ high < 0xDC00 then
      if 0xDC00 ≤ low ∧ low < 0xE000 then
        (decode rest).map (Char.ofNat (0x10000 + (high - 0xD800) * 0x400 + (low - 0xDC00)) :: ·)
      else none
    else if 0xDC00 ≤ high ∧ high < 0xE000 then none
    else (decode (.unit low :: rest)).map (Char.ofNat high :: ·)
  | .unit u :: rest =>
    if 0xD800 ≤ u ∧ u < 0xE000 then none else (decode rest).map (Char.ofNat u :: ·)

end Piece

/-- How a token is written. -/
def Token.spell : Token → List Char
  | .arrayOpen => ['[']
  | .arrayClose => [']']
  | .objectOpen => ['\x7b']
  | .objectClose => ['\x7d']
  | .comma => [',']
  | .colon => [':']
  | .null => ['n', 'u', 'l', 'l']
  | .bool true => ['t', 'r', 'u', 'e']
  | .bool false => ['f', 'a', 'l', 's', 'e']
  | .number lexeme => lexeme
  | .text pieces => '"' :: pieces.flatMap Piece.spell ++ ['"']

end Json

end VisionGraph
