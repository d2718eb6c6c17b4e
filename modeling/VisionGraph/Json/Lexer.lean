import VisionGraph.Json.Number
/-!
The tokens of JSON text, read one character after the other.
-/

namespace VisionGraph

namespace Json

/-- What the next character belongs to. Unfinished tokens are kept in reverse. -/
inductive Mode where
  | between
  | number (lexeme : List Char)
  | word (letters : List Char)
  | text (pieces : List Piece)
  /-- After a backslash. -/
  | escape (pieces : List Piece)
  /-- Inside a code unit, with some digits left. -/
  | hex (pieces : List Piece) (left value : Nat)
deriving DecidableEq, Repr

/-- The state of reading; finished tokens are kept in reverse. -/
structure Lexer where
  mode : Mode
  tokens : List Token
deriving DecidableEq, Repr

def hexValue? (c : Char) : Option Nat :=
  if c.isDigit then some (c.toNat - 48)
  else if 'a' ≤ c ∧ c ≤ 'f' then some (c.toNat - 87)
  else if 'A' ≤ c ∧ c ≤ 'F' then some (c.toNat - 55)
  else none

/-- The code unit of a short escape. -/
def shortEscape? : Char → Option Nat
  | '"' => some 34
  | '\\' => some 92
  | '/' => some 47
  | 'b' => some 8
  | 'f' => some 12
  | 'n' => some 10
  | 'r' => some 13
  | 't' => some 9
  | _ => none

def wordToken? : List Char → Option Token
  | ['n', 'u', 'l', 'l'] => some .null
  | ['t', 'r', 'u', 'e'] => some (.bool true)
  | ['f', 'a', 'l', 's', 'e'] => some (.bool false)
  | _ => none

namespace Lexer

/-- Ends a number or a word. -/
def flush (l : Lexer) : Option Lexer :=
  match l.mode with
  | .between => some l
  | .number lexeme =>
    (Numeral.ofLexeme? lexeme.reverse).map fun _ => ⟨.between, .number lexeme.reverse :: l.tokens⟩
  | .word letters => (wordToken? letters.reverse).map fun t => ⟨.between, t :: l.tokens⟩
  | .text _ | .escape _ | .hex .. => none

/-- Reads a character between tokens. -/
def start (tokens : List Token) (c : Char) : Option Lexer :=
  if isGap c then some ⟨.between, tokens⟩
  else
    match c with
    | '[' => some ⟨.between, .arrayOpen :: tokens⟩
    | ']' => some ⟨.between, .arrayClose :: tokens⟩
    | '\x7b' => some ⟨.between, .objectOpen :: tokens⟩
    | '\x7d' => some ⟨.between, .objectClose :: tokens⟩
    | ',' => some ⟨.between, .comma :: tokens⟩
    | ':' => some ⟨.between, .colon :: tokens⟩
    | '"' => some ⟨.text [], tokens⟩
    | c =>
      if c.isDigit || c == '-' then some ⟨.number [c], tokens⟩
      else if c.isLower then some ⟨.word [c], tokens⟩
      else none

def step (l : Lexer) (c : Char) : Option Lexer :=
  match l.mode with
  | .between => start l.tokens c
  | .number lexeme =>
    if isNumberChar c then some { l with mode := .number (c :: lexeme) }
    else l.flush.bind fun l => start l.tokens c
  | .word letters =>
    if c.isLower then some { l with mode := .word (c :: letters) }
    else l.flush.bind fun l => start l.tokens c
  | .text pieces =>
    if c = '"' then some ⟨.between, .text pieces.reverse :: l.tokens⟩
    else if c = '\\' then some { l with mode := .escape pieces }
    else if c.toNat < 32 then none
    else some { l with mode := .text (.plain c :: pieces) }
  | .escape pieces =>
    if c = 'u' then some { l with mode := .hex pieces 4 0 }
    else (shortEscape? c).map fun u => { l with mode := .text (.unit u :: pieces) }
  | .hex pieces left value =>
    (hexValue? c).map fun d =>
      let value := value * 16 + d
      if left ≤ 1 then { l with mode := .text (.unit value :: pieces) }
      else { l with mode := .hex pieces (left - 1) value }

end Lexer

/-- The tokens of a text. -/
def tokens? (text : List Char) : Option (List Token) :=
  (text.foldlM Lexer.step ⟨.between, []⟩).bind fun l => l.flush.map (·.tokens.reverse)

end Json

end VisionGraph
