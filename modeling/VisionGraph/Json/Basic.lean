import VisionGraph.Json.Lexer
/-!
JSON values: their tokens, their text in one line or with indentation, and how they are read back.
-/

namespace VisionGraph

/-- A JSON value. Numbers and texts are kept as they are written, and an object keeps all its members in
order. -/
inductive Json where
  | null
  | bool (b : Bool)
  | number (lexeme : List Char)
  | text (pieces : List Json.Piece)
  | array (items : List Json)
  | object (members : List (List Json.Piece × Json))
deriving Inhabited

namespace Json

/-! ### Writing -/

def pieces (s : String) : List Piece := s.toList.map .plain

def ofText (s : String) : Json := .text (pieces s)

def ofNat (n : Nat) : Json := .number (Nat.toDigits 10 n)

def ofInt (n : Int) : Json :=
  if n < 0 then .number ('-' :: Nat.toDigits 10 n.natAbs) else ofNat n.natAbs

def ofList {α : Type} (f : α → Json) (xs : List α) : Json := .array (xs.map f)

def ofOption {α : Type} (f : α → Json) : Option α → Json
  | none => .null
  | some a => f a

/-- An object from names and values. -/
def record (members : List (String × Json)) : Json := .object (members.map fun (k, v) => (pieces k, v))

mutual

/-- The tokens of a value. -/
def tokens : Json → List Token
  | .null => [.null]
  | .bool b => [.bool b]
  | .number lexeme => [.number lexeme]
  | .text pieces => [.text pieces]
  | .array items => .arrayOpen :: (itemTokens items ++ [.arrayClose])
  | .object members => .objectOpen :: (memberTokens members ++ [.objectClose])

def itemTokens : List Json → List Token
  | [] => []
  | [j] => tokens j
  | j :: rest => tokens j ++ .comma :: itemTokens rest

def memberTokens : List (List Piece × Json) → List Token
  | [] => []
  | [(k, j)] => .text k :: .colon :: tokens j
  | (k, j) :: rest => .text k :: .colon :: (tokens j ++ .comma :: memberTokens rest)

end

/-- The text without any blanks. -/
def compact (j : Json) : String := String.ofList (j.tokens.flatMap Token.spell)

def newline (indent : Nat) : List Char := '\n' :: List.replicate (2 * indent) ' '

mutual

/-- The text with one item or member a line, inside a given number of containers. -/
def prettyChars (indent : Nat) : Json → List Char
  | .null => Token.null.spell
  | .bool b => (Token.bool b).spell
  | .number lexeme => lexeme
  | .text pieces => (Token.text pieces).spell
  | .array [] => ['[', ']']
  | .array (j :: rest) =>
    '[' :: (newline (indent + 1) ++ prettyChars (indent + 1) j ++ prettyItems (indent + 1) rest ++
      newline indent ++ [']'])
  | .object [] => ['\x7b', '\x7d']
  | .object ((k, j) :: rest) =>
    '\x7b' :: (newline (indent + 1) ++ (Token.text k).spell ++ [':', ' '] ++ prettyChars (indent + 1) j ++
      prettyMembers (indent + 1) rest ++ newline indent ++ ['\x7d'])

def prettyItems (indent : Nat) : List Json → List Char
  | [] => []
  | j :: rest => ',' :: (newline indent ++ prettyChars indent j ++ prettyItems indent rest)

def prettyMembers (indent : Nat) : List (List Piece × Json) → List Char
  | [] => []
  | (k, j) :: rest =>
    ',' :: (newline indent ++ (Token.text k).spell ++ [':', ' '] ++ prettyChars indent j ++
      prettyMembers indent rest)

end

def pretty (j : Json) : String := String.ofList (prettyChars 0 j)

/-! ### Reading -/

/-- A container that is not closed yet; what it holds is in reverse. -/
inductive Open where
  | array (items : List Json)
  | object (members : List (List Piece × Json))
  /-- An object whose next member has its name. -/
  | member (members : List (List Piece × Json)) (name : List Piece)
deriving Inhabited

/-- What may come next. -/
inductive Expected where
  | value
  /-- A value, or the end of an array without items. -/
  | item
  | name
  /-- A name, or the end of an object without members. -/
  | firstName
  | colon
  /-- A comma or the end of the container. -/
  | more
deriving DecidableEq, Repr, Inhabited

/-- The state of reading: the open containers from the inside out, and the value when it is complete. -/
structure Reader where
  containers : List Open
  expected : Expected
  result : Option Json
deriving Inhabited

namespace Reader

/-- Puts a complete value where it belongs. -/
def deliver (j : Json) : List Open → Option Reader
  | [] => some ⟨[], .more, some j⟩
  | .array items :: outer => some ⟨.array (j :: items) :: outer, .more, none⟩
  | .member members name :: outer => some ⟨.object ((name, j) :: members) :: outer, .more, none⟩
  | .object _ :: _ => none

/-- Reads the start of a value. -/
def begin (containers : List Open) : Token → Option Reader
  | .null => deliver .null containers
  | .bool b => deliver (.bool b) containers
  | .number lexeme => deliver (.number lexeme) containers
  | .text pieces => deliver (.text pieces) containers
  | .arrayOpen => some ⟨.array [] :: containers, .item, none⟩
  | .objectOpen => some ⟨.object [] :: containers, .firstName, none⟩
  | _ => none

def step (r : Reader) (t : Token) : Option Reader :=
  match r.expected, r.containers, t with
  | .value, containers, t => begin containers t
  | .item, .array items :: outer, .arrayClose => deliver (.array items.reverse) outer
  | .item, containers, t => begin containers t
  | .firstName, .object members :: outer, .objectClose => deliver (.object members.reverse) outer
  | .firstName, .object members :: outer, .text name => some ⟨.member members name :: outer, .colon, none⟩
  | .name, .object members :: outer, .text name => some ⟨.member members name :: outer, .colon, none⟩
  | .colon, containers, .colon => some ⟨containers, .value, none⟩
  | .more, .array items :: outer, .comma => some ⟨.array items :: outer, .value, none⟩
  | .more, .array items :: outer, .arrayClose => deliver (.array items.reverse) outer
  | .more, .object members :: outer, .comma => some ⟨.object members :: outer, .name, none⟩
  | .more, .object members :: outer, .objectClose => deliver (.object members.reverse) outer
  | _, _, _ => none

end Reader

/-- The value that tokens spell. -/
def ofTokens? (ts : List Token) : Option Json :=
  (ts.foldlM Reader.step ⟨[], .value, none⟩).bind (·.result)

/-- Reads a text that holds one value. -/
def parse? (text : String) : Option Json := (tokens? text.toList).bind ofTokens?

end Json

end VisionGraph
