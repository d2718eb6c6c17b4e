import VisionGraph.Decimal.Text
import VisionGraph.Json.Basic
/-!
Values of other types as JSON: numbers, texts, lists, alternatives and records.

A record is an object in which unknown members are skipped and known ones occur once, or an array of
its fields in order. An alternative is its name, or an object with its name and what belongs to it.
-/

namespace VisionGraph

namespace Json

/-! ### Numbers and texts -/

/-- A binary number with the fewest digits; what is not finite is null. -/
def ofBits (l : BinaryLayout) (bits : Nat) : Json :=
  match l.decode bits with
  | .finite .. => .number ((Decimal.dataStyle l).render l bits).toList
  | _ => .null

def ofSingle (x : Single) : Json := ofBits .single x.bits.toNat

def ofReal (x : Float) : Json := ofBits .double x.toBits.toNat

def text? : Json → Option String
  | .text pieces => (Piece.decode pieces).map String.ofList
  | _ => none

def bool? : Json → Option Bool
  | .bool b => some b
  | _ => none

/-- The value of a number. -/
def number? : Json → Option NumberValue
  | .number lexeme => NumberValue.ofLexeme? lexeme
  | _ => none

/-- An integer between bounds. -/
def int? (lo hi : Int) (j : Json) : Option Int :=
  let check (n : Int) : Option Int := if lo ≤ n ∧ n ≤ hi then some n else none
  match j.number? with
  | some (.natural n) => check n
  | some (.negative n) => check (-n)
  | _ => none

/-- A natural number below a bound. -/
def nat? (bound : Nat) (j : Json) : Option Nat := (j.int? 0 (bound - 1)).map Int.toNat

def word? (j : Json) : Option UInt32 := (j.nat? UInt32.size).map UInt32.ofNat

/-- A natural number of any size up to 128 bits; no sign is allowed. -/
def long? : Json → Option Nat
  | .number lexeme => (digits? lexeme).filter (· < UInt64.size * UInt64.size)
  | _ => none

def single? (j : Json) : Option Single :=
  match j.number? with
  | some (.natural n) => some (Single.ofNat n)
  | some (.negative n) => some (Single.ofInt (-n))
  | some (.real x) => some (Single.ofFloat x)
  | none => none

def real? (j : Json) : Option Float :=
  match j.number? with
  | some (.natural n) => some (Float.ofNat n)
  | some (.negative n) => some (-Float.ofNat n)
  | some (.real x) => some x
  | none => none

/-! ### Lists and alternatives -/

def list? {α : Type} (f : Json → Option α) : Json → Option (List α)
  | .array items => items.mapM f
  | _ => none

def option? {α : Type} (f : Json → Option α) : Json → Option (Option α)
  | .null => some none
  | j => (f j).map some

/-- The name of an alternative, and what belongs to it. -/
def variant? : Json → Option (String × Option Json)
  | .text pieces => (Piece.decode pieces).map fun name => (String.ofList name, none)
  | .object [(pieces, content)] => (Piece.decode pieces).map fun name => (String.ofList name, some content)
  | _ => none

/-- The name of an alternative to which nothing belongs. -/
def bareVariant? (j : Json) : Option String :=
  match j.variant? with
  | some (name, none) | some (name, some .null) => some name
  | _ => none

/-- An alternative with something that belongs to it. -/
def tagged (name : String) (content : Json) : Json := record [(name, content)]

/-! ### Records -/

/-- The known fields of a record. -/
structure Fields where
  values : List (String × Json)
  /-- Whether the record is written as an array. -/
  positional : Bool

/-- A member with its name read. -/
def member? (m : List Piece × Json) : Option (String × Json) :=
  (Piece.decode m.1).map fun name => (String.ofList name, m.2)

/-- The fields of a record with the given names. -/
def fields? (names : List String) : Json → Option Fields
  | .object members =>
    (members.mapM member?).bind fun all =>
      let known := all.filter fun m => names.contains m.1
      if (known.map (·.1)).Nodup then some ⟨known, false⟩ else none
  | .array items => if items.length ≤ names.length then some ⟨names.zip items, true⟩ else none
  | _ => none

namespace Fields

/-- A field that must be there. -/
def required {α : Type} (fs : Fields) (name : String) (f : Json → Option α) : Option α :=
  (fs.values.lookup name).bind f

/-- A field that stands for none when it is left out of an object. -/
def optional {α : Type} (fs : Fields) (name : String) (f : Json → Option α) : Option (Option α) :=
  match fs.values.lookup name with
  | some j => option? f j
  | none => if fs.positional then none else some none

/-- A field with a value of its own for when it is left out. -/
def orElse {α : Type} (fs : Fields) (name : String) (value : α) (f : Json → Option α) : Option α :=
  match fs.values.lookup name with
  | some j => f j
  | none => some value

end Fields

end Json

end VisionGraph
