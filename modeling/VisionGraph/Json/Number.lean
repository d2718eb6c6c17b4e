import VisionGraph.Json.Token
import VisionGraph.Binary.Single
import VisionGraph.Text.Blank
/-!
Numbers of JSON text.

A number without a fraction and an exponent is an integer when it fits 64 bits. Any other number is a
double: a 64-bit significand, in which digits past the limit only count as a power of ten, and one
multiplication or division by that power.
-/

namespace VisionGraph

namespace Json

/-- The parts of a number as it is written. -/
structure Numeral where
  negative : Bool
  whole : List Char
  fraction : Option (List Char)
  /-- The sign and the digits of the exponent. -/
  exponent : Option (Bool × List Char)
deriving DecidableEq, Repr, Inhabited

namespace Numeral

/-- The exponent at the end of a number. -/
def exponent? : List Char → Option (Option (Bool × List Char))
  | [] => some none
  | c :: rest =>
    if c = 'e' || c = 'E' then
      let (negative, digits) := match rest with
        | '-' :: digits => (true, digits)
        | '+' :: digits => (false, digits)
        | digits => (false, digits)
      if !digits.isEmpty && digits.all Char.isDigit then some (some (negative, digits)) else none
    else none

/-- What follows the whole part. -/
def tail? (negative : Bool) (whole : List Char) : List Char → Option Numeral
  | '.' :: rest =>
    let digits := rest.takeWhile Char.isDigit
    if digits.isEmpty then none
    else (exponent? (rest.dropWhile Char.isDigit)).map (⟨negative, whole, some digits, ·⟩)
  | rest => (exponent? rest).map (⟨negative, whole, none, ·⟩)

def unsigned? (negative : Bool) (cs : List Char) : Option Numeral :=
  let whole := cs.takeWhile Char.isDigit
  match whole with
  | [] => none
  | '0' :: _ :: _ => none
  | _ => tail? negative whole (cs.dropWhile Char.isDigit)

/-- Reads a number; a leading zero stands alone, and a point or an exponent needs digits. -/
def ofLexeme? : List Char → Option Numeral
  | '-' :: rest => unsigned? true rest
  | cs => unsigned? false cs

def isInteger (n : Numeral) : Bool := n.fraction.isNone && n.exponent.isNone

def digit (c : Char) : Nat := c.toNat - 48

/-- Reads digits into a 64-bit significand; from the first one that does not fit, all are left over. -/
def accumulate : (significand : Nat) → List Char → Nat × List Char
  | s, [] => (s, [])
  | s, c :: rest =>
    if s * 10 + digit c < UInt64.size then accumulate (s * 10 + digit c) rest else (s, c :: rest)

/-- A significand and a power of ten. -/
structure Scaled where
  significand : Nat
  exponent : Int
deriving DecidableEq, Repr

/-- The number without its exponent. Left over digits of the whole part raise the power of ten, those of
the fraction are dropped. -/
def scaled (n : Numeral) : Scaled :=
  let (s, left) := accumulate 0 n.whole
  let fraction := n.fraction.getD []
  let (s, dropped) := accumulate s fraction
  ⟨s, left.length - (fraction.length - dropped.length : Nat)⟩

/-- Divides by the largest power of ten until the rest of the exponent fits. -/
def divide (x : Float) (exponent : Nat) : (fuel : Nat) → Float
  | 0 => x
  | fuel + 1 =>
    if exponent ≤ 308 then x / Float.ofScientific 1 false exponent
    else if x == 0 then x
    else divide (x / Float.ofScientific 1 false 308) (exponent - 308) fuel

/-- The double of a significand and a power of ten; too large a number has none. -/
def toReal (s : Scaled) : Option Float :=
  let x := Float.ofNat s.significand
  if s.exponent < 0 then some (divide x s.exponent.natAbs s.exponent.natAbs)
  else if s.exponent ≤ 308 then
    let y := x * Float.ofScientific 1 false s.exponent.toNat
    if y.isInf then none else some y
  else if s.significand = 0 then some x
  else none

/-- The double that a number names. -/
def real? (n : Numeral) : Option Float :=
  let s := n.scaled
  let magnitude : Option Float :=
    match n.exponent with
    | none => toReal s
    | some (negative, digits) =>
      let e : Nat := digits.foldl (fun e c => e * 10 + digit c) 0
      if e < 0x80000000 then toReal { s with exponent := if negative then s.exponent - e else s.exponent + e }
      else if negative || s.significand = 0 then some 0
      else none
  magnitude.map fun x => if n.negative then -x else x

end Numeral

/-- What a number is to a reader. -/
inductive NumberValue where
  | natural (n : Nat)
  /-- The negative of a number other than zero. -/
  | negative (n : Nat)
  | real (x : Float)

namespace NumberValue

/-- The value of a number as it is written. -/
def ofLexeme? (lexeme : List Char) : Option NumberValue :=
  (Numeral.ofLexeme? lexeme).bind fun n =>
    match accumulateWhole n with
    | some k =>
      if !n.negative then some (.natural k)
      else if 0 < k && k ≤ 0x8000000000000000 then some (.negative k)
      else some (.real (-Float.ofNat k))
    | none => n.real?.map .real
where
  /-- The integer, if the number is one and fits 64 bits. -/
  accumulateWhole (n : Numeral) : Option Nat :=
    match Numeral.accumulate 0 n.whole with
    | (k, []) => if n.isInteger then some k else none
    | _ => none

end NumberValue

end Json

end VisionGraph
