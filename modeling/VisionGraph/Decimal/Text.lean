import VisionGraph.Decimal.Shortest
/-!
How decimals are laid out as text: plain digits with a point, or one leading digit and an exponent.
-/

namespace VisionGraph

namespace Decimal

/-- The decimal digits of the coefficient. -/
def digits (d : Decimal) : List Char := Nat.toDigits 10 d.coeff

/-- The exponent of the leading digit. -/
def leading (d : Decimal) : Int := d.scale + d.digits.length - 1

/-- Plain layout with at least one digit on each side of the point. -/
def positional (d : Decimal) : String :=
  let digits := d.digits
  if 0 ≤ d.scale then
    String.ofList (digits ++ List.replicate d.scale.toNat '0') ++ ".0"
  else
    let places := (-d.scale).toNat
    let padded := List.replicate (places + 1 - digits.length) '0' ++ digits
    let whole := padded.length - places
    String.ofList (padded.take whole) ++ "." ++ String.ofList (padded.drop whole)

/-- One leading digit, the others behind a point, and the exponent; `plus` writes a plus sign before
an exponent that is not negative. -/
def scientific (plus : Bool) (d : Decimal) : String :=
  let (head, rest) := (d.digits.take 1, d.digits.drop 1)
  let fraction := if rest.isEmpty then "" else "." ++ String.ofList rest
  let e := d.leading
  let sign := if plus && decide (0 ≤ e) then "+" else ""
  String.ofList head ++ fraction ++ "e" ++ sign ++ toString e

/-- A convention for writing binary numbers with the fewest digits. -/
structure Style where
  tie : Tie
  /-- Whether a number with this leading exponent is written without an exponent. -/
  plain : Int → Bool
  plusSign : Bool
  nan : String
  infinity : String

/-- Writes the number of a bit pattern; zero is always plain. -/
def Style.render (s : Style) (l : BinaryLayout) (bits : Nat) : String :=
  match l.decode bits with
  | .nan => s.nan
  | .infinite negative => (if negative then "-" else "") ++ s.infinity
  | .finite negative m q =>
    let d := shortest l s.tie m q
    let text := if m = 0 || s.plain d.leading then d.positional else d.scientific s.plusSign
    (if negative then "-" else "") ++ text

/-- The style of generated code and of messages: plain from one ten-thousandth up to sixteen digits. -/
def sourceStyle : Style :=
  { tie := .up
    plain := fun e => decide (-4 ≤ e ∧ e < 16)
    plusSign := false
    nan := "NaN"
    infinity := "inf" }

/-- The style of data files, which is wider for doubles than for singles and has no special numbers. -/
def dataStyle (l : BinaryLayout) : Style :=
  { tie := .even
    plain := if l = .single then fun e => decide (-6 ≤ e ∧ e ≤ 12) else fun e => decide (-5 ≤ e ∧ e ≤ 15)
    plusSign := true
    nan := "null"
    infinity := "null" }

/-- Divides rounding to the nearest whole number, a half to the even one. -/
def roundDiv (num den : Nat) : Nat :=
  let c := num / den
  let rest := 2 * (num - c * den)
  if rest < den then c
  else if den < rest then c + 1
  else if c % 2 = 0 then c else c + 1

/-- The exact decimal of `m * 2 ^ q` rounded to the scale `-places`. -/
def rounded (m : Nat) (q : Int) (scale : Int) : Decimal :=
  let num := m * Nat.pow 2 q.toNat * Nat.pow 10 (-scale).toNat
  let den := Nat.pow 2 (-q).toNat * Nat.pow 10 scale.toNat
  ⟨roundDiv num den, scale⟩

/-- Plain layout with exactly `places` digits behind the point. -/
def fixedText (m : Nat) (q : Int) (places : Nat) : String :=
  let d := rounded m q (-places)
  let digits := d.digits
  let padded := List.replicate (places + 1 - digits.length) '0' ++ digits
  let whole := padded.length - places
  String.ofList (padded.take whole) ++
    (if places = 0 then "" else "." ++ String.ofList (padded.drop whole))

/-- One leading digit, exactly `places` digits behind the point, and the exponent. -/
def scientificText (m : Nat) (q : Int) (places : Nat) : String :=
  if m = 0 then
    "0" ++ (if places = 0 then "" else "." ++ String.ofList (List.replicate places '0')) ++ "e0"
  else
    let i := Interval.ofBinary .double m q
    let e := exponent i (exponentEstimate m q)
    let d := rounded m q (e - places)
    let d := if d.coeff = Nat.pow 10 (places + 1) then ⟨d.coeff / 10, d.scale + 1⟩ else d
    let fraction := if places = 0 then "" else "." ++ String.ofList (d.digits.drop 1)
    String.ofList (d.digits.take 1) ++ fraction ++ "e" ++ toString d.leading

/-- A double with `places` digits behind the point. -/
def fixed (places : Nat) (x : Float) : String :=
  match BinaryLayout.double.decode x.toBits.toNat with
  | .nan => "NaN"
  | .infinite negative => if negative then "-inf" else "inf"
  | .finite negative m q => (if negative then "-" else "") ++ fixedText m q places

/-- A double with a leading digit, `places` digits behind the point and an exponent; `plus` writes the sign
of a number that is not negative. -/
def scaled (places : Nat) (plus : Bool) (x : Float) : String :=
  match BinaryLayout.double.decode x.toBits.toNat with
  | .nan => "NaN"
  | .infinite negative => if negative then "-inf" else if plus then "+inf" else "inf"
  | .finite negative m q =>
    (if negative then "-" else if plus then "+" else "") ++ scientificText m q places

end Decimal

end VisionGraph
