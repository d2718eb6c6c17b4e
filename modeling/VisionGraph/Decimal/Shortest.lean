import VisionGraph.Binary.Layout
/-!
The shortest decimal that reads back as a given binary number.

A binary number stands for the interval of reals that round to it. Among the decimals in that
interval the ones with the fewest digits are taken, and of these the one nearest to the number.
-/

namespace VisionGraph

/-- The number `coeff * 10 ^ scale`. -/
structure Decimal where
  coeff : Nat
  scale : Int
deriving DecidableEq, Repr, Inhabited

namespace Decimal

/-- Which of two equally near decimals is taken. -/
inductive Tie where
  | up
  | even
deriving DecidableEq, Repr

/-- A positive number `value / den` with the ends of the interval that rounds to it. -/
structure Interval where
  low : Nat
  value : Nat
  high : Nat
  den : Nat
  closed : Bool
deriving Repr

namespace Interval

/-- The interval of `m * 2 ^ q`: half a step to each side, a quarter below when the step narrows there.
The ends belong to it when `m` is even, since ties round to even. -/
def ofBinary (l : BinaryLayout) (m : Nat) (q : Int) : Interval :=
  let scale := Nat.pow 2 q.toNat
  let below := if l.narrowBelow m q then 1 else 2
  { low := (4 * m - below) * scale
    value := 4 * m * scale
    high := (4 * m + 2) * scale
    den := 4 * Nat.pow 2 (-q).toNat
    closed := m % 2 == 0 }

/-- Multiplies the interval by `10 ^ k`. -/
def shift (i : Interval) (k : Int) : Interval :=
  let up := Nat.pow 10 k.toNat
  { i with
    low := i.low * up
    value := i.value * up
    high := i.high * up
    den := i.den * Nat.pow 10 (-k).toNat }

/-- Whether the whole number `c` lies in the interval. -/
def holds (i : Interval) (c : Nat) : Bool :=
  if i.closed then decide (i.low ≤ c * i.den ∧ c * i.den ≤ i.high)
  else decide (i.low < c * i.den ∧ c * i.den < i.high)

/-- The whole number of the interval nearest to its value, if one of the value's two neighbours lies in it. -/
def nearest? (tie : Tie) (i : Interval) : Option Nat :=
  let c := i.value / i.den
  match i.holds c, i.holds (c + 1) with
  | false, false => none
  | true, false => some c
  | false, true => some (c + 1)
  | true, true =>
    let rest := 2 * (i.value - c * i.den)
    if rest < i.den then some c
    else if i.den < rest then some (c + 1)
    else match tie with
      | .up => some (c + 1)
      | .even => some (if c % 2 = 0 then c else c + 1)

end Interval

/-- A lower estimate of the decimal exponent of `m * 2 ^ q`, at most one too small. -/
def exponentEstimate (m : Nat) (q : Int) : Int :=
  ((m.log2 : Int) + q) * 30103 / 100000

/-- The decimal exponent `k` of a positive number: `10 ^ k ≤ m * 2 ^ q < 10 ^ (k + 1)`. -/
def exponent (i : Interval) (estimate : Int) : Int :=
  let next := i.shift (-(estimate + 1))
  if next.den ≤ next.value then estimate + 1 else estimate

/-- Drops trailing zeros of the coefficient. -/
def trim (d : Decimal) : Decimal :=
  go d.coeff d.scale d.coeff
where
  /-- The fuel is the coefficient, which shrinks with every zero dropped. -/
  go (coeff : Nat) (scale : Int) : Nat → Decimal
    | 0 => ⟨coeff, scale⟩
    | fuel + 1 => if coeff % 10 = 0 ∧ coeff ≠ 0 then go (coeff / 10) (scale + 1) fuel else ⟨coeff, scale⟩

/-- Tries grids of one digit, two digits and so on; `top` is the scale of the first. -/
def search (tie : Tie) (i : Interval) (top : Int) : (digits : Nat) → Decimal
  | 0 => ⟨(i.shift (-top)).value / (i.shift (-top)).den, top⟩
  | digits + 1 =>
    match (i.shift (-top)).nearest? tie with
    | some c => ⟨c, top⟩
    | none => search tie i (top - 1) digits

/-- The shortest decimal that reads back as `m * 2 ^ q`; seventeen digits always do. -/
def shortest (l : BinaryLayout) (tie : Tie) (m : Nat) (q : Int) : Decimal :=
  if m = 0 then ⟨0, 0⟩
  else
    let i := Interval.ofBinary l m q
    trim (search tie i (exponent i (exponentEstimate m q)) 17)

end Decimal

end VisionGraph
