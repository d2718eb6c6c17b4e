/-!
Binary interchange formats: how a bit pattern spells a sign, a significand and an exponent.
-/

namespace VisionGraph

/-- The field widths of a binary interchange format. -/
structure BinaryLayout where
  significandBits : Nat
  exponentBits : Nat
deriving DecidableEq, Repr

namespace BinaryLayout

def single : BinaryLayout := ⟨23, 8⟩

def double : BinaryLayout := ⟨52, 11⟩

/-- What a bit pattern means; a finite datum is `± m * 2 ^ q`. -/
inductive Datum where
  | nan
  | infinite (negative : Bool)
  | finite (negative : Bool) (m : Nat) (q : Int)
deriving DecidableEq, Repr

/-- The exponent of the least positive number of the format. -/
def minExponent (l : BinaryLayout) : Int :=
  2 - Nat.pow 2 (l.exponentBits - 1) - l.significandBits

/-- Splits a bit pattern into its fields. A pattern whose exponent field is zero has no hidden bit. -/
def decode (l : BinaryLayout) (bits : Nat) : Datum :=
  let fraction := bits % Nat.pow 2 l.significandBits
  let field := bits / Nat.pow 2 l.significandBits % Nat.pow 2 l.exponentBits
  let negative := bits / Nat.pow 2 (l.significandBits + l.exponentBits) % 2 == 1
  if field + 1 = Nat.pow 2 l.exponentBits then
    if fraction = 0 then .infinite negative else .nan
  else if field = 0 then
    .finite negative fraction l.minExponent
  else
    .finite negative (fraction + Nat.pow 2 l.significandBits) (l.minExponent + field - 1)

/-- Whether the next smaller number is half as far away as the next larger one. -/
def narrowBelow (l : BinaryLayout) (m : Nat) (q : Int) : Bool :=
  m == Nat.pow 2 l.significandBits && decide (l.minExponent < q)

end BinaryLayout

end VisionGraph
