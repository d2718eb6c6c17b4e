import VisionGraph.Binary.Layout
/-!
Single-precision numbers, kept as their bit pattern so that equality of values is equality of patterns.
-/

namespace VisionGraph

/-- A single-precision number given by its bit pattern. -/
structure Single where
  bits : UInt32
deriving DecidableEq, Repr, Inhabited

namespace Single

def datum (x : Single) : BinaryLayout.Datum :=
  BinaryLayout.single.decode x.bits.toNat

/-- The pattern without its sign. -/
def magnitude (x : Single) : UInt32 := x.bits &&& 0x7fffffff

def isNaN (x : Single) : Bool := 0x7f800000 < x.magnitude

def isInfinite (x : Single) : Bool := x.magnitude == 0x7f800000

def isNegative (x : Single) : Bool := x.bits != x.magnitude

/-- Numeric equality: a NaN equals nothing, and the two zeros are equal. -/
def sameNumber (x y : Single) : Bool :=
  !x.isNaN && !y.isNaN && (x.bits == y.bits || (x.magnitude == 0 && y.magnitude == 0))

def toFloat (x : Single) : Float := (Float32.ofBits x.bits).toFloat

/-- The nearest single to a double. -/
def ofFloat (x : Float) : Single := ⟨x.toFloat32.toBits⟩

/-- The nearest single to a whole number below `2 ^ 64`. A number of more than 53 bits keeps one sticky bit in
place of the bits it drops, so the result is rounded only once. -/
def ofNat (n : Nat) : Single :=
  if n < Nat.pow 2 53 then ofFloat (Float.ofNat n)
  else
    let sticky := if n % 2048 = 0 then 0 else 1
    ofFloat (Float.ofNat (n / 2048 ||| sticky) * 2048)

/-- The nearest single to an integer of less than 64 bits. -/
def ofInt (n : Int) : Single :=
  if n < 0 then ⟨(ofNat n.natAbs).bits ||| 0x80000000⟩ else ofNat n.natAbs

end Single

end VisionGraph
