import VisionGraph.Data.Scalar
import VisionGraph.Kernel.Rule
/-!
Pixel-wise kernels: the new value of one sample from the samples at the same place.
-/

namespace VisionGraph

/-- What is known of a parameter while samples are computed. -/
structure LaneType where
  element : Element
  constant : Option Scalar
deriving DecidableEq, Repr, Inhabited

/-- What is known of all parameters. -/
abbrev LaneTypes := Array LaneType

namespace LaneTypes

@[inline] def element (t : LaneTypes) (slot : Nat) : Element := (t.getD slot default).element

def constant (t : LaneTypes) (slot : Nat) : Option Scalar := (t.getD slot default).constant

/-- Whether the constant conversion policy is to saturate. -/
@[inline] def saturates (t : LaneTypes) (slot : Nat) : Bool :=
  t.constant slot == some (.enum saturatePolicy)

end LaneTypes

/-- The meaning of a pixel-wise kernel. -/
structure PixelRule where
  /-- The parameter that is written. -/
  target : Nat
  /-- Checked once before any sample is written; the node fails when it does not hold. -/
  admits : LaneTypes → (Nat → Int) → Bool
  /-- The new sample of the target from the samples of all parameters. -/
  value : LaneTypes → (Nat → Int) → Int

namespace Element

/-- A stored number as a real number. -/
@[inline] def toFloat (e : Element) (v : Int) : Float :=
  if e = .f32 then Single.toFloat ⟨UInt32.ofNat (e.pattern v)⟩ else Float.ofInt v

/-- A stored number as an integer, rounded toward zero. -/
@[inline] def toInteger (e : Element) (v : Int) : Int :=
  if e = .f32 then
    match (Single.mk (UInt32.ofNat (e.pattern v))).datum with
    | .finite negative m q =>
      let n : Int := (m * Nat.pow 2 q.toNat / Nat.pow 2 (-q).toNat : Nat)
      if negative then -n else n
    | _ => 0
  else v

/-- The stored number of an integer, limited to the range or wrapped into it. -/
@[inline] def convert (e : Element) (saturate : Bool) (v : Int) : Int :=
  if e = .f32 then (Single.ofInt v).bits.toNat
  else if saturate then e.clamp v
  else e.wrap v

end Element

namespace Real64

/-- Limits a number; a NaN stays. -/
@[inline] def clamp (v lo hi : Float) : Float :=
  if v < lo then lo else if hi < v then hi else v

/-- Rounds toward zero, limited to what an integer sample can hold; a NaN gives zero. -/
@[inline] def truncate (v : Float) : Int :=
  if v.isNaN then 0 else (clamp v (-2147483648.0) 4294967295.0).toInt64.toInt

end Real64

end VisionGraph
