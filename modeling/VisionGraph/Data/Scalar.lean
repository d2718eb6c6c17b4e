import VisionGraph.Binary.Single
import VisionGraph.Data.Kind
import VisionGraph.Decimal.Text
/-!
Scalar values and their spellings.
-/

namespace VisionGraph

/-- A typed scalar value. -/
inductive Scalar where
  | u8 (v : UInt8)
  | u16 (v : UInt16)
  | s16 (v : Int16)
  | u32 (v : UInt32)
  | s32 (v : Int32)
  | f32 (v : Single)
  | bool (v : Bool)
  | enum (v : UInt32)
deriving DecidableEq, Repr, Inhabited

namespace Scalar

def type : Scalar → ScalarType
  | .u8 _ => .u8
  | .u16 _ => .u16
  | .s16 _ => .s16
  | .u32 _ => .u32
  | .s32 _ => .s32
  | .f32 _ => .f32
  | .bool _ => .bool
  | .enum _ => .enum

/-- The shortest text of a single, as generated code and messages spell it. -/
def singleText (v : Single) : String :=
  Decimal.sourceStyle.render .single v.bits.toNat

/-- The value as an expression of generated code. -/
def cLiteral : Scalar → String
  | .u8 v => s!"((uint8_t){v.toNat})"
  | .u16 v => s!"((uint16_t){v.toNat})"
  | .s16 v => s!"((int16_t){v.toInt})"
  | .u32 v | .enum v => s!"{v.toNat}u"
  | .s32 v => s!"((int32_t){v.toInt}L)"
  | .f32 v =>
    if v.isNaN then "NAN"
    else if v.isInfinite then (if v.isNegative then "(-INFINITY)" else "INFINITY")
    else s!"({singleText v}f)"
  | .bool v => if v then "1" else "0"

/-- The stored number of the value. -/
def toElement : Scalar → Int
  | .u8 v => v.toNat
  | .u16 v => v.toNat
  | .s16 v => v.toInt
  | .u32 v | .enum v => v.toNat
  | .s32 v => v.toInt
  | .f32 v => v.bits.toNat
  | .bool v => if v then 1 else 0

/-- The value with a given stored number; a truth value is true when its number is not zero. -/
def ofElement : ScalarType → Int → Scalar
  | .u8, n => .u8 (UInt8.ofNat (Element.u8.pattern n))
  | .u16, n => .u16 (UInt16.ofNat (Element.u16.pattern n))
  | .s16, n => .s16 (Int16.ofInt n)
  | .u32, n => .u32 (UInt32.ofNat (Element.u32.pattern n))
  | .s32, n => .s32 (Int32.ofInt n)
  | .f32, n => .f32 ⟨UInt32.ofNat (Element.f32.pattern n)⟩
  | .bool, n => .bool (Element.s32.wrap n != 0)
  | .enum, n => .enum (UInt32.ofNat (Element.u32.pattern n))

/-- The value of a fresh scalar of the given type. -/
def zero (t : ScalarType) : Scalar := ofElement t 0

def toFloat : Scalar → Float
  | .f32 v => v.toFloat
  | v => Float.ofInt v.toElement

def enum? : Scalar → Option UInt32
  | .enum v => some v
  | _ => none

/-- Equality of values: singles are compared as numbers, all else as it is. -/
def sameValue : Scalar → Scalar → Bool
  | .f32 a, .f32 b => a.sameNumber b
  | a, b => a == b

/-- The value with its type, as messages spell it. -/
def inspect : Scalar → String
  | .u8 v => s!"U8({v.toNat})"
  | .u16 v => s!"U16({v.toNat})"
  | .s16 v => s!"S16({v.toInt})"
  | .u32 v => s!"U32({v.toNat})"
  | .s32 v => s!"S32({v.toInt})"
  | .f32 v => s!"F32({singleText v})"
  | .bool v => s!"Bool({v})"
  | .enum v => s!"Enum({v.toNat})"

end Scalar

end VisionGraph
