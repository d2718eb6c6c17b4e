import VisionGraph.Data.Meta
/-!
Reasons for which a kernel refuses the metadata of its parameters.
-/

namespace VisionGraph

/-- A word as messages spell numbers of an enumeration. -/
def hexText (n : UInt32) : String := "0x" ++ String.ofList (Nat.toDigits 16 n.toNat)

/-- An extent in pixels. -/
structure Extent where
  width : UInt32
  height : UInt32
deriving DecidableEq, Repr, Inhabited

def Extent.text (e : Extent) : String := s!"{e.width.toNat}x{e.height.toNat}"

inductive RejectionCause where
  | unbound
  | notA (kind : Kind)
  | openInput
  | inputFormat (found : Format) (allowed : List Format)
  | outputFormat (found : Format) (allowed : List Format)
  | extent (found expected : Extent)
  | scalarType (found : ScalarType)
  | openScalar
  | unknownPolicy (value : Scalar)
  | policyNotConstant
  | formatsDiffer
  | depthSource (found : Format)
  | shiftOutside (value : Int32)
  | channelNotConstant
  | channelAbsent (channel : UInt32) (format : Format)
  | noGradient
  | tableItems
  | binItems
  | tooFewBins (capacity : UInt32)
  | scalarOutput (expected found : ScalarType)
  | noScalarType (format : Format)
  | locationItems
  | locationCapacity
  | openAccumulator
  | openLevels
  | noLevels
  | pyramidFormat
deriving DecidableEq, Repr

namespace RejectionCause

def formatList (formats : List Format) : String :=
  String.intercalate ", " (formats.map Format.name)

def message : RejectionCause → String
  | .unbound => "parameter is not bound"
  | .notA .image => "expected an image"
  | .notA .array => "expected an array"
  | .notA kind => s!"expected a {kind.name}"
  | .openInput => "input image is not resolved"
  | .inputFormat found allowed =>
    s!"format {found.name} not supported; expected one of {formatList allowed}"
  | .outputFormat found allowed =>
    s!"output format {found.name} not supported; expected one of {formatList allowed}"
  | .extent found expected => s!"image is {found.text}, expected {expected.text}"
  | .scalarType found => s!"scalar type {found.name} not supported"
  | .openScalar => "scalar type is not resolved"
  | .unknownPolicy value => s!"unknown convert policy {value.inspect}"
  | .policyNotConstant => "convert policy must be a constant enum"
  | .formatsDiffer => "inputs must share a format"
  | .depthSource found => s!"cannot convert depth of {found.name}"
  | .shiftOutside value => s!"shift {value.toInt} outside 0..8"
  | .channelNotConstant => "channel must be a constant enum"
  | .channelAbsent channel format => s!"channel {hexText channel} is not present in {format.name}"
  | .noGradient => "at least one gradient output must be bound"
  | .tableItems => "lookup table must hold u8 items"
  | .binItems => "histogram bins are u32"
  | .tooFewBins capacity => s!"capacity {capacity.toNat} is below 256 bins"
  | .scalarOutput expected found => s!"expected a {expected.name} scalar, found {found.name}"
  | .noScalarType format => s!"no scalar type for {format.name}"
  | .locationItems => "locations are coordinates2d items"
  | .locationCapacity => "image too large for an inferred location capacity"
  | .openAccumulator => "accumulator must be fully specified"
  | .openLevels => "pyramid level count must be fixed"
  | .noLevels => "pyramid needs at least one level"
  | .pyramidFormat => "gaussian pyramid levels are u8"

end RejectionCause

/-- The parameter that was refused, and why. -/
structure Rejection where
  slot : Nat
  cause : RejectionCause
deriving DecidableEq, Repr

end VisionGraph
