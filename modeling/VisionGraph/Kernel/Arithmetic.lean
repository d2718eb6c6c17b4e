import VisionGraph.Kernel.Basic
/-!
Pixel-wise arithmetic: sums, differences, products, scaling and clamping.
-/

namespace VisionGraph.Kernel

/-- The output formats of a sum, difference or product, and the one taken when none is declared. -/
def arithmeticFormats (first second : ImageShape) : Format × List Format :=
  if first.format = .u8 ∧ second.format = .u8 then (.u8, [.u8, .s16]) else (.s16, [.s16])

def numericScalars : List ScalarType := [.u8, .u16, .s16, .u32, .s32, .f32]

def singleChannel : List Format := [.u8, .u16, .s16, .u32, .s32, .f32]

/-- Infers a sum or a difference. -/
def additiveRule : Rule := fun known => do
  let (first, second) ← Rule.imagePair known [.u8, .s16]
  let _ ← Rule.policy known 2
  let out ← Rule.image known 3
  let (default, allowed) := arithmeticFormats first second
  let format ← Rule.chooseFormat 3 out.format default allowed
  return [Rule.inferImage 3 first format]

def additive (name : String) (number : UInt32) (sign : String) (combine : Int → Int → Int) : Kernel :=
  .ofPixel name number
    [.input "in1" .image, .input "in2" .image, .input "policy" .scalar, .output "out" .image]
    additiveRule
    (fun site lanes => do
      let saturate ← site.saturates 2
      let out ← site.image 3
      let expr := s!"(int32_t){← laneText lanes 0} {sign} (int32_t){← laneText lanes 1}"
      return s!"{← laneText lanes 3} = {convertExpr out.format expr saturate};")
    3
    (fun types =>
      let convert := (types.element 3).convert (types.saturates 2)
      fun read => convert (combine (read 0) (read 1)))

/-- The sum of two images. -/
def add : Kernel := additive "vx.add" 0x21 "+" (· + ·)

/-- The difference of two images. -/
def subtract : Kernel := additive "vx.subtract" 0x22 "-" (· - ·)

/-- The scaled product of two images, rounded toward zero. -/
def multiply : Kernel :=
  .ofPixel "vx.multiply" 0x20
    [.input "in1" .image, .input "in2" .image, .input "scale" .scalar, .input "policy" .scalar,
      .output "out" .image]
    (fun known => do
      let (first, second) ← Rule.imagePair known [.u8, .s16]
      let _ ← Rule.scalarOf known 2 [.f32]
      let _ ← Rule.policy known 3
      let out ← Rule.image known 4
      let (default, allowed) := arithmeticFormats first second
      let format ← Rule.chooseFormat 4 out.format default allowed
      return [Rule.inferImage 4 first format])
    (fun site lanes => do
      let saturate ← site.saturates 3
      let out ← site.image 4
      let expr := s!"vxf_trunc_f64((double){← laneText lanes 0} * (double){← laneText lanes 1} * " ++
        s!"(double){← laneText lanes 2})"
      return s!"{← laneText lanes 4} = {convertExpr out.format expr saturate};")
    4
    (fun types =>
      let (first, second, scale) := (types.element 0, types.element 1, types.element 2)
      let convert := (types.element 4).convert (types.saturates 3)
      fun read =>
        convert (Real64.truncate (first.toFloat (read 0) * second.toFloat (read 1) * scale.toFloat (read 2))))

/-- The absolute difference of two images. -/
def absdiff : Kernel :=
  .ofPixel "vx.absdiff" 0x0B
    [.input "in1" .image, .input "in2" .image, .output "out" .image]
    (fun known => do
      let (first, second) ← Rule.imagePair known [.u8, .s16]
      if first.format ≠ second.format then
        Rule.refuse 1 .formatsDiffer
      let out ← Rule.image known 2
      let format ← Rule.chooseFormat 2 out.format first.format [first.format]
      return [Rule.inferImage 2 first format])
    (fun site lanes => do
      let out ← site.image 2
      let a ← laneText lanes 0
      let b ← laneText lanes 1
      let expr := s!"(int32_t){a} > (int32_t){b} ? (int32_t){a} - (int32_t){b} : (int32_t){b} - (int32_t){a}"
      return s!"{← laneText lanes 2} = {convertExpr out.format expr true};")
    2
    (fun types read =>
      let a := read 0
      let b := read 1
      (types.element 2).convert true (if b < a then a - b else b - a))

/-- An image times a scalar, rounded toward zero and saturated. -/
def multiplyScalar : Kernel :=
  .ofPixel "vxf.multiply_scalar" 0xFFE00001
    [.input "in" .image, .input "factor" .scalar, .output "out" .image]
    (fun known => do
      let input ← Rule.inputImage known 0
      let _ ← Rule.requireFormat 0 input singleChannel
      let _ ← Rule.scalarOf known 1 numericScalars
      let out ← Rule.image known 2
      let format ← Rule.chooseFormat 2 out.format input.format singleChannel
      return [Rule.inferImage 2 input format])
    (fun site lanes => do
      let out ← site.image 2
      let product := s!"(double){← laneText lanes 0} * (double){← laneText lanes 1}"
      let value :=
        if out.format.isFloat then s!"(float)({product})"
        else convertExpr out.format s!"vxf_trunc_f64({product})" true
      return s!"{← laneText lanes 2} = {value};")
    2
    (fun types =>
      let (input, factor, target) := (types.element 0, types.element 1, types.element 2)
      fun read =>
        let product := input.toFloat (read 0) * factor.toFloat (read 1)
        if target = .f32 then (Single.ofFloat product).bits.toNat
        else target.convert true (Real64.truncate product))

/-- An image limited to a range. -/
def clamp : Kernel :=
  .ofPixel "vxf.clamp" 0xFFE00002
    [.input "in" .image, .input "min" .scalar, .input "max" .scalar, .output "out" .image]
    (fun known => do
      let input ← Rule.inputImage known 0
      let _ ← Rule.requireFormat 0 input singleChannel
      let _ ← Rule.scalarOf known 1 numericScalars
      let _ ← Rule.scalarOf known 2 numericScalars
      let out ← Rule.image known 3
      let format ← Rule.chooseFormat 3 out.format input.format [input.format]
      return [Rule.inferImage 3 input format])
    (fun site lanes => do
      let out ← site.image 3
      let value ← laneText lanes 0
      let low ← laneText lanes 1
      let high ← laneText lanes 2
      let clamped :=
        if out.format.isFloat then
          s!"(float)vxf_clamp_f64((double){value}, (double){low}, (double){high})"
        else
          s!"({out.format.cType})vxf_clamp_i64((int64_t){value}, (int64_t){low}, (int64_t){high})"
      return s!"{← laneText lanes 3} = {clamped};")
    3
    (fun types =>
      let (input, low, high) := (types.element 0, types.element 1, types.element 2)
      let target := types.element 3
      fun read =>
        if target = .f32 then
          (Single.ofFloat (Real64.clamp (input.toFloat (read 0)) (low.toFloat (read 1)) (high.toFloat (read 2)))).bits.toNat
        else
          let v := input.toInteger (read 0)
          let lo := low.toInteger (read 1)
          let hi := high.toInteger (read 2)
          if v < lo then lo else if hi < v then hi else v)

end VisionGraph.Kernel
