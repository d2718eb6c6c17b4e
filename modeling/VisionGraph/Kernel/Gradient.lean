import VisionGraph.Kernel.Basic
/-!
Pixel-wise kernels on gradients, and conversion between sample depths.
-/

namespace VisionGraph.Kernel

/-- Infers an image from two signed gradients. -/
def gradientRule (format : Format) : Rule := fun known => do
  let (first, _) ← Rule.imagePair known [.s16]
  let out ← Rule.image known 2
  let format ← Rule.chooseFormat 2 out.format format [format]
  return [Rule.inferImage 2 first format]

/-- The length of the gradient, rounded to the nearest integer and saturated. -/
def gradientLength (x y : Int) : Int :=
  let dx := Float.ofInt x
  let dy := Float.ofInt y
  Element.s16.clamp ((dx * dx + dy * dy).sqrt + 0.5).toInt64.toInt

/-- A full turn. -/
def fullTurn : Float := 6.283185307179586

/-- The direction of the gradient in 256 steps of a full turn. -/
def gradientAngle (x y : Int) : Int :=
  let angle := Float.atan2 (Float.ofInt y) (Float.ofInt x)
  let angle := if angle < 0.0 then angle + fullTurn else angle
  (angle * 256.0 / fullTurn + 0.5).toInt64.toInt % 256

def magnitude : Kernel :=
  .ofPixel "vx.magnitude" 0x05
    [.input "grad_x" .image, .input "grad_y" .image, .output "mag" .image] (gradientRule .s16)
    (fun _ lanes => do
      let x ← laneText lanes 0
      let y ← laneText lanes 1
      return s!"{← laneText lanes 2} = vxf_sat_s16((int64_t)(sqrt((double){x} * (double){x} + " ++
        s!"(double){y} * (double){y}) + 0.5));")
    2
    (fun _ read => gradientLength (read 0) (read 1))

def phase : Kernel :=
  .ofPixel "vx.phase" 0x06
    [.input "grad_x" .image, .input "grad_y" .image, .output "orientation" .image] (gradientRule .u8)
    (fun _ lanes => do
      let x ← laneText lanes 0
      let y ← laneText lanes 1
      return s!"\x7b double vxf_angle = atan2((double){y}, (double){x}); if (vxf_angle < 0.0) " ++
        "vxf_angle += 6.283185307179586; " ++
        s!"{← laneText lanes 2} = (uint8_t)((int32_t)(vxf_angle * 256.0 / 6.283185307179586 + 0.5) & 0xFF); \x7d")
    2
    (fun _ read => gradientAngle (read 0) (read 1))

/-- The formats a depth can be converted to, and the one taken when none is declared. -/
def depthFormats? : Format → Option (Format × List Format)
  | .u8 => some (.s16, [.s16, .u16, .s32])
  | .s16 | .u16 => some (.u8, [.u8, .s32])
  | .s32 => some (.u8, [.u8, .s16])
  | _ => none

/-- Shifts left into a wider format, right into a narrower one. -/
def depthShift (source target : Element) (v shift : Int) : Int :=
  let scale : Int := Nat.pow 2 shift.toNat
  if source.bytes < target.bytes then v * scale else v / scale

/-- An image in another depth. A shift that is not constant is checked when the node runs. -/
def convertDepth : Kernel :=
  let kernel := Kernel.ofPixel "vx.convert_depth" 0x1A
    [.input "in" .image, .output "out" .image, .input "policy" .scalar, .input "shift" .scalar]
    (fun known => do
      let input ← Rule.inputImage known 0
      let (default, allowed) ← match depthFormats? input.format with
        | some p => Except.ok p
        | none => Rule.refuse 0 (.depthSource input.format)
      let _ ← Rule.policy known 2
      let shift ← Rule.scalarOf known 3 [.s32]
      match shift.value with
      | some (.s32 v) =>
        if v.toInt < 0 ∨ 8 ≤ v.toInt then
          Rule.refuse 3 (.shiftOutside v)
      | _ => pure ()
      let out ← Rule.image known 1
      let format ← Rule.chooseFormat 1 out.format default allowed
      return [Rule.inferImage 1 input format])
    (fun site lanes => do
      let input ← site.image 0
      let out ← site.image 1
      let saturate ← site.saturates 2
      let value ← laneText lanes 0
      let shift ← laneText lanes 3
      let expr :=
        if input.format.elementSize < out.format.elementSize then
          s!"(int64_t){value} * ((int64_t)1 << {shift})"
        else s!"(int64_t){value} >> {shift}"
      return s!"{← laneText lanes 1} = {convertExpr out.format expr saturate};")
    1
    (fun types =>
      let convert := (types.element 1).convert (types.saturates 2)
      fun read => convert (depthShift (types.element 0) (types.element 1) (read 0) (read 3)))
  { kernel with
    guard := fun site lanes => do
      if (← site.operand 3).constant.isSome then
        return none
      let shift ← laneText lanes 3
      return some s!"if ({shift} < 0 || {shift} >= 8) VXF_NODE_FAIL;"
    pixel := { kernel.pixel with
      admits := fun types read => (types.constant 3).isSome || decide (0 ≤ read 3 ∧ read 3 < 8) } }

end VisionGraph.Kernel
