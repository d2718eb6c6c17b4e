import VisionGraph.Kernel.Basic
/-!
Pixel-wise logic on byte images, and the binary threshold.
-/

namespace VisionGraph.Kernel

/-- Infers a byte image from one byte image. -/
def byteRule (target : Nat) : Rule := fun known => do
  let input ← Rule.inputImage known 0
  let _ ← Rule.requireFormat 0 input [.u8]
  let out ← Rule.image known target
  let format ← Rule.chooseFormat target out.format .u8 [.u8]
  return [Rule.inferImage target input format]

def bitwise (name : String) (number : UInt32) (sign : String) (combine : Nat → Nat → Nat) : Kernel :=
  .ofPixel name number
    [.input "in1" .image, .input "in2" .image, .output "out" .image]
    (fun known => do
      let (first, _) ← Rule.imagePair known [.u8]
      let out ← Rule.image known 2
      let format ← Rule.chooseFormat 2 out.format .u8 [.u8]
      return [Rule.inferImage 2 first format])
    (fun _ lanes => do
      return s!"{← laneText lanes 2} = (uint8_t)({← laneText lanes 0} {sign} {← laneText lanes 1});")
    2
    (fun _ read => combine (read 0).toNat (read 1).toNat)

def and : Kernel := bitwise "vx.and" 0x1C "&" Nat.land

def or : Kernel := bitwise "vx.or" 0x1D "|" Nat.lor

def xor : Kernel := bitwise "vx.xor" 0x1E "^" Nat.xor

/-- The complement of every sample. -/
def not : Kernel :=
  .ofPixel "vx.not" 0x1F [.input "in" .image, .output "out" .image] (byteRule 1)
    (fun _ lanes => do
      return s!"{← laneText lanes 1} = (uint8_t)(~{← laneText lanes 0});")
    1
    (fun _ read => 255 - read 0)

/-- White where a sample exceeds the level, black elsewhere. -/
def threshold : Kernel :=
  .ofPixel "vx.threshold" 0x0D
    [.input "in" .image, .input "thresh" .scalar, .output "out" .image]
    (fun known => do
      let input ← Rule.inputImage known 0
      let _ ← Rule.requireFormat 0 input [.u8]
      let _ ← Rule.scalarOf known 1 [.u8]
      let out ← Rule.image known 2
      let format ← Rule.chooseFormat 2 out.format .u8 [.u8]
      return [Rule.inferImage 2 input format])
    (fun _ lanes => do
      return s!"{← laneText lanes 2} = (uint8_t)({← laneText lanes 0} > {← laneText lanes 1} ? 255u : 0u);")
    2
    (fun _ read => if read 1 < read 0 then 255 else 0)

end VisionGraph.Kernel
