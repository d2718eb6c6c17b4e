import VisionGraph.Kernel.Basic
/-!
Kernels on the channels of colour images.
-/

namespace VisionGraph.Kernel

/-- Brightness of a colour in fixed point, rounded to the nearest integer. -/
def luma (r g b : Int) : Int := (54 * r + 183 * g + 19 * b + 128) / 256

/-- The channel named by a number, by position or by colour. -/
def channelIndex? (channel : UInt32) : Option Nat :=
  if channel = 0x9000 ∨ channel = 0x9010 then some 0
  else if channel = 0x9001 ∨ channel = 0x9011 then some 1
  else if channel = 0x9002 ∨ channel = 0x9012 then some 2
  else if channel = 0x9003 ∨ channel = 0x9013 then some 3
  else none

/-- The samples that one pixel gets in the target format. -/
def convertPixel (target : Format) (r g b : Int) : List Int :=
  match target with
  | .rgb => [r, g, b]
  | .rgbx => [r, g, b, 255]
  | _ => [luma r g b]

/-- Writes samples side by side. -/
def writeSamples (slot : Nat) : (i : Nat) → List Int → Frame → Except Halt Frame
  | _, [], f => .ok f
  | i, v :: rest, f => do
    let f ← f.write slot i v
    writeSamples slot (i + 1) rest f

/-- Colour to brightness, or from three channels to four and back. -/
def colorConvert : Kernel :=
  .ofBlock "vx.color_convert" 0x01 [.input "in" .image, .output "out" .image]
    (fun known => do
      let input ← Rule.inputImage known 0
      let source ← Rule.requireFormat 0 input [.rgb, .rgbx]
      let out ← Rule.image known 1
      let allowed : List Format := if source = .rgb then [.u8, .rgbx] else [.u8, .rgb]
      let format ← Rule.chooseFormat 1 out.format .u8 allowed
      return [Rule.inferImage 1 input format])
    (fun site => do
      let input ← site.image 0
      let out ← site.image 1
      let src ← site.expr 0
      let dst ← site.expr 1
      let stores ← match out.format with
        | .u8 => Except.ok ["dst[i] = (uint8_t)((54u * px[0] + 183u * px[1] + 19u * px[2] + 128u) >> 8);"]
        | .rgbx => .ok ["dst[i * 4] = px[0];", "dst[i * 4 + 1] = px[1];", "dst[i * 4 + 2] = px[2];",
            "dst[i * 4 + 3] = 255;"]
        | .rgb => .ok ["dst[i * 3] = px[0];", "dst[i * 3 + 1] = px[1];", "dst[i * 3 + 2] = px[2];"]
        | other => .error (.colour other)
      let body := codeLines (
        [s!"const uint8_t *src = {src};", s!"uint8_t *dst = {dst};"] ++
        braced s!"for (size_t i = 0; i < {input.pixels}; ++i)"
          (s!"const uint8_t *px = src + i * {input.format.channels};" :: stores))
      return ⟨body, []⟩)
    (fun _ frame => do
      let src ← frame.image 0
      let dst ← frame.image 1
      let step := src.format.channels
      let format := dst.format
      loop (fun i f => do
        let r ← f.sample 0 (i * step)
        let g ← f.sample 0 (i * step + 1)
        let b ← f.sample 0 (i * step + 2)
        writeSamples 1 (i * format.channels) (convertPixel format r g b) f)
        (src.width.toNat * src.height.toNat) 0 frame)

/-- One channel of a colour image. -/
def channelExtract : Kernel :=
  .ofBlock "vx.channel_extract" 0x02
    [.input "in" .image, .input "channel" .scalar, .output "out" .image]
    (fun known => do
      let input ← Rule.inputImage known 0
      let format ← Rule.requireFormat 0 input [.rgb, .rgbx]
      let channel ← match (← Rule.scalar known 1).value with
        | some (.enum v) => Except.ok v
        | _ => Rule.refuse 1 .channelNotConstant
      match channelIndex? channel with
      | some index =>
        if format.channels ≤ index then
          Rule.refuse 1 (.channelAbsent channel format)
      | none => Rule.refuse 1 (.channelAbsent channel format)
      let out ← Rule.image known 2
      let target ← Rule.chooseFormat 2 out.format .u8 [.u8]
      return [Rule.inferImage 2 input target])
    (fun site => do
      let input ← site.image 0
      let index ← match channelIndex? (← site.constantEnum 1) with
        | some index => Except.ok index
        | none => .error .unknownChannel
      let body := codeLines (
        [s!"const uint8_t *src = {← site.expr 0};", s!"uint8_t *dst = {← site.expr 2};"] ++
        braced s!"for (size_t i = 0; i < {input.pixels}; ++i)"
          [s!"dst[i] = src[i * {input.format.channels} + {index}];"])
      return ⟨body, []⟩)
    (fun _ frame => do
      let src ← frame.image 0
      let step := src.format.channels
      match (← frame.scalar 1).enum?.bind channelIndex? with
      | none => .error .astray
      | some index =>
        loop (fun i f => do
          let v ← f.sample 0 (i * step + index)
          f.write 2 i v)
          (src.width.toNat * src.height.toNat) 0 frame)

/-- Three or four byte planes as one colour image; a missing fourth plane is white. -/
def channelCombine : Kernel :=
  .ofBlock "vx.channel_combine" 0x03
    [.input "plane0" .image, .input "plane1" .image, .input "plane2" .image,
      (Param.input "plane3" .image).orUnbound, .output "out" .image]
    (fun known => do
      let first ← Rule.inputImage known 0
      let _ ← Rule.requireFormat 0 first [.u8]
      let four := Rule.isBound known 3
      (if four then [1, 2, 3] else [1, 2]).forM fun slot => do
        let plane ← Rule.inputImage known slot
        let _ ← Rule.requireFormat slot plane [.u8]
        Rule.sameExtent slot first plane
      let out ← Rule.image known 4
      let format ←
        if four then Rule.chooseFormat 4 out.format .rgbx [.rgbx]
        else Rule.chooseFormat 4 out.format .rgb [.rgb, .rgbx]
      return [Rule.inferImage 4 first format])
    (fun site => do
      let out ← site.image 4
      let channels := out.format.channels
      let planes ← ([0, 1, 2, 3].filter site.isBound).mapM fun slot => do
        return s!"const uint8_t *plane{slot} = {← site.expr slot};"
      let dst ← site.expr 4
      let stores := (List.range channels).map fun channel =>
        if site.isBound channel then s!"dst[i * {channels} + {channel}] = plane{channel}[i];"
        else s!"dst[i * {channels} + {channel}] = 255;"
      let body := codeLines (planes ++ [s!"uint8_t *dst = {dst};"] ++
        braced s!"for (size_t i = 0; i < {out.pixels}; ++i)" stores)
      return ⟨body, []⟩)
    (fun _ frame => do
      let dst ← frame.image 4
      let channels := dst.format.channels
      loop (fun i f =>
        loop (fun c f => do
          let v ← if f.isBound c then f.sample c i else .ok 255
          f.write 4 (i * channels + c) v)
          channels 0 f)
        (dst.width.toNat * dst.height.toNat) 0 frame)

end VisionGraph.Kernel
