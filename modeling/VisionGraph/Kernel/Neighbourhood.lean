import VisionGraph.Kernel.Basic
/-!
Kernels on the three by three neighbourhood of every pixel of a byte image.
-/

namespace VisionGraph

/-- Where a coordinate stands on an axis of `n` pixels. Outside, a border that replicates takes the nearest
pixel; otherwise there is none, and the answer is `n`. -/
@[inline] def Border.along (border : Border) (n : Nat) (i : Int) : Nat :=
  if i < 0 then
    match border with
    | .replicate => 0
    | .constant _ => n
  else if i.toNat < n then i.toNat
  else
    match border with
    | .replicate => n - 1
    | .constant _ => n

/-- The sample in a column and a row of a one-channel image; outside, a constant border gives its value. -/
@[inline] def ImageBuffer.pick (b : ImageBuffer) (border : Border) (column row : Nat) : Option Int :=
  if column < b.width.toNat ∧ row < b.height.toNat then b.samples[row * b.width.toNat + column]?
  else
    match border with
    | .constant v => some v.toNat
    | .replicate => none

/-- The sample at a place of a one-channel image; outside, the border decides. -/
@[inline] def ImageBuffer.fetch (b : ImageBuffer) (border : Border) (x y : Int) : Option Int :=
  b.pick border (border.along b.width.toNat x) (border.along b.height.toNat y)

/-- The samples around a pixel, row by row. -/
structure Taps where
  p0 : Int
  p1 : Int
  p2 : Int
  p3 : Int
  p4 : Int
  p5 : Int
  p6 : Int
  p7 : Int
  p8 : Int
deriving DecidableEq, Repr

namespace Taps

/-- Gathers the samples around a place. -/
@[inline] def gather (b : ImageBuffer) (border : Border) (x y : Int) : Option Taps := do
  let left := border.along b.width.toNat (x - 1)
  let middle := border.along b.width.toNat x
  let right := border.along b.width.toNat (x + 1)
  let above := border.along b.height.toNat (y - 1)
  let level := border.along b.height.toNat y
  let below := border.along b.height.toNat (y + 1)
  return {
    p0 := ← b.pick border left above
    p1 := ← b.pick border middle above
    p2 := ← b.pick border right above
    p3 := ← b.pick border left level
    p4 := ← b.pick border middle level
    p5 := ← b.pick border right level
    p6 := ← b.pick border left below
    p7 := ← b.pick border middle below
    p8 := ← b.pick border right below }

def toList (t : Taps) : List Int := [t.p0, t.p1, t.p2, t.p3, t.p4, t.p5, t.p6, t.p7, t.p8]

def gaussian (t : Taps) : Int :=
  (t.p0 + 2 * t.p1 + t.p2 + 2 * t.p3 + 4 * t.p4 + 2 * t.p5 + t.p6 + 2 * t.p7 + t.p8) / 16

def mean (t : Taps) : Int :=
  (t.p0 + t.p1 + t.p2 + t.p3 + t.p4 + t.p5 + t.p6 + t.p7 + t.p8) / 9

/-- Puts a number into a list in increasing order. -/
def insertSorted (v : Int) : List Int → List Int
  | [] => [v]
  | w :: rest => if v ≤ w then v :: w :: rest else w :: insertSorted v rest

/-- The samples in increasing order. -/
def sorted (t : Taps) : List Int := t.toList.foldr insertSorted []

def median (t : Taps) : Int := t.sorted.getD 4 0

def largest (t : Taps) : Int := t.toList.foldl max t.p0

def smallest (t : Taps) : Int := t.toList.foldl min t.p0

def sobelX (t : Taps) : Int := (t.p2 + 2 * t.p5 + t.p8) - (t.p0 + 2 * t.p3 + t.p6)

def sobelY (t : Taps) : Int := (t.p6 + 2 * t.p7 + t.p8) - (t.p0 + 2 * t.p1 + t.p2)

/-- The code that gathers the samples. -/
def gatherLines (input : ImageShape) (borderArgs : String) : List String :=
  let offsets : List (String × String) :=
    [("-1", "-1"), ("0", "-1"), ("1", "-1"), ("-1", "0"), ("0", "0"), ("1", "0"), ("-1", "1"), ("0", "1"),
      ("1", "1")]
  offsets.zipIdx.map fun ((dx, dy), k) =>
    s!"p[{k}] = vxf_fetch_u8(src, {input.width.toNat}, {input.height.toNat}, x + ({dx}), y + ({dy}), {borderArgs});"

end Taps

namespace Kernel

/-- The loop over all pixels of an image around some lines. -/
def rasterLines (input : ImageShape) (body : List String) : List String :=
  braced s!"for (int32_t y = 0; y < {input.height.toNat}; ++y)"
    (braced s!"for (int32_t x = 0; x < {input.width.toNat}; ++x)" body)

/-- Gathers the samples around every pixel in turn and lets `store` write what becomes of them. -/
@[specialize] def overTaps (store : Nat → Taps → Frame → Except Halt Frame) (border : Border) (frame : Frame) :
    Except Halt Frame := do
  let src ← frame.image 0
  let w := src.width.toNat
  loop (fun i f => do
    let src ← f.image 0
    match Taps.gather src border (i % w : Nat) (i / w : Nat) with
    | some taps => store i taps f
    | none => .error .astray)
    (w * src.height.toNat) 0 frame

/-- A filter that reduces the neighbourhood of a pixel to one sample. -/
def filter (name : String) (number : UInt32) (reduction : String) (helpers : List Helper)
    (reduce : Taps → Int) : Kernel :=
  .ofBlock name number [.input "in" .image, .output "out" .image]
    (fun known => do
      let input ← Rule.inputImage known 0
      let _ ← Rule.requireFormat 0 input [.u8]
      let out ← Rule.image known 1
      let format ← Rule.chooseFormat 1 out.format .u8 [.u8]
      return [Rule.inferImage 1 input format])
    (fun site => do
      let input ← site.image 0
      let body := codeLines (
        [s!"const uint8_t *src = {← site.expr 0};", s!"uint8_t *dst = {← site.expr 1};"] ++
        rasterLines input (
          "int32_t p[9];" :: Taps.gatherLines input site.borderArgs ++
          [s!"dst[(size_t)y * {input.width.toNat} + (size_t)x] = (uint8_t)({reduction});"]))
      return ⟨body, .fetchU8 :: helpers⟩)
    (overTaps fun i taps f => f.write 1 i (reduce taps))

def gaussian3x3 : Kernel :=
  filter "vx.gaussian_3x3" 0x13
    "(p[0] + 2 * p[1] + p[2] + 2 * p[3] + 4 * p[4] + 2 * p[5] + p[6] + 2 * p[7] + p[8]) >> 4" [] Taps.gaussian

def box3x3 : Kernel :=
  filter "vx.box_3x3" 0x12 "(p[0] + p[1] + p[2] + p[3] + p[4] + p[5] + p[6] + p[7] + p[8]) / 9" [] Taps.mean

def median3x3 : Kernel := filter "vx.median_3x3" 0x11 "vxf_median9(p)" [.median9] Taps.median

def dilate3x3 : Kernel := filter "vx.dilate_3x3" 0x0F "vxf_reduce_max9(p)" [.reduceMax9] Taps.largest

def erode3x3 : Kernel := filter "vx.erode_3x3" 0x10 "vxf_reduce_min9(p)" [.reduceMin9] Taps.smallest

/-- The signed gradients of an image; at least one of them has to be bound. -/
def sobel3x3 : Kernel :=
  .ofBlock "vx.sobel_3x3" 0x04
    [.input "in" .image, (Param.output "grad_x" .image).orUnbound, (Param.output "grad_y" .image).orUnbound]
    (fun known => do
      let input ← Rule.inputImage known 0
      let _ ← Rule.requireFormat 0 input [.u8]
      if !Rule.isBound known 1 && !Rule.isBound known 2 then
        Rule.refuse 1 .noGradient
      ([1, 2].filter (Rule.isBound known)).mapM fun slot => do
        let out ← Rule.image known slot
        let format ← Rule.chooseFormat slot out.format .s16 [.s16]
        return Rule.inferImage slot input format)
    (fun site => do
      let input ← site.image 0
      let src ← site.expr 0
      let outputs := [(1, "dst_x"), (2, "dst_y")].filter fun (slot, _) => site.isBound slot
      let targets ← outputs.mapM fun (slot, name) => do
        return s!"int16_t *{name} = {← site.expr slot};"
      let stores := outputs.map fun (slot, name) =>
        if slot = 1 then s!"{name}[at] = (int16_t)((p[2] + 2 * p[5] + p[8]) - (p[0] + 2 * p[3] + p[6]));"
        else s!"{name}[at] = (int16_t)((p[6] + 2 * p[7] + p[8]) - (p[0] + 2 * p[1] + p[2]));"
      let body := codeLines (s!"const uint8_t *src = {src};" :: targets ++
        rasterLines input (
          "int32_t p[9];" :: Taps.gatherLines input site.borderArgs ++
          [s!"const size_t at = (size_t)y * {input.width.toNat} + (size_t)x;"] ++ stores))
      return ⟨body, [.fetchU8]⟩)
    (overTaps fun i taps f => do
      let f ← if f.isBound 1 then f.write 1 i taps.sobelX else .ok f
      if f.isBound 2 then f.write 2 i taps.sobelY else .ok f)

end Kernel

end VisionGraph
