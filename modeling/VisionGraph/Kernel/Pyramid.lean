import VisionGraph.Kernel.Neighbourhood
/-!
The gaussian pyramid: the first level is the image, and each further level is the one before it,
smoothed with binomial weights and taken at every second pixel.
-/

namespace VisionGraph.Kernel

def binomialWeights : List (Int × Int) := [(-2, 1), (-1, 4), (0, 6), (1, 4), (2, 1)]

/-- The weighted sum of the five by five samples around a place; the weights sum to 256. -/
def binomialSum (b : ImageBuffer) (border : Border) (x y : Int) : Option Int :=
  binomialWeights.foldlM (fun acc (dy, wy) =>
    binomialWeights.foldlM (fun acc (dx, wx) => do
      return acc + wy * wx * (← b.fetch border (x + dx) (y + dy))) acc) 0

/-- Smooths one level into the next. -/
def shrinkLevel (border : Border) (source target : ImageBuffer) : Except Halt ImageBuffer :=
  let w := target.width.toNat
  loop (fun i b =>
    match binomialSum source border (2 * (i % w) : Nat) (2 * (i / w) : Nat) with
    | some sum =>
      match b.set? i ((sum + 128) / 256) with
      | some b => .ok b
      | none => .error .astray
    | none => .error .astray)
    (w * target.height.toNat) 0 target

/-- Fills the levels after the first, each from the one before. -/
def shrinkLevels (border : Border) (source : ImageBuffer) : List ImageBuffer → Except Halt (List ImageBuffer)
  | [] => .ok []
  | target :: rest => do
    let level ← shrinkLevel border source target
    return level :: (← shrinkLevels border level rest)

/-- Copies the image into the first level. -/
def copyLevel (source target : ImageBuffer) : Except Halt ImageBuffer :=
  loop (fun i b =>
    match source.get? i with
    | some v =>
      match b.set? i v with
      | some b => .ok b
      | none => .error .astray
    | none => .error .astray)
    (source.width.toNat * source.height.toNat) 0 target

/-- The code of one level after the first. -/
def levelLines (info : PyramidMeta) (borderArgs : String) (level : Nat) : Emit (List String) := do
  let (pw, ph) ← match info.levelDims (UInt32.ofNat (level - 1)) with
    | some dims => Except.ok dims
    | none => .error .openBase
  let (w, h) ← match info.levelDims (UInt32.ofNat level) with
    | some dims => Except.ok dims
    | none => .error .openBase
  let raster := rasterLines ⟨w, h, .u8⟩ [
    s!"const int32_t acc = vxf_binomial5(src, {pw.toNat}, {ph.toNat}, 2 * x, 2 * y, {borderArgs});",
    s!"dst[(size_t)y * {w.toNat} + (size_t)x] = (uint8_t)((acc + 128) >> 8);"]
  let body := [s!"const uint8_t *src = (const uint8_t *)levels[{level - 1}];",
    s!"uint8_t *dst = (uint8_t *)levels[{level}];"] ++ raster
  return ["\x7b"] ++ body.map ("    " ++ ·) ++ ["\x7d"]

def gaussianPyramid : Kernel :=
  .ofBlock "vx.gaussian_pyramid" 0x15 [.input "in" .image, .output "gaussian" .pyramid]
    (fun known => do
      let input ← Rule.inputImage known 0
      let _ ← Rule.requireFormat 0 input [.u8]
      let declared ← Rule.pyramid known 1
      let levels ← match declared.levels with
        | some n => Except.ok n
        | none => Rule.refuse 1 .openLevels
      if levels = 0 then
        Rule.refuse 1 .noLevels
      if declared.format.isSome && declared.format != some .u8 then
        Rule.refuse 1 .pyramidFormat
      return [⟨1, .pyramid (.known levels input.width input.height .u8)⟩])
    (fun site => do
      let input ← site.image 0
      let target ← site.pyramid 1
      let levels ← match target.levels with
        | some n => Except.ok n.toNat
        | none => .error .openLevels
      let table ← site.expr 1
      let src ← site.expr 0
      let smoothed ← ((List.range levels).drop 1).mapM (levelLines target site.borderArgs)
      let body := codeLines ([s!"void **levels = {table};", s!"memcpy(levels[0], {src}, {input.pixels});"] ++
        smoothed.flatten)
      return ⟨body, [.fetchU8, .binomial5]⟩)
    (fun border frame => do
      let src ← frame.image 0
      let p ← frame.pyramid 1
      match p.levels.toList with
      | [] => .error .astray
      | first :: rest =>
        let first ← copyLevel src first
        let rest ← shrinkLevels border first rest
        return frame.modify 1 fun
          | .pyramid p => .pyramid { p with levels := (first :: rest).toArray }
          | h => h)

end VisionGraph.Kernel
