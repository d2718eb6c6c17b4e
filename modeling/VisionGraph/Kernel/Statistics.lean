import VisionGraph.Kernel.Basic
/-!
Kernels over whole images: lookup tables, histograms, extrema and accumulation.
-/

namespace VisionGraph.Kernel

/-- The bins of a histogram, one for each byte. -/
def binCount : Nat := 256

/-- Every sample replaced by the table's item at it; a sample past the table fails the node. -/
def tableLookup : Kernel :=
  .ofBlock "vx.table_lookup" 0x08 [.input "in" .image, .input "lut" .array, .output "out" .image]
    (fun known => do
      let input ← Rule.inputImage known 0
      let _ ← Rule.requireFormat 0 input [.u8]
      let table ← Rule.array known 1
      if table.itemType ≠ some .u8 then
        Rule.refuse 1 .tableItems
      let out ← Rule.image known 2
      let format ← Rule.chooseFormat 2 out.format .u8 [.u8]
      return [Rule.inferImage 2 input format])
    (fun site => do
      let input ← site.image 0
      let body := codeLines (
        [s!"const uint8_t *src = {← site.expr 0};", s!"const vxf_array_t *lut = {← site.expr 1};",
          "const uint8_t *table = (const uint8_t *)lut->items;", s!"uint8_t *dst = {← site.expr 2};"] ++
        braced s!"for (size_t i = 0; i < {input.pixels}; ++i)"
          ["if ((uint64_t)src[i] >= lut->num_items) VXF_NODE_FAIL;", "dst[i] = table[src[i]];"])
      return ⟨body, []⟩)
    (fun _ frame => do
      let src ← frame.image 0
      let table ← frame.array 1
      loop (fun i f => do
        let v ← f.sample 0 i
        if table.len ≤ v.toNat then
          throw (.failed f)
        match table.get? v.toNat with
        | some item => f.write 2 i item
        | none => throw .astray)
        (src.width.toNat * src.height.toNat) 0 frame)

/-- How often each byte occurs. -/
def histogram : Kernel :=
  .ofBlock "vx.histogram" 0x09 [.input "in" .image, .output "distribution" .array]
    (fun known => do
      let input ← Rule.inputImage known 0
      let _ ← Rule.requireFormat 0 input [.u8]
      let declared ← Rule.array known 1
      if declared.itemType.isSome && declared.itemType != some .u32 then
        Rule.refuse 1 .binItems
      let capacity := declared.capacity.getD (UInt32.ofNat binCount)
      if capacity.toNat < binCount then
        Rule.refuse 1 (.tooFewBins capacity)
      return [⟨1, .array (.known .u32 capacity)⟩])
    (fun site => do
      let input ← site.image 0
      let body := codeLines (
        [s!"const uint8_t *src = {← site.expr 0};", s!"vxf_array_t *hist = {← site.expr 1};",
          "uint32_t *bins = (uint32_t *)hist->items;"] ++
        braced s!"for (size_t k = 0; k < {binCount}; ++k)" ["bins[k] = 0;"] ++
        braced s!"for (size_t i = 0; i < {input.pixels}; ++i)" ["bins[src[i]] += 1u;"] ++
        [s!"hist->num_items = {binCount};"])
      return ⟨body, []⟩)
    (fun _ frame => do
      let src ← frame.image 0
      let bins ← frame.array 1
      let bins ← loop (fun k bins =>
        match bins.set? k 0 with
        | some bins => .ok bins
        | none => .error .astray) binCount 0 bins
      let bins ← loop (fun i bins =>
        match src.get? i with
        | some v =>
          match bins.get? v.toNat with
          | some count =>
            match bins.set? v.toNat (count + 1) with
            | some bins => .ok bins
            | none => .error Halt.astray
          | none => .error .astray
        | none => .error .astray) (src.width.toNat * src.height.toNat) 0 bins
      return frame.modify 1 fun _ => .array (bins.setLen binCount))

/-- Infers a scalar of a given type. -/
def scalarOutput (known : Known) (slot : Nat) (type : ScalarType) : Except Rejection Inference := do
  match (← Rule.scalar known slot).type with
  | some found =>
    if found = type then return ⟨slot, .scalar (.typed type)⟩
    else Rule.refuse slot (.scalarOutput type found)
  | none => return ⟨slot, .scalar (.typed type)⟩

/-- Infers an array of places in an image, by default large enough for all of them. -/
def locationOutput (known : Known) (input : ImageShape) (slot : Nat) : Except Rejection Inference := do
  let declared ← Rule.array known slot
  if declared.itemType.isSome && declared.itemType != some .coordinates2d then
    Rule.refuse slot .locationItems
  let capacity ← match declared.capacity with
    | some c => Except.ok c
    | none =>
      if input.pixels < UInt32.size then Except.ok (UInt32.ofNat input.pixels)
      else Rule.refuse slot .locationCapacity
  return ⟨slot, .array (.known .coordinates2d capacity)⟩

def extremaRule : Rule := fun known => do
  let input ← Rule.inputImage known 0
  let format ← Rule.requireFormat 0 input [.u8, .s16]
  let type ← match ScalarType.ofFormat? format with
    | some t => Except.ok t
    | none => Rule.refuse 0 (.noScalarType format)
  let lo ← scalarOutput known 1 type
  let hi ← scalarOutput known 2 type
  let places ← ([3, 4].filter (Rule.isBound known)).mapM (locationOutput known input)
  let counts ← ([5, 6].filter (Rule.isBound known)).mapM fun slot => scalarOutput known slot .u32
  return lo :: hi :: places ++ counts

/-- The code that handles a pixel equal to an extreme. -/
def extremeLines (bound : Bool) (extreme : String) : List String :=
  let array := extreme ++ "_loc"
  let append :=
    if bound then
      braced s!"if ({array}->num_items < {array}->capacity)" [
        s!"vxf_coordinates2d_t *at = (vxf_coordinates2d_t *){array}->items + {array}->num_items;",
        "at->x = x;", "at->y = y;", s!"{array}->num_items += 1;"]
    else []
  braced s!"if (value == {extreme})" (append ++ [s!"{extreme}_count += 1u;"])

def extremaBlock (site : Site) : Emit Fragment := do
  let input ← site.image 0
  if input.isEmpty then
    throw .emptyExtrema
  let type := input.format.cType
  let extremes :=
    [s!"const {type} *src = {← site.expr 0};", s!"{type} lo = src[0];", s!"{type} hi = src[0];"] ++
    braced s!"for (size_t i = 1; i < {input.pixels}; ++i)"
      ["if (src[i] < lo) lo = src[i];", "if (src[i] > hi) hi = src[i];"] ++
    [s!"{← site.expr 1} = lo;", s!"{← site.expr 2} = hi;"]
  if !([3, 4, 5, 6].any site.isBound) then
    return ⟨codeLines extremes, []⟩
  let places := [(3, "lo"), (4, "hi")].filter fun (slot, _) => site.isBound slot
  let headers ← places.mapM fun (slot, extreme) => do
    return [s!"vxf_array_t *{extreme}_loc = {← site.expr slot};", s!"{extreme}_loc->num_items = 0;"]
  let raster :=
    braced s!"for (int32_t y = 0; y < {input.height.toNat}; ++y)"
      (braced s!"for (int32_t x = 0; x < {input.width.toNat}; ++x)" (
        [s!"const {type} value = src[(size_t)y * {input.width.toNat} + (size_t)x];"] ++
        extremeLines (site.isBound 3) "lo" ++ extremeLines (site.isBound 4) "hi"))
  let counts ← ([(5, "lo"), (6, "hi")].filter fun (slot, _) => site.isBound slot).mapM fun (slot, extreme) => do
    return s!"{← site.expr slot} = {extreme}_count;"
  return ⟨codeLines (extremes ++ ["uint32_t lo_count = 0;", "uint32_t hi_count = 0;"] ++ headers.flatten ++
    raster ++ counts), []⟩

/-- Records the place of a pixel that equals an extreme. -/
@[inline] def recordExtreme (slot w i : Nat) (f : Frame) : Except Halt Frame :=
  if f.isBound slot then f.changeArray slot (·.push (Point.pack ⟨(i % w : Nat), (i / w : Nat)⟩)) else .ok f

/-- Empties an array if it is bound. -/
def resetArray (slot : Nat) (f : Frame) : Except Halt Frame :=
  if f.isBound slot then f.changeArray slot (·.clear) else .ok f

/-- Writes a scalar if it is bound. -/
def writeBound (slot : Nat) (v : Int) (f : Frame) : Except Halt Frame :=
  if f.isBound slot then f.writeScalar slot v else .ok f

def extremaEffect : Effect := fun _ frame => do
  let src ← frame.image 0
  match src.get? 0 with
  | none => .error .astray
  | some first =>
    let lo := src.samples.foldl min first
    let hi := src.samples.foldl max first
    let frame ← frame.writeScalar 1 lo
    let frame ← frame.writeScalar 2 hi
    let frame ← resetArray 3 frame
    let frame ← resetArray 4 frame
    let w := src.width.toNat
    let frame ← loop (fun i f =>
      match src.get? i with
      | some v => do
        let f ← if v = lo then recordExtreme 3 w i f else .ok f
        if v = hi then recordExtreme 4 w i f else .ok f
      | none => .error .astray) src.size 0 frame
    let frame ← writeBound 5 (src.samples.count lo) frame
    writeBound 6 (src.samples.count hi) frame

/-- The smallest and the largest sample, and optionally where and how often they occur. -/
def minMaxLoc : Kernel :=
  .ofBlock "vx.minmaxloc" 0x19
    [.input "in" .image, .output "min" .scalar, .output "max" .scalar,
      (Param.output "min_loc" .array).orUnbound, (Param.output "max_loc" .array).orUnbound,
      (Param.output "min_count" .scalar).orUnbound, (Param.output "max_count" .scalar).orUnbound]
    extremaRule extremaBlock extremaEffect

/-- Adds a byte image to a signed accumulator, saturating. -/
def accumulate : Kernel :=
  .ofBlock "vx.accumulate" 0x16 [.input "in" .image, .bidirectional "accum" .image]
    (fun known => do
      let input ← Rule.inputImage known 0
      let _ ← Rule.requireFormat 0 input [.u8]
      if !(← Rule.image known 1).isResolved then
        Rule.refuse 1 .openAccumulator
      let accum ← Rule.inputImage known 1
      let _ ← Rule.requireFormat 1 accum [.s16]
      Rule.sameExtent 1 input accum
      return [])
    (fun site => do
      let input ← site.image 0
      let body := codeLines (
        [s!"const uint8_t *src = {← site.expr 0};", s!"int16_t *dst = {← site.expr 1};"] ++
        braced s!"for (size_t i = 0; i < {input.pixels}; ++i)"
          ["dst[i] = vxf_sat_s16((int64_t)dst[i] + (int64_t)src[i]);"])
      return ⟨body, []⟩)
    (fun _ frame => do
      let src ← frame.image 0
      loop (fun i f => do
        let v ← f.sample 0 i
        let sum ← f.sample 1 i
        f.write 1 i (Element.s16.clamp (sum + v)))
        (src.width.toNat * src.height.toNat) 0 frame)

end VisionGraph.Kernel
