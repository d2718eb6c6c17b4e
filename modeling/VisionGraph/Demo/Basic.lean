import VisionGraph.Codec.Graph
import VisionGraph.Kernel.Rule
/-!
Ready-made graphs for trying out and for measuring the compiler.
-/

namespace VisionGraph

inductive Demo where
  /-- Brightness of a colour image, cut at a level. -/
  | threshold
  /-- Three pixel-wise kernels that become one loop. -/
  | fusion
  /-- Blur, gradients, magnitude and a cut, and a branch that nothing uses. -/
  | edges
deriving DecidableEq, Repr, Inhabited

/-- A graph with the objects to fill and to look at. -/
structure DemoGraph where
  graph : Graph
  inputs : List ObjectId
  outputs : List ObjectId
deriving DecidableEq, Repr

namespace Demo

def all : List Demo := [.threshold, .fusion, .edges]

def name : Demo → String
  | .threshold => "threshold"
  | .fusion => "fusion"
  | .edges => "edges"

def ofName? (s : String) : Option Demo := all.find? (·.name == s)

def toJson (d : Demo) : Json := .ofText d.name

def ofJson? (j : Json) : Option Demo := j.bareVariant?.bind ofName?

/-- Adds an object to a graph under construction. -/
def adding (create : Graph → ObjectId × Graph) : StateM Graph ObjectId := create

/-- Adds a node with all its parameters bound. -/
def apply (kernel : String) (params : List ObjectId) : StateM Graph Unit := do
  let _ ← (fun g => g.addNode kernel (params.map some) : StateM Graph NodeId)

def image (width height : UInt32) (format : Format) : StateM Graph ObjectId := adding (·.createImage width height format)

def inner (format : Option Format) : StateM Graph ObjectId := adding (·.createVirtualImage ⟨none, none, format⟩)

def constant (v : Scalar) : StateM Graph ObjectId := adding (·.createConstant v)

def thresholdGraph (width height : UInt32) : StateM Graph (List ObjectId × List ObjectId) := do
  let rgb ← image width height .rgb
  let luma ← inner (some .u8)
  let level ← constant (.u8 128)
  let mask ← image width height .u8
  apply "vx.color_convert" [rgb, luma]
  apply "vx.threshold" [luma, level, mask]
  return ([rgb], [mask])

/-- Three quarters. -/
def fusionFactor : Single := ⟨0x3F400000⟩

def fusionGraph (width height : UInt32) : StateM Graph (List ObjectId × List ObjectId) := do
  let a ← image width height .u8
  let b ← image width height .u8
  let saturate ← constant (.enum saturatePolicy)
  let sum ← inner none
  let factor ← constant (.f32 fusionFactor)
  let scaled ← inner none
  let low ← constant (.u8 16)
  let high ← constant (.u8 235)
  let out ← image width height .u8
  apply "vx.add" [a, b, saturate, sum]
  apply "vxf.multiply_scalar" [sum, factor, scaled]
  apply "vxf.clamp" [scaled, low, high, out]
  return ([a, b], [out])

def edgesGraph (width height : UInt32) : StateM Graph (List ObjectId × List ObjectId) := do
  let input ← image width height .u8
  let blurred ← inner none
  let gradX ← inner none
  let gradY ← inner none
  let magnitude ← inner none
  let narrowed ← inner (some .u8)
  let saturate ← constant (.enum saturatePolicy)
  let shift ← constant (.s32 0)
  let level ← constant (.u8 64)
  let edges ← image width height .u8
  let orientation ← inner none
  apply "vx.gaussian_3x3" [input, blurred]
  apply "vx.sobel_3x3" [blurred, gradX, gradY]
  apply "vx.magnitude" [gradX, gradY, magnitude]
  apply "vx.convert_depth" [magnitude, narrowed, saturate, shift]
  apply "vx.threshold" [narrowed, level, edges]
  apply "vx.phase" [gradX, gradY, orientation]
  return ([input], [edges])

/-- The graph of a demo at a size. -/
def build (d : Demo) (width height : UInt32) : DemoGraph :=
  let make := match d with
    | .threshold => thresholdGraph width height
    | .fusion => fusionGraph width height
    | .edges => edgesGraph width height
  let ((inputs, outputs), graph) := make.run .empty
  ⟨graph, inputs, outputs⟩

end Demo

end VisionGraph
