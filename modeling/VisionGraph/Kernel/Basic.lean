import VisionGraph.Kernel.Frame
import VisionGraph.Kernel.Pixel
import VisionGraph.Kernel.Template
/-!
Kernels: a signature, an inference rule, templates for generated code, and what the code does.

A pixel-wise kernel has a statement template and a pixel rule; the loop around them belongs to the
graph, which may share one loop among several kernels. Any other kernel has a block template and an
effect.
-/

namespace VisionGraph

structure Kernel where
  signature : Signature
  rule : Rule
  /-- The block of code of a kernel that is not pixel-wise. -/
  block : Site → Emit Fragment
  /-- The statement of a pixel-wise kernel for one sample. -/
  statement : Site → Lanes → Emit String
  /-- A statement to run once before the loop over the samples. -/
  guard : Site → Lanes → Emit (Option String)
  effect : Effect
  pixel : PixelRule

namespace Kernel

def name (k : Kernel) : String := k.signature.name

def isPixelwise (k : Kernel) : Bool := k.signature.pixelwise

/-- A kernel without any template. -/
def bare (signature : Signature) (rule : Rule) : Kernel where
  signature := signature
  rule := rule
  block := fun _ => .error (.noBlock signature.name)
  statement := fun _ _ => .error (.notPixelwise signature.name)
  guard := fun _ _ => .ok none
  effect := fun _ _ => .error .astray
  pixel := { target := 0, admits := fun _ _ => true, value := fun _ _ => 0 }

/-- A kernel that computes an output as a whole. -/
def ofBlock (name : String) (number : UInt32) (params : List Param) (rule : Rule)
    (block : Site → Emit Fragment) (effect : Effect) : Kernel :=
  { bare ⟨name, number, params, false⟩ rule with block := block, effect := effect }

/-- A kernel that computes each sample from the samples at the same place. -/
def ofPixel (name : String) (number : UInt32) (params : List Param) (rule : Rule)
    (statement : Site → Lanes → Emit String) (target : Nat)
    (value : LaneTypes → (Nat → Int) → Int) : Kernel :=
  { bare ⟨name, number, params, true⟩ rule with
    statement := statement
    pixel := { target := target, admits := fun _ _ => true, value := value } }

end Kernel

end VisionGraph
