import VisionGraph.Data.Object
/-!
Placement of the objects of a plan inside the generated entry point.
-/

namespace VisionGraph

/-- Where an object lives during a run. -/
inductive Placement where
  /-- The handle with this number. -/
  | entry (index : Nat)
  /-- The image of an age of the delay behind a handle. -/
  | slot (index : Nat) (age : UInt32)
  /-- Storage of the run itself. -/
  | scratch
  /-- A literal of the code. -/
  | constant (v : Scalar)
  /-- A variable inside the loop over the samples. -/
  | internal
deriving DecidableEq, Repr

def Placement.inspect : Placement → String
  | .entry index => s!"Entry({index})"
  | .slot index age => inspectRecord "DelaySlot" [("entry", toString index), ("age", inspectWord age)]
  | .scratch => "Local"
  | .constant v => s!"Constant({v.inspect})"
  | .internal => "Internal"

end VisionGraph
