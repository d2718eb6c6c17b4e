import VisionGraph.Data.Meta
/-!
Data objects of a graph: identity, declared metadata and who can see them.
-/

namespace VisionGraph

/-- The number of a data object in its graph. -/
structure ObjectId where
  index : Nat
deriving DecidableEq, Repr, Inhabited, Ord, Hashable

def ObjectId.text (o : ObjectId) : String := s!"obj#{o.index}"

/-- The number of a node in its graph. -/
structure NodeId where
  index : Nat
deriving DecidableEq, Repr, Inhabited, Ord, Hashable

def NodeId.text (n : NodeId) : String := s!"node#{n.index}"

/-- A list of nodes as messages spell it. -/
def NodeId.inspectList (nodes : List NodeId) : String :=
  "[" ++ String.intercalate ", " (nodes.map fun n => s!"NodeId({n.index})") ++ "]"

/-- The place of an image in a delay: what was written `age` executions ago. -/
structure DelaySlot where
  delay : ObjectId
  age : UInt32
deriving DecidableEq, Repr, Inhabited

structure DataObject where
  id : ObjectId
  info : Meta
  isVirtual : Bool
  markedOutput : Bool
  slot : Option DelaySlot
deriving DecidableEq, Repr, Inhabited

namespace DataObject

def kind (o : DataObject) : Kind := o.info.kind

/-- The value of a scalar that the graph itself owns. -/
def constant (o : DataObject) : Option Scalar :=
  if o.isVirtual then o.info.scalar?.bind (·.value) else none

def isConstant (o : DataObject) : Bool := o.constant.isSome

/-- Visible from outside the graph, so never removed and never fused away. -/
def isExternal (o : DataObject) : Bool := !o.isVirtual || o.markedOutput

/-- Bound by the caller on its own; the slots of a delay travel with the delay. -/
def isEntry (o : DataObject) : Bool := o.isExternal && o.slot.isNone

end DataObject

end VisionGraph
