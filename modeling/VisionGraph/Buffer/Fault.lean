import VisionGraph.Data.Meta
/-!
Reasons for which host storage refuses an operation.
-/

namespace VisionGraph

inductive BufferFault where
  | unresolved (kind : Kind)
  | columns (count channels : Nat)
  | imageView (bytes : Nat) (format : Format)
  | scalarStore (value held : ScalarType)
  | itemView (bytes : Nat) (itemType : ItemType)
  | capacity (count limit : Nat)
  | noSlots
deriving DecidableEq, Repr

def BufferFault.message : BufferFault → String
  | .unresolved kind => s!"{kind.name} metadata is not fully resolved"
  | .columns count channels => s!"{count} columns do not divide into {channels}-channel pixels"
  | .imageView bytes format => s!"{bytes}-byte view of a {format.name} image"
  | .scalarStore value held => s!"cannot store {value.name} in a {held.name} scalar"
  | .itemView bytes itemType => s!"{bytes}-byte view of {itemType.name} items"
  | .capacity count limit => s!"{count} items exceed capacity {limit}"
  | .noSlots => "a delay needs at least one slot"

end VisionGraph
