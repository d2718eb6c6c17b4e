import VisionGraph.Codec.Data
import VisionGraph.Graph.Basic
/-!
Graphs, their nodes and the signatures of kernels as JSON.
-/

namespace VisionGraph

open Json

namespace Border

def toJson : Border → Json
  | .replicate => ofText "Replicate"
  | .constant v => tagged "Constant" (ofNat v.toNat)

def ofJson? (j : Json) : Option Border :=
  match j.variant? with
  | some ("Replicate", none) | some ("Replicate", some .null) => some .replicate
  | some ("Constant", some content) => (content.nat? UInt8.size).map fun n => .constant (UInt8.ofNat n)
  | _ => none

end Border

def paramsJson (params : List (Option ObjectId)) : Json := ofList (ofOption ObjectId.toJson) params

def params? : Json → Option (List (Option ObjectId)) := list? (option? ObjectId.ofJson?)

namespace Node

def toJson (n : Node) : Json :=
  record [("id", n.id.toJson), ("kernel", ofText n.kernel), ("params", paramsJson n.params),
    ("border", n.border.toJson)]

def ofJson? (j : Json) : Option Node := do
  let fs ← j.fields? ["id", "kernel", "params", "border"]
  return {
    id := ← fs.required "id" NodeId.ofJson?
    kernel := ← fs.required "kernel" text?
    params := ← fs.required "params" params?
    border := ← fs.required "border" Border.ofJson? }

end Node

namespace Graph

def toJson (g : Graph) : Json :=
  record [("objects", ofList DataObject.toJson g.objects.toList), ("nodes", ofList Node.toJson g.nodes),
    ("next_node", ofNat g.nextNode)]

def ofJson? (j : Json) : Option Graph := do
  let fs ← j.fields? ["objects", "nodes", "next_node"]
  return {
    objects := (← fs.required "objects" (list? DataObject.ofJson?)).toArray
    nodes := ← fs.required "nodes" (list? Node.ofJson?)
    nextNode := ← fs.required "next_node" (nat? UInt32.size) }

end Graph

def Direction.toJson (d : Direction) : Json := ofText d.label

def Direction.ofJson? (j : Json) : Option Direction := j.bareVariant?.bind Direction.ofLabel?

namespace Param

def toJson (p : Param) : Json :=
  record [("name", ofText p.name), ("kind", ofText p.kind.label), ("direction", p.direction.toJson),
    ("optional", .bool p.optional)]

def ofJson? (j : Json) : Option Param := do
  let fs ← j.fields? ["name", "kind", "direction", "optional"]
  return {
    name := ← fs.required "name" text?
    kind := ← fs.required "kind" Kind.ofJson?
    direction := ← fs.required "direction" Direction.ofJson?
    optional := ← fs.required "optional" bool? }

end Param

namespace Signature

def toJson (s : Signature) : Json :=
  record [("name", ofText s.name), ("enum_id", wordJson s.number), ("params", ofList Param.toJson s.params),
    ("elementwise", .bool s.pixelwise)]

def ofJson? (j : Json) : Option Signature := do
  let fs ← j.fields? ["name", "enum_id", "params", "elementwise"]
  return {
    name := ← fs.required "name" text?
    number := ← fs.required "enum_id" word?
    params := ← fs.required "params" (list? Param.ofJson?)
    pixelwise := ← fs.required "elementwise" bool? }

end Signature

end VisionGraph
