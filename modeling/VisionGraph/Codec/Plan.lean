import VisionGraph.Codec.Graph
import VisionGraph.Plan.Optimize
/-!
Plans and what optimisation did to them as JSON.
-/

namespace VisionGraph

open Json

namespace Step

def toJson (s : Step) : Json :=
  record [("origin", s.origin.toJson), ("kernel", ofText s.kernel), ("params", paramsJson s.params),
    ("directions", ofList Direction.toJson s.directions), ("border", s.border.toJson)]

def ofJson? (j : Json) : Option Step := do
  let fs ← j.fields? ["origin", "kernel", "params", "directions", "border"]
  return {
    origin := ← fs.required "origin" NodeId.ofJson?
    kernel := ← fs.required "kernel" text?
    params := ← fs.required "params" params?
    directions := ← fs.required "directions" (list? Direction.ofJson?)
    border := ← fs.required "border" Border.ofJson? }

end Step

namespace Stage

def toJson (s : Stage) : Json :=
  record [("steps", ofList Step.toJson s.steps), ("internal", ofList ObjectId.toJson s.internal),
    ("elementwise", .bool s.pixelwise)]

def ofJson? (j : Json) : Option Stage := do
  let fs ← j.fields? ["steps", "internal", "elementwise"]
  return {
    steps := ← fs.required "steps" (list? Step.ofJson?)
    internal := ← fs.required "internal" (list? ObjectId.ofJson?)
    pixelwise := ← fs.required "elementwise" bool? }

end Stage

namespace Resolved

def toJson (r : Resolved) : Json := record [("object", r.object.toJson), ("resolved", r.info.toJson)]

def ofJson? (j : Json) : Option Resolved := do
  let fs ← j.fields? ["object", "resolved"]
  return {
    object := ← fs.required "object" DataObject.ofJson?
    info := ← fs.required "resolved" Meta.ofJson? }

end Resolved

namespace Plan

/-- The digits of an object's number name it in a table. -/
def keyed (entry : ObjectId × Resolved) : List Piece × Json :=
  (pieces (toString entry.1.index), entry.2.toJson)

/-- The number that plain digits name; a leading zero stands alone. -/
def key? (name : List Piece) : Option ObjectId := do
  let digits ← name.mapM fun
    | .plain c => some c
    | .unit _ => none
  ObjectId.ofJson? (.number digits)

/-- A table of objects; of two entries with one number the later counts. -/
def table? : Json → Option (IdMap Resolved)
  | .object members =>
    members.foldlM (fun table (name, j) => do return table.insert (← key? name) (← Resolved.ofJson? j)) .empty
  | _ => none

def toJson (p : Plan) : Json :=
  record [("objects", .object (p.objects.entries.map keyed)), ("nodes", ofList Stage.toJson p.stages)]

def ofJson? (j : Json) : Option Plan := do
  let fs ← j.fields? ["objects", "nodes"]
  return {
    objects := ← fs.required "objects" table?
    stages := ← fs.required "nodes" (list? Stage.ofJson?) }

end Plan

namespace Fusion

def toJson (f : Fusion) : Json :=
  record [("producer", ofList NodeId.toJson f.producer), ("consumer", ofList NodeId.toJson f.consumer),
    ("intermediate", f.intermediate.toJson)]

def ofJson? (j : Json) : Option Fusion := do
  let fs ← j.fields? ["producer", "consumer", "intermediate"]
  return {
    producer := ← fs.required "producer" (list? NodeId.ofJson?)
    consumer := ← fs.required "consumer" (list? NodeId.ofJson?)
    intermediate := ← fs.required "intermediate" ObjectId.ofJson? }

end Fusion

namespace Event

def toJson : Event → Json
  | .nodeRemoved n => tagged "NodeRemoved" n.toJson
  | .objectRemoved o => tagged "ObjectRemoved" o.toJson
  | .fused producer consumer o => tagged "Fused" (Fusion.toJson ⟨producer, consumer, o⟩)

def ofJson? (j : Json) : Option Event :=
  match j.variant? with
  | some ("NodeRemoved", some content) => (NodeId.ofJson? content).map .nodeRemoved
  | some ("ObjectRemoved", some content) => (ObjectId.ofJson? content).map .objectRemoved
  | some ("Fused", some content) =>
    (Fusion.ofJson? content).map fun f => .fused f.producer f.consumer f.intermediate
  | _ => none

/-- What one pass did. -/
def listJson (events : List Event) : Json := record [("events", ofList toJson events)]

def list? (j : Json) : Option (List Event) := do
  (← j.fields? ["events"]).required "events" (Json.list? ofJson?)

end Event

namespace Report

def toJson (r : Report) : Json :=
  record ([("nodes_before", ofNat r.nodesBefore), ("nodes_after", ofNat r.nodesAfter),
      ("iterations", ofNat r.iterations), ("removed_nodes", ofList NodeId.toJson r.removedNodes),
      ("removed_objects", ofList ObjectId.toJson r.removedObjects), ("fusions", ofList Fusion.toJson r.fusions)] ++
    (if r.failedPasses.isEmpty then [] else [("failed_passes", ofList ofText r.failedPasses)]))

def ofJson? (j : Json) : Option Report := do
  let fs ← j.fields? ["nodes_before", "nodes_after", "iterations", "removed_nodes", "removed_objects", "fusions",
    "failed_passes"]
  return {
    nodesBefore := ← fs.required "nodes_before" (nat? UInt64.size)
    nodesAfter := ← fs.required "nodes_after" (nat? UInt64.size)
    iterations := ← fs.required "iterations" (nat? UInt64.size)
    removedNodes := ← fs.required "removed_nodes" (Json.list? NodeId.ofJson?)
    removedObjects := ← fs.required "removed_objects" (Json.list? ObjectId.ofJson?)
    fusions := ← fs.required "fusions" (Json.list? Fusion.ofJson?)
    failedPasses := ← fs.orElse "failed_passes" [] (Json.list? text?) }

end Report

namespace OptimizerConfig

def toJson (c : OptimizerConfig) : Json :=
  record [("eliminate_dead_nodes", .bool c.prune), ("fuse_elementwise", .bool c.fuse),
    ("max_iterations", ofNat c.maxIterations)]

/-- What is left out is as in the standard configuration. -/
def ofJson? (j : Json) : Option OptimizerConfig := do
  let fs ← j.fields? ["eliminate_dead_nodes", "fuse_elementwise", "max_iterations"]
  return {
    prune := ← fs.orElse "eliminate_dead_nodes" standard.prune bool?
    fuse := ← fs.orElse "fuse_elementwise" standard.fuse bool?
    maxIterations := ← fs.orElse "max_iterations" standard.maxIterations (nat? UInt64.size) }

end OptimizerConfig

end VisionGraph
