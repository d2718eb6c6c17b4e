import VisionGraph.Plan.Basic
/-!
Storage of a plan: every object that a stage names gets one placement.
-/

namespace VisionGraph

structure Storage where
  /-- The objects that the caller binds, in the order of the handles. -/
  entries : List ObjectId
  placements : IdMap Placement
deriving DecidableEq, Repr

namespace Storage

def placement? (s : Storage) (o : ObjectId) : Option Placement := s.placements.get? o

/-- The objects that live only during a run, in the order of their numbers. -/
def scratch (s : Storage) : List ObjectId :=
  (s.placements.entries.filter (·.2 == .scratch)).map (·.1)

/-- Where an object of a plan goes that has no placement yet. -/
def place (p : Plan) (entries : List ObjectId) (o : ObjectId) : Except Error Placement :=
  match p.object? o with
  | none => .error (.state (.notInPlan o))
  | some r =>
    match r.object.constant, r.object.slot with
    | some v, _ => .ok (.constant v)
    | none, some slot =>
      match entries.idxOf? slot.delay with
      | some i => .ok (.slot i slot.age)
      | none => .error (.state (.slotWithoutEntry o slot.delay))
    | none, none =>
      match entries.idxOf? o with
      | some i => .ok (.entry i)
      | none => .ok .scratch

/-- Places an object unless it has its place. -/
def add (p : Plan) (entries : List ObjectId) (placed : IdMap Placement) (o : ObjectId) :
    Except Error (IdMap Placement) :=
  if placed.contains o then .ok placed
  else (place p entries o).map (placed.insert o)

def addStage (p : Plan) (entries : List ObjectId) (placed : IdMap Placement) (stage : Stage) :
    Except Error (IdMap Placement) :=
  stage.referenced.foldlM (add p entries) (stage.internal.foldl (fun m o => m.insert o .internal) placed)

/-- Places the objects of all stages in turn. -/
def ofPlan (p : Plan) : Except Error Storage := do
  let placements ← p.stages.foldlM (addStage p p.entries) .empty
  return ⟨p.entries, placements⟩

end Storage

end VisionGraph
