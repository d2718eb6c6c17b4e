import VisionGraph.CUnit.Block
import VisionGraph.Run.Memory
/-!
Execution of one stage.

A stage that is not pixel-wise hands its objects to the effect of its kernel. A pixel-wise stage first
asks the guards of all its steps and then computes sample after sample; for each sample the steps run in
order, and an internal image is one number that the next steps read.
-/

namespace VisionGraph

/-- Why a stage did not finish. -/
inductive Stop where
  /-- A kernel reported a failure; the memory holds what was written by then. -/
  | failed (m : Memory)
  /-- Something outside of the memory was addressed. -/
  | astray

/-- Where a step of a pixel-wise stage finds one of its parameters. -/
inductive Lane where
  | absent
  | fixed (v : Int)
  | plane (k : Nat)
  | temp (k : Nat)
deriving DecidableEq, Repr, Inhabited

/-- A step of a pixel-wise stage with its parameters found. -/
structure PixelStep where
  lanes : Array Lane
  admits : (Nat → Int) → Bool
  value : (Nat → Int) → Int
  /-- Where the new sample goes, and as what. -/
  target : Lane
  element : Element

/-- The step of a pixel-wise kernel on given parameters. -/
def PixelRule.step (rule : PixelRule) (types : LaneTypes) (lanes : Array Lane) : PixelStep where
  lanes := lanes
  admits := rule.admits types
  value := rule.value types
  target := lanes.getD rule.target .absent
  element := types.element rule.target

/-- The images of a pixel-wise stage and the numbers that stand for its internal images. -/
structure PixelState where
  objects : Array Host
  temps : Array Int
deriving DecidableEq

namespace PixelState

/-- The number a lane holds at a sample. -/
@[inline] def read (st : PixelState) (i : Nat) : Lane → Int
  | .absent => 0
  | .fixed v => v
  | .temp k => st.temps.getD k 0
  | .plane k =>
    match st.objects[k]? with
    | some (.image b) => b.samples.getD i 0
    | _ => 0

/-- Stores a number into a lane; a variable wraps like an image of its element. -/
@[inline] def write (st : PixelState) (i : Nat) (e : Element) (v : Int) : Lane → PixelState
  | .plane k =>
    { st with
      objects := modifyObject st.objects k fun
        | .image b => .image (b.set i v)
        | h => h }
  | .temp k => { st with temps := st.temps.setIfInBounds k (e.wrap v) }
  | .absent | .fixed _ => st

end PixelState

namespace PixelStep

@[inline] def lane (s : PixelStep) (slot : Nat) : Lane := s.lanes.getD slot .absent

/-- Whether the guard lets the stage start. -/
def passes (s : PixelStep) (st : PixelState) : Bool := s.admits fun slot => st.read 0 (s.lane slot)

/-- Computes one sample. -/
@[inline] def run (s : PixelStep) (i : Nat) (st : PixelState) : PixelState :=
  let v := s.value fun slot => st.read i (s.lane slot)
  st.write i s.element v s.target

end PixelStep

/-- Runs all steps for `left` samples from `i` on. -/
def pixelLoop (steps : List PixelStep) : (left i : Nat) → PixelState → PixelState
  | 0, _, st => st
  | left + 1, i, st => pixelLoop steps left (i + 1) (steps.foldl (fun st s => s.run i st) st)

namespace Stage

/-- The element and the constant of a parameter. -/
def laneType (p : Plan) : Option ObjectId → LaneType
  | none => default
  | some o =>
    match p.object? o with
    | none => default
    | some r =>
      match r.object.constant, r.info with
      | some v, _ => ⟨v.type.element, some v⟩
      | none, .image m => ⟨(m.format.getD .u8).element, none⟩
      | none, .scalar m => ⟨(m.type.getD .u8).element, none⟩
      | none, _ => default

/-- Where a parameter of a pixel-wise stage is found: in an image, in a scalar that is read once, or in
a variable of the loop. -/
def lane (s : Storage) (stage : Stage) (places : List Place) (objects : Array Host) :
    Option ObjectId → Lane
  | none => .absent
  | some o =>
    match s.placement? o with
    | some (.constant v) => .fixed v.toElement
    | some .internal => (stage.internal.idxOf? o).elim .absent .temp
    | _ =>
      match (s.place? o).bind places.idxOf? with
      | none => .absent
      | some k =>
        match objects[k]? with
        | some (.scalar v) => .fixed v.toElement
        | some (.image _) => .plane k
        | _ => .absent

/-- Whether every image of a step has the given number of samples. -/
def spans (objects : Array Host) (count : Nat) (step : PixelStep) : Bool :=
  step.lanes.all fun
    | .plane k =>
      match objects[k]? with
      | some (.image b) => b.samples.size == count
      | _ => false
    | _ => true

/-- The places that a stage writes. -/
def writtenPlaces (s : Storage) (stage : Stage) : List Place := stage.writes.filterMap s.place?

def prepare (r : Registry) (p : Plan) (s : Storage) (stage : Stage) (places : List Place)
    (objects : Array Host) (step : Step) : Option PixelStep :=
  (r.find? step.kernel).map fun kernel =>
    kernel.pixel.step (step.params.map (laneType p)).toArray (step.params.map (lane s stage places objects)).toArray

/-- Executes a pixel-wise stage. -/
def runPixels (r : Registry) (p : Plan) (s : Storage) (stage : Stage) (m : Memory) : Except Stop Memory :=
  let places := s.places (stage.steps.flatMap (·.params))
  match m.load places, p.extent? stage with
  | some objects, some count =>
    match stage.steps.mapM (prepare r p s stage places objects) with
    | none => .error .astray
    | some steps =>
      if !steps.all (spans objects count) then .error .astray
      else
        let start : PixelState := ⟨objects, Array.replicate stage.internal.length 0⟩
        if !steps.all (·.passes start) then .error (.failed m)
        else .ok (m.store places (stage.writtenPlaces s) (pixelLoop steps count 0 start).objects)
  | _, _ => .error .astray

/-- Executes a stage of one kernel that works on whole objects. -/
def runBlock (r : Registry) (s : Storage) (stage : Stage) (m : Memory) : Except Stop Memory :=
  match stage.steps with
  | [] => .error .astray
  | step :: _ =>
    let places := s.places step.params
    match r.find? step.kernel, m.load places with
    | some kernel, some objects =>
      let frame : Frame := ⟨(step.params.map (s.handle places)).toArray, objects⟩
      match kernel.effect step.border frame with
      | .ok f => .ok (m.store places (stage.writtenPlaces s) f.objects)
      | .error (.failed f) => .error (.failed (m.store places (stage.writtenPlaces s) f.objects))
      | .error .astray => .error .astray
    | _, _ => .error .astray

def run (r : Registry) (p : Plan) (s : Storage) (stage : Stage) (m : Memory) : Except Stop Memory :=
  if stage.pixelwise then runPixels r p s stage m else runBlock r s stage m

end Stage

/-- What became of a run. -/
inductive RunResult where
  | finished (m : Memory)
  /-- The stage at a position failed. -/
  | failed (position : Nat) (m : Memory)
  | astray

namespace Plan

/-- Executes stages, the first of them at a given position. -/
def runFrom (r : Registry) (p : Plan) (s : Storage) : (position : Nat) → List Stage → Memory → RunResult
  | _, [], m => .finished m
  | position, stage :: rest, m =>
    match stage.run r p s m with
    | .ok m => runFrom r p s (position + 1) rest m
    | .error (.failed m) => .failed position m
    | .error .astray => .astray

/-- Executes all stages of a plan on host objects. -/
def run (r : Registry) (p : Plan) (s : Storage) (host : Bindings) : RunResult :=
  match Memory.start p s host with
  | some m => p.runFrom r s 0 p.stages m
  | none => .astray

end Plan

end VisionGraph
