import VisionGraph.Kernel.Frame
import VisionGraph.Plan.Storage
/-!
Memory of a run: the host objects of the caller, and scratch objects that live as long as the run.

Every object of a plan that is neither a constant nor internal to a stage has one place in the memory.
The images of a delay are places inside the host object of the delay.
-/

namespace VisionGraph

/-- Where the contents of an object are found during a run. -/
inductive Place where
  | host (o : ObjectId)
  | slot (delay : ObjectId) (age : Nat)
  | scratch (o : ObjectId)
deriving DecidableEq, Repr

namespace Storage

/-- The place of an object; constants and internal images have none. -/
def place? (s : Storage) (o : ObjectId) : Option Place :=
  match s.placement? o with
  | some (.entry k) => (s.entries[k]?).map .host
  | some (.slot k age) => (s.entries[k]?).map (.slot · age.toNat)
  | some .scratch => some (.scratch o)
  | some (.constant _) | some .internal | none => none

/-- The places of parameters, each once. -/
def places (s : Storage) (params : List (Option ObjectId)) : List Place :=
  (params.filterMap (·.bind s.place?)).eraseDups

/-- What a parameter stands for in a frame over the given places. -/
def handle (s : Storage) (places : List Place) : Option ObjectId → Handle
  | none => .unbound
  | some o =>
    match s.placement? o, (s.place? o).bind places.idxOf? with
    | some (.constant v), _ => .constant v
    | _, some k => .object k
    | _, none => .unbound

end Storage

structure Memory where
  host : Bindings
  scratch : IdMap Host
deriving DecidableEq

namespace Memory

def get? (m : Memory) : Place → Option Host
  | .host o => m.host.get? o
  | .scratch o => m.scratch.get? o
  | .slot delay age =>
    match m.host.get? delay with
    | some (.delay d) => (d.slot? age).map .image
    | _ => none

/-- Replaces the contents of a place. -/
def set (m : Memory) (place : Place) (h : Host) : Memory :=
  match place with
  | .host o => { m with host := m.host.insert o h }
  | .scratch o => { m with scratch := m.scratch.insert o h }
  | .slot delay age =>
    match m.host.get? delay, h with
    | some (.delay d), .image b => { m with host := m.host.insert delay (.delay (d.setSlot age b)) }
    | _, _ => m

/-- The contents of places. -/
def load (m : Memory) (places : List Place) : Option (Array Host) :=
  (places.mapM m.get?).map List.toArray

/-- Writes back the places that may have changed. -/
def store (m : Memory) (places written : List Place) (objects : Array Host) : Memory :=
  (places.zip objects.toList).foldl (fun m (place, h) => if place ∈ written then m.set place h else m) m

/-- The memory at the start of a run: fresh scratch objects beside the host objects. -/
def start (p : Plan) (s : Storage) (host : Bindings) : Option Memory := do
  let scratch ← s.scratch.mapM fun o => do
    let h ← (Host.ofMeta (← p.info? o)).toOption
    return (o, h)
  return ⟨host, .ofList scratch⟩

end Memory

end VisionGraph
