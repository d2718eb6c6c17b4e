import VisionGraph.Artifact.Store
import VisionGraph.CUnit.Source
import VisionGraph.Run.Stage
/-!
Programs: plans that were compiled and loaded, ready to run on host objects.
-/

namespace VisionGraph

structure Program where
  registry : Registry
  plan : Plan
  storage : Storage
  module : Module
  /-- The objects that the caller binds and their metadata, in the order of the handles. -/
  entries : List (ObjectId × Meta)
  origins : List Origin

/-- What a call of the entry point gives. -/
inductive CallResult where
  | status (code : Int)
  /-- Something outside of the bound objects was addressed. -/
  | astray
deriving DecidableEq, Repr

namespace Program

def entryOf (p : Plan) (o : ObjectId) : Except Error (ObjectId × Meta) :=
  match p.info? o with
  | some info => .ok (o, info)
  | none => .error (.state (.entryNotInPlan o))

/-- The program of a unit that was written for a plan. -/
def make (r : Registry) (p : Plan) (u : CUnit) (m : Module) : Except Error Program := do
  let entries ← u.entries.mapM (entryOf p)
  if m.objectCount ≠ entries.length then
    throw (.load (.objectCount none m.objectCount entries.length))
  let storage ← Storage.ofPlan p
  return ⟨r, p, storage, m, entries, u.origins⟩

/-- Fresh storage for every object that the caller binds. -/
def allocate (g : Program) : Except Error Bindings :=
  g.entries.foldlM (fun b (o, info) =>
    match Host.ofMeta info with
    | .ok h => .ok (b.insert o h)
    | .error fault => .error (.buffer fault)) .empty

def checkEntry (b : Bindings) (entry : ObjectId × Meta) : Except Error Unit :=
  match b.get? entry.1 with
  | none => .error (.binding entry.1 (.missing entry.2.kind))
  | some h =>
    match h.mismatch entry.2 with
    | some fault => .error (.binding entry.1 fault)
    | none => .ok ()

/-- Whether the bound objects fit the entries; the first that does not is reported. -/
def check (g : Program) (b : Bindings) : Except Error Unit := g.entries.forM (checkEntry b)

/-- Calls the entry point. -/
def call (g : Program) (b : Bindings) : CallResult × Bindings :=
  match g.module.entry with
  | .status code => (.status code, b)
  | .schedule =>
    match g.plan.run g.registry g.storage b with
    | .finished m => (.status 0, m.host)
    | .failed position m => (.status (position + 1), m.host)
    | .astray => (.astray, b)

/-- Calls the entry point with handles that point nowhere. -/
def callNull (g : Program) (count : Nat) : CallResult :=
  match g.module.entry with
  | .status code => .status code
  | .schedule =>
    if count ≠ g.module.objectCount then .status (-1)
    else if 0 < count then .status (-2)
    else (g.call .empty).1

/-- What a status means. -/
def decode (g : Program) (code : Int) : Except Error Unit :=
  if code = 0 then .ok ()
  else if code = -1 then .error (.execution code .handleCount)
  else if code = -2 then .error (.execution code .nullHandle)
  else if code = -3 then .error (.execution code .allocation)
  else if 0 < code then
    let position := code.toNat - 1
    match g.origins[position]? with
    | some origin => .error (.nodeFailure position origin.nodes)
    | none => .error (.execution code (.noSuchPosition position g.origins.length))
  else .error (.execution code .unknown)

/-- Makes a bound delay one age older. -/
def ageDelay (b : Bindings) (entry : ObjectId × Meta) : Bindings :=
  match b.get? entry.1 with
  | some (.delay d) => b.insert entry.1 (.delay d.advance)
  | _ => b

def ageDelays (g : Program) (b : Bindings) : Bindings := g.entries.foldl ageDelay b

/-- Runs the program once. Delays age only when every stage succeeded. -/
def process (g : Program) (b : Bindings) : Except Error Unit × Bindings :=
  match g.check b with
  | .error e => (.error e, b)
  | .ok () =>
    match g.call b with
    | (.astray, b) => (.error (.execution 0 .astray), b)
    | (.status code, b) =>
      match g.decode code with
      | .error e => (.error e, b)
      | .ok () => (.ok (), g.ageDelays b)

/-- Runs the program a number of times. Once a run changes nothing the others need not be made. -/
def processTimes (g : Program) : Nat → Bindings → Except Error Unit × Bindings
  | 0, b => (.ok (), b)
  | n + 1, b =>
    match g.process b with
    | (.error e, b) => (.error e, b)
    | (.ok (), next) => if next = b then (.ok (), next) else g.processTimes n next

end Program

end VisionGraph
