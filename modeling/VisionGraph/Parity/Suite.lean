import VisionGraph.Demo.Noise
import VisionGraph.Parity.Evaluation
import VisionGraph.Session.Pipeline
/-!
The parity suite: every case is compiled with and without optimisation, both programs run on the same
noise, and their outputs are compared.
-/

namespace VisionGraph

structure ParitySuite where
  cases : List ParityCase
  iterations : Nat
  seed : UInt64
deriving DecidableEq, Repr

/-- Clocks: nanoseconds from some start, and milliseconds since 1970. -/
structure Clock (m : Type → Type) where
  nanoseconds : m Nat
  unixMillis : m Nat

namespace Clock

/-- Runs something and tells how many milliseconds it took. -/
@[specialize] def timed {m : Type → Type} [Monad m] {α : Type} (clock : Clock m)
    (task : Unit → Except Failure α) : ExceptT Failure m (Float × α) := do
  let start ← clock.nanoseconds
  match task () with
  | .error f => throw f
  | .ok a =>
    let stop ← clock.nanoseconds
    return (Float.ofNat (stop - start) / 1000000.0, a)

end Clock

namespace ParitySuite

def defaultSeed : UInt64 := 0x5eed

def ofCases (cases : List ParityCase) : ParitySuite := ⟨cases, 5, defaultSeed⟩

/-- A demo at a small size and at the size of a camera image. -/
def casesOf (d : Demo) : List ParityCase := [⟨d, 64, 48⟩, ⟨d, 640, 480⟩]

/-- All demos at both sizes. -/
def smoke : ParitySuite := ofCases (Demo.all.flatMap casesOf)

/-- At least one run is made. -/
def withIterations (s : ParitySuite) (iterations : Nat) : ParitySuite := { s with iterations := max iterations 1 }

def imageOf (b : Bindings) (o : ObjectId) : Except Failure ImageBuffer :=
  match b.image? o with
  | some x => .ok x
  | none => .error (.outputNotImage o)

/-- The largest difference of two images. -/
def maxError (x y : ImageBuffer) : Except Failure Float :=
  let (xs, ys) := (x.reals, y.reals)
  if xs.size ≠ ys.size then .error (.outputSizes xs.size ys.size)
  else .ok ((xs.zip ys).foldl (fun acc (a, b) =>
    let d := (a - b).abs
    if acc < d then d else acc) 0)

def outputErrors (outputs : List ObjectId) (fast plain : Bindings) : Except Failure (List (String × Float)) := do
  let errors ← outputs.mapM fun o => do
    return (o.text, ← maxError (← imageOf fast o) (← imageOf plain o))
  return sortNamed errors

/-- Copies the inputs of a demo from one set of bindings to another. -/
def copyInputs (inputs : List ObjectId) (source target : Bindings) : Bindings :=
  inputs.foldl (fun b o =>
    match source.get? o with
    | some h => b.insert o h
    | none => b) target

def lift {α : Type} (r : Except Error α) : Except Failure α := r.mapError .graph

/-- What goes on from case to case. -/
structure Progress where
  noise : Noise
  optimized : Pipeline
  /-- The same without optimisation, on the same store. -/
  reference : Pipeline
  results : List ParityResult

/-- Compiles a graph with one pipeline and hands the store on to the other. -/
def compile (l other : Pipeline) (case : ParityCase) (optimized : Bool) (g : Graph) :
    Except Failure (Artifacts × Pipeline × Pipeline) :=
  match l.compile g with
  | (.error e, _) => .error (.compiling case.name optimized e)
  | (.ok a, l) => .ok (a, l, { other with store := l.store })

/-- Runs a program and gives the bindings afterwards. -/
def runTimes (iterations : Nat) (a : Artifacts) (b : Bindings) : Except Failure Bindings :=
  match a.program.processTimes iterations b with
  | (.ok (), b) => .ok b
  | (.error e, _) => .error (.graph e)

def runCase {m : Type → Type} [Monad m] (clock : Clock m) (iterations : Nat) (p : Progress) (case : ParityCase) :
    ExceptT Failure m Progress := do
  let d := case.demo.build case.width case.height
  let (fast, optimized, reference) ← compile p.optimized p.reference case true d.graph
  let (plain, reference, optimized) ← compile reference optimized case false d.graph
  let (fastBindings, noise) ← d.fill (← lift fast.program.allocate) p.noise
  let plainBindings := copyInputs d.inputs fastBindings (← lift plain.program.allocate)
  let (fastTime, fastBindings) ← clock.timed fun _ => runTimes iterations fast fastBindings
  let (plainTime, plainBindings) ← clock.timed fun _ => runTimes iterations plain plainBindings
  let errors ← outputErrors d.outputs fastBindings plainBindings
  let result : ParityResult :=
    { case := case.name
      nodesReference := plain.optimized.stages.length
      nodesOptimized := fast.optimized.stages.length
      fusions := fast.report.fusions.length
      removedNodes := fast.report.removedNodes.length
      outputErrors := errors
      maxError := errors.foldl (fun acc (_, x) => if acc < x then x else acc) 0
      referenceLatency := plainTime / Float.ofNat iterations
      optimizedLatency := fastTime / Float.ofNat iterations }
  return ⟨noise, optimized, reference, p.results ++ [result]⟩

/-- Runs all cases with a pipeline and with the same pipeline without optimisation. -/
def run {m : Type → Type} [Monad m] (clock : Clock m) (s : ParitySuite) (l : Pipeline) :
    ExceptT Failure m Evaluation := do
  let start : Progress := ⟨.ofSeed s.seed, l, { l with optimizer := .disabled }, []⟩
  let p ← s.cases.foldlM (runCase clock s.iterations) start
  return ⟨"cpu-c", ← clock.unixMillis, s.seed.toNat, p.results⟩

end ParitySuite

end VisionGraph
